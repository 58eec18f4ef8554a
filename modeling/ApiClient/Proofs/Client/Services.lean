import ApiClient.Proofs.Method.Compile
import ApiClient.Proofs.Operation.Endpoints
import Mathlib.Data.List.Flatten

/-!
# Every endpoint is served once

Between a document and the files of its services an operation passes through four rearrangements:
it is read, gathered under a controller, given a name of its own, and written into the file of its
controller and into one of its own. Each step is described by what it does to endpoints, and the
descriptions compose: the methods of all services are the endpoints of the document again. What
could lose one is a collision of files; controllers differ in name, and the methods of one
controller do, so there is none.
-/

namespace ApiClient

/-- A controller and its compiled methods. -/
structure Service where
  name : String
  methods : List Method.Code

namespace Service

/-- Where the actions of a method lie. -/
def actionsPath (controller method : String) : List String :=
  [Layout.store, controller, method ++ ".actions" ++ Layout.extension]

/-- What is written of a service: its class, and the actions of its methods if there is a store. -/
def files (settings : Settings) (service : Service) : List ClientFile :=
  Controller.file settings.header service.name service.methods ::
    if settings.store then
      service.methods.map (Controller.Actions.file settings.header service.name)
    else []

/-- The endpoints that a service serves, in the order of its methods. -/
def endpoints (service : Service) : List Endpoint :=
  service.methods.map (·.method.endpoint)

end Service

namespace Client

/-- A method that is the operation at its endpoint, described and compiled. -/
def IsCompiled (settings : Settings) (context : Operation.Context) (paths : Json)
    (code : Method.Code) : Prop :=
  ∃ operation : Operation,
    Operation.at? paths code.method.endpoint = some operation.value ∧
    Operation.toMethod context operation code.method.name = .ok code.method ∧
    Method.compile settings.policy code.method = .ok code

/-- Writing a controller that comes to an end leaves the service of its operations, compiled. -/
theorem service_of_writeController {settings : Settings} {context : Operation.Context}
    {controller : String × List Operation}
    (h : (writeController settings context controller).outcome = .ok ()) :
    ∃ methods codes, Operation.toMethods context controller.2 = .ok methods ∧
      methods.mapM (Method.compile settings.policy) = .ok codes ∧
      (writeController settings context controller).files =
        Service.files settings ⟨controller.1, codes⟩ := by
  obtain ⟨name, operations⟩ := controller
  obtain ⟨methods, hmethods, h, hfiles⟩ := Writing.bind_outcome_ok h
  obtain ⟨codes, hcodes, h, hfiles'⟩ := Writing.bind_outcome_ok h
  refine ⟨methods, codes, hmethods, lift_eq_ok.mp hcodes, hfiles.trans ?_⟩
  rw [hfiles']
  simp only [Service.files]
  by_cases hstore : settings.store
  · rw [if_pos hstore, if_pos hstore]
    rfl
  · rw [if_neg hstore, if_neg hstore]
    rfl

/-- The methods that are compiled are those of the operations. -/
theorem methods_of_codes {policy : Method.Policy} {methods : List Method}
    {codes : List Method.Code}
    (hcodes : methods.mapM (Method.compile policy) = .ok codes) :
    codes.map (·.method) = methods := by
  rw [map_eq_of_forall₂ (f := id) (g := Method.Code.method)
    (fun _ _ hc => (Method.compiled_of_compile hc).described) (mapM_eq_ok.mp hcodes), List.map_id]

/-- The service of some operations has their endpoints. -/
theorem endpoints_of_codes {policy : Method.Policy} {context : Operation.Context}
    {operations : List Operation} {methods : List Method} {codes : List Method.Code}
    (hmethods : Operation.toMethods context operations = .ok methods)
    (hcodes : methods.mapM (Method.compile policy) = .ok codes) :
    codes.map (·.method.endpoint) = operations.map (·.endpoint) := by
  rw [← (Operation.toMethods_ok hmethods).1, ← methods_of_codes hcodes, List.map_map]
  rfl

/-- What `writeController` leaves when it comes to an end: one service, for the endpoints of its
operations. -/
theorem writeController_ok {settings : Settings} {context : Operation.Context}
    {controller : String × List Operation}
    (h : (writeController settings context controller).outcome = .ok ()) :
    ∃ service : Service, service.name = controller.1 ∧
      (writeController settings context controller).files = service.files settings ∧
      service.endpoints = controller.2.map (·.endpoint) ∧
      (service.methods.map (·.method.name)).Nodup ∧
      ∀ code ∈ service.methods, Method.compile settings.policy code.method = .ok code ∧
        ∃ operation ∈ controller.2,
          Operation.toMethod context operation code.method.name = .ok code.method := by
  obtain ⟨methods, codes, hmethods, hcodes, hfiles⟩ := service_of_writeController h
  obtain ⟨-, hnames, hmade⟩ := Operation.toMethods_ok hmethods
  refine ⟨⟨controller.1, codes⟩, rfl, hfiles, endpoints_of_codes hmethods hcodes, ?_, ?_⟩
  · rw [← methods_of_codes hcodes, List.map_map] at hnames
    exact hnames
  · intro code hcode
    obtain ⟨method, hmethod, hcompile⟩ := exists_of_forall₂_right (mapM_eq_ok.mp hcodes) hcode
    obtain rfl := (Method.compiled_of_compile hcompile).described
    exact ⟨hcompile, hmade _ hmethod⟩

/-- A set of paths that says nothing is the empty one; it has no endpoints either. -/
theorem endpointsOf_orElse (allowed : Method.AllowedLocations) (paths : Json) :
    Operation.endpointsOf allowed (paths.orElse (.object [])) =
      Operation.endpointsOf allowed paths := by
  unfold Json.orElse
  split
  · rename_i hblank
    cases paths with
    | object items =>
      rw [List.isEmpty_iff.mp hblank]
    | null | bool | int | double | string | array => rfl
  · rfl

/-- What `writeControllers` leaves when it comes to an end: a service for each controller under
which operations were gathered. -/
theorem writeControllers_ok {settings : Settings} {context : Operation.Context} {paths : Json}
    {names : List String} (h : (writeControllers settings context paths).outcome = .ok names) :
    ∃ (operations : List (String × Operation)) (services : List Service),
      Operation.ofPaths settings.policy.allowed (paths.orElse (.object [])) = .ok operations ∧
      names = services.map (·.name) ∧
      (writeControllers settings context paths).files =
        services.flatMap (·.files settings) ∧
      List.Forall₂ (fun (controller : String × List Operation) (service : Service) =>
        service.name = controller.1 ∧
        service.endpoints = controller.2.map (·.endpoint) ∧
        (service.methods.map (·.method.name)).Nodup ∧
        ∀ code ∈ service.methods, Method.compile settings.policy code.method = .ok code ∧
          ∃ operation ∈ controller.2,
            Operation.toMethod context operation code.method.name = .ok code.method)
        (gather (·.1) (·.2) operations) services := by
  obtain ⟨controllers, hcontrollers, h, hfiles⟩ := Writing.bind_outcome_ok h
  obtain ⟨⟨⟩, hwritten, h, hfiles'⟩ := Writing.bind_outcome_ok h
  obtain ⟨operations, hread, rfl⟩ := Operation.byController_ok (lift_eq_ok.mp hcontrollers)
  obtain ⟨hall, hforEach⟩ := Writing.forEach_outcome_ok hwritten
  obtain rfl := Except.ok.inj h
  -- each controller that is written is a service
  obtain ⟨services, hservices⟩ := exists_forall₂ fun controller hc =>
    writeController_ok (hall controller hc)
  refine ⟨operations, services, hread, ?_, ?_, ?_⟩
  · exact (map_eq_of_forall₂ (f := fun controller : String × List Operation => controller.1)
      (fun _ _ hs => hs.1) hservices).symm
  · have hparts := map_eq_of_forall₂
      (f := fun controller => (writeController settings context controller).files)
      (g := fun service : Service => service.files settings) (fun _ _ hs => hs.2.1.symm) hservices
    have hnothing : (writeControllers settings context paths).files =
        (Writing.forEach (writeController settings context)
          (gather (·.1) (·.2) operations)).files := by
      refine hfiles.trans ?_
      rw [hfiles']
      exact List.append_nil _
    rw [hnothing, hforEach, List.flatMap_def, List.flatMap_def, hparts]
  · exact hservices.imp fun controller service hs => ⟨hs.1, hs.2.2⟩

/-! ## No two files at one place -/

theorem append_right_injective (suffix : String) :
    Function.Injective fun name : String => name ++ suffix := by
  intro name name' h
  have := congrArg String.toList h
  simp only [String.toList_append] at this
  exact String.toList_injective (List.append_cancel_right this)

theorem actionsPath_injective (controller : String) :
    Function.Injective (Service.actionsPath controller) := by
  intro method method' h
  simp only [Service.actionsPath, List.cons.injEq, and_true, true_and] at h
  exact append_right_injective _ (append_right_injective _ h)

/-- Where the files of a service lie: one in the folder of the services, and the others in a folder
of its own. -/
theorem path_files (settings : Settings) (service : Service) :
    (service.files settings).map (·.path) =
      [Layout.controllers, service.name ++ Layout.extension] ::
        if settings.store then
          service.methods.map fun code => Service.actionsPath service.name code.method.name
        else [] := by
  unfold Service.files
  split
  · rw [List.map_cons, List.map_map]
    rfl
  · rfl

/-- A file of a service is its class, or lies in the folder that only its actions use. -/
theorem path_of_mem_files {settings : Settings} {service : Service} {path : List String}
    (h : path ∈ (service.files settings).map (·.path)) :
    path = [Layout.controllers, service.name ++ Layout.extension] ∨
      ∃ code ∈ service.methods, path = Service.actionsPath service.name code.method.name := by
  rw [path_files] at h
  rcases List.mem_cons.mp h with h | h
  · exact .inl h
  · split at h
    · obtain ⟨code, hcode, rfl⟩ := List.mem_map.mp h
      exact .inr ⟨code, hcode, rfl⟩
    · exact absurd h List.not_mem_nil

theorem nodup_path_files {settings : Settings} {service : Service}
    (hnames : (service.methods.map (·.method.name)).Nodup) :
    ((service.files settings).map (·.path)).Nodup := by
  rw [path_files]
  split
  · refine List.nodup_cons.mpr ⟨?_, ?_⟩
    · intro h
      obtain ⟨code, _, he⟩ := List.mem_map.mp h
      have hfolder : Layout.store = Layout.controllers := (List.cons.inj he).1
      exact absurd hfolder (by decide)
    · have := hnames.map (actionsPath_injective service.name)
      rwa [List.map_map] at this
  · exact List.nodup_singleton _

/-- **Services of different names share no file.** -/
theorem nodup_paths {settings : Settings} {services : List Service}
    (hservices : (services.map (·.name)).Nodup)
    (hmethods : ∀ service ∈ services, (service.methods.map (·.method.name)).Nodup) :
    ((services.flatMap (·.files settings)).map (·.path)).Nodup := by
  rw [List.map_flatMap]
  refine List.nodup_flatMap.mpr ⟨fun service hs => nodup_path_files (hmethods service hs), ?_⟩
  have hne : services.Pairwise fun s s' => s.name ≠ s'.name := List.pairwise_map.mp hservices
  refine hne.imp fun {s s'} hne path h h' => ?_
  rcases path_of_mem_files h with rfl | ⟨_, _, rfl⟩
  · rcases path_of_mem_files h' with he | ⟨_, _, he⟩
    · have := (List.cons.inj (List.cons.inj he).2).1
      exact hne (append_right_injective _ this)
    · exact absurd (List.cons.inj he).1 (by decide)
  · rcases path_of_mem_files h' with he | ⟨_, _, he⟩
    · exact absurd (List.cons.inj he).1 (by decide)
    · exact hne (List.cons.inj (List.cons.inj he).2).1

/-! ## Endpoints and services -/

/-- The endpoints of a controller's operations are those whose controller it is. -/
theorem endpoints_of_filter {operations : List (String × Operation)}
    {controllerOf : Endpoint → String} (hof : ∀ p ∈ operations, controllerOf p.2.endpoint = p.1)
    (controller : String) :
    ((operations.filter (·.1 = controller)).map (·.2)).map (·.endpoint) =
      (operations.map (·.2.endpoint)).filter (controllerOf · = controller) := by
  rw [List.filter_map, List.map_map]
  have hsame : operations.filter (·.1 = controller) =
      operations.filter ((fun e => decide (controllerOf e = controller)) ∘ (·.2.endpoint)) := by
    refine List.filter_congr fun p hp => ?_
    rw [Function.comp_apply, hof p hp]
  rw [hsame]
  rfl

/-- Endpoints that are split by controller come back once each. -/
theorem count_split {endpoints : List Endpoint} (hnd : endpoints.Nodup)
    (controllerOf : Endpoint → String) {e : Endpoint} (he : e ∈ endpoints) :
    ((endpoints.map controllerOf).eraseDups.flatMap fun controller =>
      endpoints.filter (controllerOf · = controller)).count e = 1 := by
  refine List.count_eq_one_of_mem ?_ ?_
  · refine List.nodup_flatMap.mpr ⟨fun _ _ => hnd.filter _, ?_⟩
    refine (nodup_eraseDups (endpoints.map controllerOf)).imp fun {c c'} hne e h h' => ?_
    have hc := of_decide_eq_true (List.mem_filter.mp h).2
    have hc' := of_decide_eq_true (List.mem_filter.mp h').2
    exact hne (hc.symm.trans hc')
  · refine List.mem_flatMap.mpr ⟨controllerOf e, ?_, ?_⟩
    · exact List.mem_eraseDups.mpr (List.mem_map.mpr ⟨e, he, rfl⟩)
    · exact List.mem_filter.mpr ⟨he, decide_eq_true rfl⟩

/--
What the services written for some paths should be.

`controllerOf` names the controller of each endpoint, and `actionsOf` says where the actions of the
method at an endpoint lie.
-/
structure ServedOnce (settings : Settings) (context : Operation.Context) (paths : Json)
    (names : List String) (files : List ClientFile) (controllerOf : Endpoint → String)
    (actionsOf : Endpoint → List String) (services : List Service) : Prop where
  /-- An endpoint belongs to the controller that its tags and its path name. -/
  controller : ∀ e ∈ Operation.endpointsOf settings.policy.allowed paths,
    Operation.IsControllerOf paths e (controllerOf e)
  /-- The files are those of the services and no others. -/
  written : files = services.flatMap (·.files settings)
  /-- The answer names the services in order. -/
  answered : names = services.map (·.name)
  /-- No two services have one name. -/
  distinct : names.Nodup
  /-- Controllers come in the order in which the document first needs them. -/
  ordered : names =
    ((Operation.endpointsOf settings.policy.allowed paths).map controllerOf).eraseDups
  /-- A method is the operation at its endpoint, compiled. -/
  compiled : ∀ service ∈ services, ∀ code ∈ service.methods,
    IsCompiled settings context paths code
  /-- A service has a method for each endpoint of its controller, in document order. -/
  methods : ∀ service ∈ services, service.endpoints =
    (Operation.endpointsOf settings.policy.allowed paths).filter (controllerOf · = service.name)
  /-- Each endpoint is served by one method of one service. -/
  once : ∀ e ∈ Operation.endpointsOf settings.policy.allowed paths,
    (services.flatMap (·.endpoints)).count e = 1
  /-- No place is written twice. -/
  apart : (files.map (·.path)).Nodup
  /-- The actions of a method lie under its controller and its name. -/
  placed : ∀ service ∈ services, ∀ code ∈ service.methods,
    actionsOf code.method.endpoint = Service.actionsPath service.name code.method.name
  /-- With a store, its files are in one-to-one correspondence with the endpoints. -/
  stored : settings.store = true → Set.BijOn actionsOf
    {e | e ∈ Operation.endpointsOf settings.policy.allowed paths}
    {path | path ∈ files.map (·.path) ∧ path.head? = some Layout.store}

/-- The places of the actions of some services, each with the endpoint it is for. -/
def actionsTable (services : List Service) : List (Endpoint × List String) :=
  services.flatMap fun service => service.methods.map fun code =>
    (code.method.endpoint, Service.actionsPath service.name code.method.name)

theorem keys_actionsTable (services : List Service) :
    (actionsTable services).map (·.1) = services.flatMap (·.endpoints) := by
  simp [actionsTable, List.map_flatMap, Service.endpoints, Function.comp_def]

/-- With a store, the places in the table are those of the files in the store's folder. -/
theorem mem_places_actionsTable {settings : Settings} {services : List Service}
    (hstore : settings.store = true) {path : List String} :
    path ∈ (actionsTable services).map (·.2) ↔
      path ∈ (services.flatMap (·.files settings)).map (·.path) ∧
        path.head? = some Layout.store := by
  rw [actionsTable, List.map_flatMap, List.map_flatMap, List.mem_flatMap, List.mem_flatMap]
  constructor
  · rintro ⟨service, hs, hpath⟩
    rw [List.map_map] at hpath
    obtain ⟨code, hcode, rfl⟩ := List.mem_map.mp hpath
    refine ⟨⟨service, hs, ?_⟩, rfl⟩
    rw [path_files, if_pos hstore]
    exact List.mem_cons_of_mem _ (List.mem_map.mpr ⟨code, hcode, rfl⟩)
  · rintro ⟨⟨service, hs, hpath⟩, hhead⟩
    refine ⟨service, hs, ?_⟩
    rcases path_of_mem_files hpath with rfl | ⟨code, hcode, rfl⟩
    · exact absurd (Option.some.inj hhead) (by decide)
    · rw [List.map_map]
      exact List.mem_map.mpr ⟨code, hcode, rfl⟩

/-- No place stands twice in the table, for it would be a file written twice. -/
theorem nodup_places_actionsTable {settings : Settings} {services : List Service}
    (hstore : settings.store = true)
    (hnd : ((services.flatMap (·.files settings)).map (·.path)).Nodup) :
    ((actionsTable services).map (·.2)).Nodup := by
  refine hnd.sublist ?_
  rw [actionsTable, List.map_flatMap, List.map_flatMap]
  refine List.Sublist.flatMap_right _ fun service _ => ?_
  rw [path_files, if_pos hstore, List.map_map]
  exact List.sublist_cons_self _ _

/-- The operations that services are written for are those at the endpoints of the paths. -/
theorem operations_of_paths {allowed : Method.AllowedLocations} {paths : Json}
    {operations : List (String × Operation)} (honce : paths.NamesOnce)
    (h : Operation.ofPaths allowed (paths.orElse (.object [])) = .ok operations) :
    operations.map (·.2.endpoint) = Operation.endpointsOf allowed paths ∧
      ∀ p ∈ operations, Operation.at? paths p.2.endpoint = some p.2.value ∧
        Operation.IsControllerOf paths p.2.endpoint p.1 := by
  have hendpoints := Operation.endpoint_ofPaths h
  refine ⟨endpointsOf_orElse allowed paths ▸ hendpoints, ?_⟩
  unfold Json.orElse at h hendpoints
  by_cases hblank : paths.isBlank
  · rw [if_pos hblank] at hendpoints
    have hnone : operations = [] := List.map_eq_nil_iff.mp hendpoints
    intro p hp
    rw [hnone] at hp
    exact absurd hp List.not_mem_nil
  · rw [if_neg hblank] at h
    exact Operation.isControllerOf_of_mem honce h

/-- The services are the groups of operations, so each serves what its group gathers. -/
theorem served_of_writeControllers {settings : Settings} {context : Operation.Context}
    {paths : Json} {names : List String} (honce : paths.NamesOnce)
    (h : (writeControllers settings context paths).outcome = .ok names) :
    ∃ (controllerOf : Endpoint → String) (services : List Service),
      (∀ e ∈ Operation.endpointsOf settings.policy.allowed paths,
        Operation.IsControllerOf paths e (controllerOf e)) ∧
      (writeControllers settings context paths).files = services.flatMap (·.files settings) ∧
      names = services.map (·.name) ∧
      names = ((Operation.endpointsOf settings.policy.allowed paths).map controllerOf).eraseDups ∧
      ∀ service ∈ services, service.endpoints =
          (Operation.endpointsOf settings.policy.allowed paths).filter
            (controllerOf · = service.name) ∧
        (service.methods.map (·.method.name)).Nodup ∧
        ∀ code ∈ service.methods, IsCompiled settings context paths code := by
  obtain ⟨operations, services, hread, hnames, hfiles, hservices⟩ := writeControllers_ok h
  obtain ⟨hendpoints, hat⟩ := operations_of_paths honce hread
  -- endpoints are distinct, so each has one controller
  have htable : ((operations.map fun p => (p.2.endpoint, p.1)).map (·.1)).Nodup := by
    rw [List.map_map]
    exact hendpoints ▸ Operation.nodup_endpointsOf _ honce
  obtain ⟨controllerOf, hof⟩ := exists_function_of_table htable
  have hof : ∀ p ∈ operations, controllerOf p.2.endpoint = p.1 := fun p hp =>
    hof _ (List.mem_map.mpr ⟨p, hp, rfl⟩)
  rw [← hendpoints]
  refine ⟨controllerOf, services, ?_, hfiles, hnames, ?_, ?_⟩
  · intro e he
    obtain ⟨p, hp, rfl⟩ := List.mem_map.mp he
    rw [hof p hp]
    exact (hat p hp).2
  · have hgroups :=
      map_eq_of_forall₂ (f := fun controller : String × List Operation => controller.1)
      (g := fun service : Service => service.name) (fun _ _ hs => hs.1) hservices
    have hkeys : operations.map (·.1) = (operations.map (·.2.endpoint)).map controllerOf := by
      rw [List.map_map]
      exact (List.map_congr_left hof).symm
    rw [hnames, hgroups, gather_eq, List.map_map, ← hkeys]
    exact List.map_id _
  · intro service hs
    obtain ⟨controller, hc, hname, hend, hdistinct, hmade⟩ := exists_of_forall₂_right hservices hs
    rw [gather_eq] at hc
    obtain ⟨key, _, rfl⟩ := List.mem_map.mp hc
    refine ⟨?_, hdistinct, fun code hcode => ?_⟩
    · rw [hend, hname, endpoints_of_filter hof]
    · obtain ⟨hcompile, operation, hoperation, hmake⟩ := hmade code hcode
      obtain ⟨p, hp, rfl⟩ := List.mem_map.mp hoperation
      refine ⟨p.2, ?_, hmake, hcompile⟩
      rw [(Operation.toMethod_ok hmake).1]
      exact (hat p (List.mem_filter.mp hp).1).1

/--
**Every endpoint is served once.**

Where services are written for some paths at all, each endpoint of a known verb is one method of
one service, services and methods come in document order, no file is written over another, and
the actions in the store correspond one to one to the endpoints.
-/
theorem servedOnce_of_writeControllers {settings : Settings} {context : Operation.Context}
    {paths : Json} {names : List String} (honce : paths.NamesOnce)
    (h : (writeControllers settings context paths).outcome = .ok names) :
    ∃ controllerOf actionsOf services, ServedOnce settings context paths names
      (writeControllers settings context paths).files controllerOf actionsOf services := by
  obtain ⟨controllerOf, services, hcontroller, hwritten, hanswered, hordered, hserved⟩ :=
    served_of_writeControllers honce h
  have hnd := Operation.nodup_endpointsOf settings.policy.allowed honce
  have hdistinct : names.Nodup := hordered ▸ nodup_eraseDups _
  have hapart : ((writeControllers settings context paths).files.map (·.path)).Nodup :=
    hwritten ▸ nodup_paths (hanswered ▸ hdistinct) fun service hs => (hserved service hs).2.1
  -- the endpoints of the services are a partition of all
  have hsplit : services.flatMap (·.endpoints) = names.flatMap fun controller =>
      (Operation.endpointsOf settings.policy.allowed paths).filter
        (controllerOf · = controller) := by
    rw [hanswered, List.flatMap_map]
    exact List.flatMap_congr fun service hs => (hserved service hs).1
  have honceServed : ∀ e ∈ Operation.endpointsOf settings.policy.allowed paths,
      (services.flatMap (·.endpoints)).count e = 1 := by
    intro e he
    rw [hsplit, hordered]
    exact count_split hnd controllerOf he
  have hsub : ∀ e ∈ services.flatMap (·.endpoints),
      e ∈ Operation.endpointsOf settings.policy.allowed paths := by
    intro e he
    obtain ⟨service, hs, he⟩ := List.mem_flatMap.mp he
    rw [(hserved service hs).1] at he
    exact (List.mem_filter.mp he).1
  -- so there is a table of the actions, one entry for each endpoint
  have hkeys : ((actionsTable services).map (·.1)).Nodup := by
    rw [keys_actionsTable]
    exact List.nodup_iff_count_eq_one.mpr fun e he => honceServed e (hsub e he)
  obtain ⟨actionsOf, hactions⟩ := exists_function_of_table hkeys
  refine ⟨controllerOf, actionsOf, services, hcontroller, hwritten, hanswered, hdistinct, hordered,
    fun service hs => (hserved service hs).2.2, fun service hs => (hserved service hs).1,
    honceServed, hapart, ?_, ?_⟩
  · intro service hs code hcode
    refine hactions (code.method.endpoint, _) (List.mem_flatMap.mpr ⟨service, hs, ?_⟩)
    exact List.mem_map.mpr ⟨code, hcode, rfl⟩
  · intro hstore
    have hplaces : ((services.flatMap (·.files settings)).map (·.path)).Nodup := hwritten ▸ hapart
    have hbij := bijOn_of_table hactions (nodup_places_actionsTable hstore hplaces)
    have hfrom : ∀ e, e ∈ (actionsTable services).map (·.1) ↔
        e ∈ Operation.endpointsOf settings.policy.allowed paths := by
      intro e
      rw [keys_actionsTable]
      refine ⟨hsub e, fun he => List.count_pos_iff.mp ?_⟩
      rw [honceServed e he]
      exact Nat.one_pos
    simp only [hfrom, mem_places_actionsTable hstore] at hbij
    rw [hwritten]
    exact hbij

/-- Paths whose tags come to one name, and whose methods would. -/
def petPaths : Json :=
  .object [
    ("/pets", .object [
      ("get", .object [("tags", .array [.string "pet"]), ("operationId", .string "find")]),
      ("parameters", .array []),
      ("post", .object [("tags", .array [.string "Pet"]), ("operationId", .string "find")])]),
    ("/store/\x7bid\x7d", .object [("delete", .object [])]),
    ("/pets/\x7bid\x7d", .object [
      ("get", .object [("tags", .array [.string "pet"]), ("operationId", .string "find2")])])]

theorem servedOnce_petPaths :
    ∃ controllerOf actionsOf services,
      ServedOnce ⟨"", true, standardPolicy true⟩ ⟨petPaths, "", ""⟩ petPaths ["Pet", "Store"]
        (writeControllers ⟨"", true, standardPolicy true⟩ ⟨petPaths, "", ""⟩ petPaths).files
        controllerOf actionsOf services :=
  servedOnce_of_writeControllers (by decide +kernel) (eq_ok_of_toOption (by decide +kernel))

end Client

end ApiClient
