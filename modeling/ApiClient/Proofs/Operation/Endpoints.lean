import ApiClient.Proofs.Gather
import ApiClient.Proofs.Json.Everywhere
import ApiClient.Proofs.Operation.Name
import ApiClient.Proofs.Outcome

/-!
# Operations and the endpoints they serve

A document describes an operation at a path and a verb, its endpoint. The endpoints of some paths
are known before anything is compiled, so they are the measure of what compiling may not lose:
gathering by controller rearranges them, and describing operations as methods keeps them.
-/

namespace ApiClient

/-- A path and a verb. -/
abbrev Endpoint := String × String

def Operation.endpoint (operation : Operation) : Endpoint := (operation.url, operation.verb)

def Method.endpoint (method : Method) : Endpoint := (method.url, method.verb)

namespace Operation

/-- The verbs at one path that the table of locations knows, in document order. -/
def verbsOf (allowed : Method.AllowedLocations) : Json → List String
  | .object members => (Json.names members).filter fun verb => (allowed.lookup verb).isSome
  | _ => []

/-- The endpoints of some paths, in document order. -/
def endpointsOf (allowed : Method.AllowedLocations) : Json → List Endpoint
  | .object items => items.flatMap fun item => (verbsOf allowed item.2).map (item.1, ·)
  | _ => []

/-- The operation that a document describes at an endpoint. -/
def at? (paths : Json) (endpoint : Endpoint) : Option Json :=
  match paths with
  | .object items =>
    match Json.lookup? endpoint.1 items with
    | some (.object members) => Json.lookup? endpoint.2 members
    | _ => none
  | _ => none

/-- The controller of an endpoint, by the tags of its operation and its path. -/
def IsControllerOf (paths : Json) (endpoint : Endpoint) (controller : String) : Prop :=
  ∃ operation tags, at? paths endpoint = some operation ∧ operation.member? "tags" = .ok tags ∧
    Controller.nameOf (tags.getD .null) endpoint.1 = .ok controller

/-! ## Endpoints are kept -/

/-- What is read at a verb: the operation, under the controller that its tags and path give. -/
theorem ofVerb_ok {url verb controller : String} {item value : Json} {operation : Operation}
    (h : ofVerb url item verb value = .ok (controller, operation)) :
    operation.endpoint = (url, verb) ∧ operation.value = value ∧
      ∃ tags, value.member? "tags" = .ok tags ∧
        Controller.nameOf (tags.getD .null) url = .ok controller := by
  unfold ofVerb at h
  obtain ⟨tags, htags, h⟩ := bind_eq_ok.mp h
  obtain ⟨name, hname, h⟩ := bind_eq_ok.mp h
  obtain ⟨_, _, h⟩ := bind_eq_ok.mp h
  obtain ⟨_, _, h⟩ := bind_eq_ok.mp h
  obtain ⟨_, _, h⟩ := bind_eq_ok.mp h
  obtain ⟨rfl, rfl⟩ := Prod.mk.inj (pure_eq_ok.mp h)
  exact ⟨rfl, rfl, tags, htags, hname⟩

/-- What is read at a path: an operation for each verb, in order. -/
theorem ofPath_ok {allowed : Method.AllowedLocations} {url : String} {item : Json}
    {operations : List (String × Operation)} (h : ofPath allowed url item = .ok operations) :
    operations.map (·.2.endpoint) = (verbsOf allowed item).map (url, ·) ∧
      ∃ members, item = .object members ∧ ∀ p ∈ operations,
        (p.2.verb, p.2.value) ∈ members ∧ p.2.url = url ∧
          ∃ tags, p.2.value.member? "tags" = .ok tags ∧
            Controller.nameOf (tags.getD .null) url = .ok p.1 := by
  unfold ofPath at h
  obtain ⟨members, hmembers, h⟩ := bind_eq_ok.mp h
  -- one operation is read for each verb of the item, in order
  have hread := mapM_eq_ok.mp h
  have hitem : item = .object members := by
    cases item with
    | object ms => exact congrArg _ (Except.ok.inj hmembers)
    | null | bool | int | double | string | array => cases hmembers
  refine ⟨?_, members, hitem, ?_⟩
  · have := map_eq_of_forall₂ (f := fun entry : String × Json => (url, entry.1))
      (g := fun p : String × Operation => p.2.endpoint)
      (fun entry p hp => (ofVerb_ok hp).1) hread
    rw [this, hitem, verbsOf, Json.names, List.filter_map, List.map_map]
    rfl
  · intro p hp
    obtain ⟨entry, hentry, hp⟩ := exists_of_forall₂_right hread hp
    obtain ⟨hend, hvalue, hname⟩ := ofVerb_ok hp
    obtain ⟨hurl, hverb⟩ := Prod.mk.inj hend
    refine ⟨?_, hurl, hvalue ▸ hname⟩
    rw [hverb, hvalue]
    exact (List.mem_filter.mp hentry).1

/-- What is read of some paths: an operation for each endpoint, in order. -/
theorem endpoint_ofPaths {allowed : Method.AllowedLocations} {paths : Json}
    {operations : List (String × Operation)} (h : ofPaths allowed paths = .ok operations) :
    operations.map (·.2.endpoint) = endpointsOf allowed paths := by
  unfold ofPaths at h
  obtain ⟨items, hitems, h⟩ := bind_eq_ok.mp h
  obtain ⟨perPath, hread, h⟩ := bind_eq_ok.mp h
  obtain rfl := pure_eq_ok.mp h
  have hpaths : paths = .object items := by
    cases paths with
    | object ms => exact congrArg _ (Except.ok.inj hitems)
    | null | bool | int | double | string | array => cases hitems
  have := map_eq_of_forall₂
    (f := fun item : String × Json => (verbsOf allowed item.2).map (item.1, ·))
    (g := fun operations : List (String × Operation) => operations.map (·.2.endpoint))
    (fun item operations (hp : ofPath allowed item.1 item.2 = .ok operations) => (ofPath_ok hp).1)
    (mapM_eq_ok.mp hread)
  rw [hpaths, endpointsOf, List.flatMap_def, ← this, List.map_flatten]

/-- Each operation of some paths is the one at its endpoint, under the controller of that. -/
theorem isControllerOf_of_mem {allowed : Method.AllowedLocations} {paths : Json}
    {operations : List (String × Operation)} (honce : paths.NamesOnce)
    (h : ofPaths allowed paths = .ok operations) :
    ∀ p ∈ operations, at? paths p.2.endpoint = some p.2.value ∧
      IsControllerOf paths p.2.endpoint p.1 := by
  intro p hp
  unfold ofPaths at h
  obtain ⟨items, hitems, h⟩ := bind_eq_ok.mp h
  obtain ⟨perPath, hread, h⟩ := bind_eq_ok.mp h
  obtain rfl := pure_eq_ok.mp h
  cases paths with
  | null | bool | int | double | string | array => cases hitems
  | object ms =>
    obtain rfl := Except.ok.inj hitems
    obtain ⟨found, hfound, hp⟩ := List.mem_flatten.mp hp
    obtain ⟨⟨url, item⟩, hitem, hofPath⟩ := exists_of_forall₂_right (mapM_eq_ok.mp hread) hfound
    obtain ⟨members, hmembers, hall⟩ := (ofPath_ok hofPath).2
    obtain ⟨hmem, hurl, tags, htags, hname⟩ := hall p hp
    subst hmembers
    obtain ⟨honceItems, honceInside⟩ := Json.everywhere_object.mp honce
    have honceMembers := (Json.everywhere_object.mp (honceInside _ hitem)).1
    -- no name stands twice in the document, so looking the endpoint up finds this very value
    have hat : at? (.object ms) p.2.endpoint = some p.2.value := by
      rw [at?, endpoint, hurl, Json.lookup?_of_mem honceItems hitem]
      exact Json.lookup?_of_mem honceMembers hmem
    exact ⟨hat, p.2.value, tags, hat, htags, by rw [endpoint, hurl]; exact hname⟩

/-- Where no name is repeated, no endpoint is. -/
theorem nodup_endpointsOf (allowed : Method.AllowedLocations) {paths : Json}
    (honce : paths.NamesOnce) : (endpointsOf allowed paths).Nodup := by
  cases paths with
  | null | bool | int | double | string | array => exact List.nodup_nil
  | object items =>
    obtain ⟨hitems, hinside⟩ := Json.everywhere_object.mp honce
    refine List.nodup_flatMap.mpr ⟨?_, ?_⟩
    · intro item hitem
      refine List.Nodup.map (fun _ _ h => (Prod.mk.inj h).2) ?_
      have hin := hinside item hitem
      cases hvalue : item.2 with
      | null | bool | int | double | string | array => exact List.nodup_nil
      | object members =>
        rw [hvalue] at hin
        exact (Json.everywhere_object.mp hin).1.filter _
    · -- endpoints of two items differ in the path
      have hne : items.Pairwise fun item item' => item.1 ≠ item'.1 := List.pairwise_map.mp hitems
      refine hne.imp fun {item item'} hne => ?_
      intro e he he'
      obtain ⟨_, _, rfl⟩ := List.mem_map.mp he
      obtain ⟨_, _, h⟩ := List.mem_map.mp he'
      exact hne (congrArg Prod.fst h).symm

/-! ## By controller -/

theorem addToController_eq (controller : String) (operation : Operation)
    (controllers : List (String × List Operation)) :
    addToController controller operation controllers =
      gatherOne controller operation controllers := by
  induction controllers with
  | nil => rfl
  | cons entry rest ih =>
    obtain ⟨name, operations⟩ := entry
    simp only [addToController, gatherOne]
    split
    · rfl
    · rw [ih]

/-- The controllers of some paths are their operations, gathered. -/
theorem byController_ok {allowed : Method.AllowedLocations} {paths : Json}
    {controllers : List (String × List Operation)}
    (h : byController allowed paths = .ok controllers) :
    ∃ operations, ofPaths allowed paths = .ok operations ∧
      controllers = gather (·.1) (·.2) operations := by
  unfold byController at h
  obtain ⟨operations, hread, h⟩ := bind_eq_ok.mp h
  refine ⟨operations, hread, ?_⟩
  rw [← pure_eq_ok.mp h, gather]
  simp only [addToController_eq]

/-! ## As methods -/

theorem toMethod_ok {context : Context} {operation : Operation} {name : String}
    {method : Method} (h : toMethod context operation name = .ok method) :
    method.endpoint = operation.endpoint ∧ method.name = name := by
  unfold toMethod at h
  obtain ⟨_, _, h⟩ := bind_eq_ok.mp h
  obtain ⟨_, _, h⟩ := bind_eq_ok.mp h
  obtain ⟨_, _, h⟩ := bind_eq_ok.mp h
  obtain ⟨_, _, h⟩ := bind_eq_ok.mp h
  obtain ⟨_, _, h⟩ := bind_eq_ok.mp h
  obtain ⟨_, _, h⟩ := bind_eq_ok.mp h
  rw [← pure_eq_ok.mp h]
  exact ⟨rfl, rfl⟩

/-- The methods of a controller serve the endpoints of its operations, in order and under names
that are pairwise distinct. -/
theorem toMethods_ok {context : Context} {operations : List Operation} {methods : List Method}
    (h : toMethods context operations = .ok methods) :
    methods.map (·.endpoint) = operations.map (·.endpoint) ∧ (methods.map (·.name)).Nodup ∧
      ∀ method ∈ methods, ∃ operation ∈ operations,
        toMethod context operation method.name = .ok method := by
  unfold toMethods at h
  obtain ⟨found, hfound, h⟩ := bind_eq_ok.mp h
  -- numbering keeps the length, so the pairing loses neither an operation nor a name
  have hlen : operations.length = (distinctNames found).length := by
    rw [length_distinctNames, (mapM_eq_ok.mp hfound).length_eq]
  have hread := mapM_eq_ok.mp h
  refine ⟨?_, ?_, ?_⟩
  · have := map_eq_of_forall₂ (f := fun p : Operation × String => p.1.endpoint)
      (g := fun method : Method => method.endpoint) (fun _ _ hp => (toMethod_ok hp).1) hread
    rw [this, ← Function.comp_def, ← List.map_map, List.map_fst_zip (Nat.le_of_eq hlen)]
  · have := map_eq_of_forall₂ (f := fun p : Operation × String => p.2)
      (g := fun method : Method => method.name) (fun _ _ hp => (toMethod_ok hp).2) hread
    have hzip : (operations.zip (distinctNames found)).map (·.2) = distinctNames found :=
      List.map_snd_zip (Nat.le_of_eq hlen.symm)
    rw [this, hzip]
    exact nodup_distinctNames found
  · intro method hmethod
    obtain ⟨⟨operation, name⟩, hp, hmake⟩ := exists_of_forall₂_right hread hmethod
    have hname : method.name = name := (toMethod_ok hmake).2
    exact ⟨operation, (List.of_mem_zip hp).1, hname ▸ hmake⟩

end Operation

end ApiClient
