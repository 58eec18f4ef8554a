import ApiClient.Proofs.Client.Paths
import ApiClient.Proofs.Text.Lines

/-!
# Tags of actions

A store tells actions apart by their tags, so a tag that two actions share would let one of them
do the work of the other. A tag is put together from a controller, a method and a kind, with a
blank between the first two and a bracket behind the second. Neither name has such a mark in it,
so the three can be read off again; and within one client no two controllers have one name, nor
have two methods of one controller.
-/

namespace ApiClient

namespace Controller.Actions

/-- The controller, the method and the kind can be read off a tag. -/
theorem eq_of_tag_eq {controller controller' method method' kind kind' : String}
    (hcontroller : IsWord controller) (hcontroller' : IsWord controller')
    (hmethod : Operation.IsPlain method) (hmethod' : Operation.IsPlain method')
    (h : tag controller method kind = tag controller' method' kind') :
    controller = controller' ∧ method = method' ∧ kind = kind' := by
  have hblank : ∀ {name : String}, IsWord name → ' ' ∉ name.toList := fun hword hmem =>
    absurd (hword.2 _ hmem) (by decide)
  have hbracket : ∀ {name : String}, Operation.IsPlain name → ']' ∉ name.toList :=
    fun hplain hmem =>
    absurd (hplain _ hmem) (by decide)
  have hchars := congrArg String.toList h
  simp only [tag, String.toList_append, List.append_assoc] at hchars
  have hinside := List.append_cancel_left hchars
  obtain ⟨hname, hrest⟩ :=
    Text.eq_of_append_cons_eq (hblank hcontroller) (hblank hcontroller') hinside
  obtain ⟨hname', hrest'⟩ := Text.eq_of_append_cons_eq (hbracket hmethod) (hbracket hmethod') hrest
  exact ⟨String.toList_injective hname, String.toList_injective hname',
    String.toList_injective (List.cons.inj hrest').2⟩

/-- The tags of a method stand in the text of its actions, each as the value of its kind. -/
theorem contains_tag (controller : String) (code : Method.Code) : ∀ kind ∈ kinds,
    Text.contains (text controller code)
      ("  " ++ kind.1 ++ " = '" ++ tag controller code.method.name kind.2 ++ "',\n") = true := by
  have hkinds :
      Text.contains (text controller code) (kindsText controller code.method.name) = true := by
    unfold text
    iterate 10 apply Text.contains_append_left
    exact Text.contains_append_right (Text.contains_self _)
  intro kind hkind
  refine Text.contains_trans hkinds ?_
  unfold kindsText
  dsimp only
  exact Text.contains_append_left
    (Text.contains_append_right (Text.contains_join (List.mem_map_of_mem hkind)))

end Controller.Actions

namespace Client

/-- Writing a controller fails before it leaves a file, if it fails. -/
theorem writeController_ok_or_empty (settings : Settings) (context : Operation.Context)
    (controller : String × List Operation) :
    (writeController settings context controller).outcome = .ok () ∨
      (writeController settings context controller).files = [] := by
  -- both steps that can fail come before the first file
  refine Writing.ok_or_empty_bind rfl fun methods =>
    Writing.ok_or_empty_bind rfl fun codes => .inl ?_
  by_cases hstore : settings.store
  · rw [if_pos hstore]
    rfl
  · rw [if_neg hstore]
    rfl

/-- **What is written for some paths are the files of services of different names,** whether or
not the writing comes to an end. -/
theorem exists_services (settings : Settings) (context : Operation.Context) (paths : Json) :
    ∃ services : List Service, (∀ service ∈ services, service.IsOf settings context paths) ∧
      (services.map (·.name)).Nodup ∧
      (writeControllers settings context paths).files = services.flatMap (·.files settings) := by
  unfold writeControllers
  cases hcontrollers : Operation.byController settings.policy.allowed
      (paths.orElse (.object [])) with
  | error misuse => exact ⟨[], by simp, List.nodup_nil, rfl⟩
  | ok controllers =>
    have hwrites : ∀ controller ∈ controllers, _ := fun controller _ =>
      writeController_ok_or_empty settings context controller
    -- the controllers that were written in full come first, and nothing is written of the others
    obtain ⟨finished, hfront, hall, hfiles⟩ := Writing.exists_prefix_forEach hwrites
    have hservice : ∀ controller ∈ finished, ∃ service : Service, service.name = controller.1 ∧
        service.IsOf settings context paths ∧
        service.files settings = (writeController settings context controller).files := by
      intro controller hcontroller
      obtain ⟨methods, codes, hmethods, hcodes, hwritten⟩ :=
        service_of_writeController (hall controller hcontroller)
      exact ⟨⟨controller.1, codes⟩, rfl, ⟨controllers, controller.2, methods, hcontrollers,
        hfront.subset hcontroller, hmethods, hcodes⟩, hwritten.symm⟩
    obtain ⟨services, hservices⟩ := exists_forall₂ hservice
    refine ⟨services, ?_, ?_, ?_⟩
    · intro service hservice
      obtain ⟨_, -, -, hof, -⟩ := exists_of_forall₂_right hservices hservice
      exact hof
    · obtain ⟨operations, -, rfl⟩ := Operation.byController_ok hcontrollers
      rw [map_eq_of_forall₂ (f := fun controller : String × List Operation => controller.1)
        (fun _ _ hs => hs.1) hservices]
      exact (nodup_keys_gather _ _ _).sublist (hfront.sublist.map _)
    · have hparts := map_eq_of_forall₂
        (f := fun controller => (writeController settings context controller).files)
        (g := fun service : Service => service.files settings) (fun _ _ hs => hs.2.2) hservices
      rw [List.flatMap_def, hparts, ← List.flatMap_def, ← hfiles]
      exact Writing.files_bind_pure _ _

end Client

namespace Service

/-- The tags of all actions of a service. -/
def tags (service : Service) : List String :=
  service.methods.flatMap fun code => Controller.Actions.kinds.map fun kind =>
    Controller.Actions.tag service.name code.method.name kind.2

/-- What the names are like that the tags of a service are made of. -/
structure NamesTell (service : Service) : Prop where
  controller : Controller.IsWord service.name
  methods : ∀ code ∈ service.methods, Operation.IsPlain code.method.name
  distinct : (service.methods.map (·.method.name)).Nodup

theorem namesTell_of_isOf {settings : Settings} {context : Operation.Context} {paths : Json}
    {service : Service} (h : service.IsOf settings context paths) : service.NamesTell := by
  obtain ⟨controllers, operations, methods, hcontrollers, hmem, hmethods, hcodes⟩ := h
  obtain ⟨hnames, -⟩ := Method.codes_of_toMethods hmethods hcodes
  obtain ⟨hplain, hnd⟩ := Operation.plain_of_namesOf hnames
  exact ⟨Operation.isWord_of_byController hcontrollers _ hmem, List.forall_mem_map.mp hplain, hnd⟩

/-- What a tag of a service tells: its controller, one of its methods, and a kind. -/
theorem mem_tags {service : Service} {tag : String} : tag ∈ service.tags ↔
    ∃ code ∈ service.methods, ∃ kind ∈ Controller.Actions.kinds,
      Controller.Actions.tag service.name code.method.name kind.2 = tag := by
  simp only [tags, List.mem_flatMap, List.mem_map]

/-- Within one service methods and kinds tell tags apart. -/
theorem nodup_tags {service : Service} (h : service.NamesTell) : service.tags.Nodup := by
  obtain ⟨hcontroller, hplain, hdistinct⟩ := h
  refine List.nodup_flatMap.mpr ⟨fun code hcode => ?_, ?_⟩
  · have hkinds : Controller.Actions.kinds.Nodup := by decide
    refine hkinds.map_on fun kind hkind kind' hkind' he => ?_
    obtain ⟨-, -, hword⟩ := Controller.Actions.eq_of_tag_eq hcontroller hcontroller
      (hplain code hcode) (hplain code hcode) he
    exact List.inj_on_of_nodup_map (f := Prod.snd) (by decide) hkind hkind' hword
  · refine (List.pairwise_map.mp hdistinct).imp_of_mem fun {code code'} hcode hcode' hne => ?_
    intro tag htag htag'
    obtain ⟨kind, -, rfl⟩ := List.mem_map.mp htag
    obtain ⟨kind', -, he⟩ := List.mem_map.mp htag'
    obtain ⟨-, hname, -⟩ := Controller.Actions.eq_of_tag_eq hcontroller hcontroller
      (hplain code' hcode') (hplain code hcode) he
    exact hne hname.symm

/--
**No two actions share a tag.** Whatever some paths say, the files that are written for them are
those of services, the actions of a method hold its tags, and among the tags of all methods of
all services none stands twice.
-/
theorem tagsApart_writeControllers (settings : Settings) (context : Operation.Context)
    (paths : Json) : ∃ services : List Service,
      (Client.writeControllers settings context paths).files =
        services.flatMap (·.files settings) ∧
      (∀ service ∈ services, ∀ code ∈ service.methods, ∀ kind ∈ Controller.Actions.kinds,
        Text.contains (Controller.Actions.text service.name code) ("  " ++ kind.1 ++ " = '" ++
          Controller.Actions.tag service.name code.method.name kind.2 ++ "',\n") = true) ∧
      (services.flatMap tags).Nodup := by
  obtain ⟨services, hof, hnames, hfiles⟩ := Client.exists_services settings context paths
  refine ⟨services, hfiles, fun service _ code _ =>
    Controller.Actions.contains_tag service.name code, ?_⟩
  have htell : ∀ service ∈ services, service.NamesTell := fun service hservice =>
    namesTell_of_isOf (hof service hservice)
  refine List.nodup_flatMap.mpr ⟨fun service hservice => nodup_tags (htell service hservice), ?_⟩
  -- a tag tells the controller, so tags of two services differ
  refine (List.pairwise_map.mp hnames).imp_of_mem fun {service service'} hs hs' hne => ?_
  intro tag htag htag'
  obtain ⟨code, hcode, kind, -, rfl⟩ := mem_tags.mp htag
  obtain ⟨code', hcode', kind', -, he⟩ := mem_tags.mp htag'
  obtain ⟨hname, -, -⟩ := Controller.Actions.eq_of_tag_eq (htell service' hs').controller
    (htell service hs).controller ((htell service' hs').methods code' hcode')
    ((htell service hs).methods code hcode) he
  exact hne hname.symm

end Service

end ApiClient
