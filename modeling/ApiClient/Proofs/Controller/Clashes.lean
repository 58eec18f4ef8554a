import ApiClient.Proofs.Controller.Members

/-!
# Names that a file binds itself

The file of a service has members and imports of its own, and so has the file of a method's
actions. What a method is called is settled without a look at them. A name that is made of a
simple name ends in a word of its own, so that it can be one of theirs in few ways: a method can
be called as a member that every class has, its parameters can be called as those of a request,
and its response as an error.
-/

namespace ApiClient

namespace Controller

/-- The members of every class, each with the text that makes it one. -/
def ownMembers : List (String × String) :=
  [("constructor", "  constructor("), ("http", "(private http: HttpClient)")]

/-- The names that the file of a service can import. -/
def importable : List String :=
  ["HttpClient", "HttpHeaders", "HttpParams", "Injectable", "Observable"]

/-- The names that the file of a service imports. -/
def importedNames (methods : List Method.Code) : List String :=
  httpImports methods ++ ["Injectable", "Observable"]

theorem importable_of_imported {methods : List Method.Code} :
    ∀ name ∈ importedNames methods, name ∈ importable := by
  have hall : ∀ header query : Bool, ∀ name ∈ (["HttpClient"] ++
      (if header then ["HttpHeaders"] else []) ++ (if query then ["HttpParams"] else [])) ++
      ["Injectable", "Observable"], name ∈ importable := by decide
  exact hall _ _

/-- The members of every class stand in the text of a service. -/
theorem contains_ownMember (name : String) (methods : List Method.Code) :
    ∀ member ∈ ownMembers, Text.contains (text name methods) member.2 = true := by
  have hline : Text.contains (text name methods)
      "  constructor(private http: HttpClient) \x7b\x7d\n" = true := by
    unfold text
    iterate 3 apply Text.contains_append_left
    exact Text.contains_append_right (Text.contains_self _)
  intro member hmember
  refine Text.contains_trans hline ?_
  revert member
  decide

namespace Actions

/-- The names that every file of actions binds, each with the text that binds it. -/
def bindings : List (String × String) :=
  [("HttpErrorResponse", "import \x7bHttpErrorResponse\x7d from "),
    ("Action", "import \x7bAction\x7d from "),
    ("ActionWithPayload", "import \x7bActionWithPayload\x7d from "),
    ("Actions", "export enum Actions "), ("Start", "export class Start "),
    ("Success", "export class Success "), ("Error", "export class Error ")]

/-- The type of all actions of a method. -/
def unionName (method : String) : String := Text.upperFirst method ++ "Action"

/-- The types in the file of a method's actions that are named for the method. -/
def typeNames (code : Method.Code) : List String :=
  controllerImports code ++ [unionName code.method.name]

/-- What is imported from the service are the parameters of the method, or its
response if it declares one. -/
theorem mem_controllerImports {code : Method.Code} {type : String}
    (h : type ∈ controllerImports code) : type = Method.interfaceName code.method.name ∨
      code.method.response.declaration.isSome ∧ type = code.method.response.type := by
  unfold controllerImports at h
  rcases List.mem_append.mp h with h | h
  · unfold exportedInterface at h
    dsimp only at h
    split at h
    · exact .inl (List.mem_singleton.mp h)
    · exact absurd h List.not_mem_nil
  · split at h
    · rename_i hdeclared
      exact .inr ⟨hdeclared, List.mem_singleton.mp h⟩
    · exact absurd h List.not_mem_nil

/-- The types are the parameters of the method, its response if it
declares one, and its actions. -/
theorem mem_typeNames {code : Method.Code} {type : String} (h : type ∈ typeNames code) :
    type = Method.interfaceName code.method.name ∨
      code.method.response.declaration.isSome ∧ type = code.method.response.type ∨
        type = unionName code.method.name := by
  rcases List.mem_append.mp h with h | h
  · exact (mem_controllerImports h).imp_right .inl
  · exact .inr (.inr (List.mem_singleton.mp h))

theorem contains_class (kind : String × String) (payload : Option String) :
    Text.contains (classText kind payload)
      ("export class " ++ kind.2 ++ " implements ") = true := by
  unfold classText
  dsimp only
  iterate 7 apply Text.contains_append_left
  exact Text.contains_self _

/-- The names that every file of actions binds are bound in its text. -/
theorem contains_binding (controller : String) (code : Method.Code) :
    ∀ binding ∈ bindings, Text.contains (text controller code) binding.2 = true := by
  -- the first three are imported, the others declared further down
  have himports : ∀ binding ∈ bindings.take 3,
      Text.contains (text controller code) binding.2 = true := by
    intro binding hbinding
    unfold text
    iterate 12 apply Text.contains_append_left
    unfold imports
    simp only [bindings, List.take, List.mem_cons, List.not_mem_nil, or_false] at hbinding
    rcases hbinding with rfl | rfl | rfl
    · iterate 5 apply Text.contains_append_left
      decide +kernel
    · iterate 4 apply Text.contains_append_left
      exact Text.contains_append_right (by decide +kernel)
    · iterate 2 apply Text.contains_append_left
      exact Text.contains_append_right (by decide +kernel)
  have hdeclared : ∀ binding ∈ bindings.drop 3,
      Text.contains (text controller code) binding.2 = true := by
    intro binding hbinding
    unfold text
    simp only [bindings, List.drop, List.mem_cons, List.not_mem_nil, or_false] at hbinding
    rcases hbinding with rfl | rfl | rfl | rfl
    · iterate 10 apply Text.contains_append_left
      refine Text.contains_append_right ?_
      unfold kindsText
      iterate 2 apply Text.contains_append_left
      decide +kernel
    · iterate 8 apply Text.contains_append_left
      exact Text.contains_append_right
        (Text.contains_trans (contains_class _ _) (by decide +kernel))
    · iterate 6 apply Text.contains_append_left
      exact Text.contains_append_right
        (Text.contains_trans (contains_class _ _) (by decide +kernel))
    · iterate 4 apply Text.contains_append_left
      exact Text.contains_append_right
        (Text.contains_trans (contains_class _ _) (by decide +kernel))
  intro binding hbinding
  rw [← List.take_append_drop 3 bindings] at hbinding
  exact (List.mem_append.mp hbinding).elim (himports binding) (hdeclared binding)

end Actions

end Controller

namespace Operation

/-- What ends in a word is found among the names that end in it. -/
theorem mem_endings (ending : List String) {front suffix : String} {names : List String}
    (hending : names.filter (fun name => suffix.toList.isSuffixOf name.toList) = ending)
    (h : front ++ suffix ∈ names) : front ++ suffix ∈ ending := by
  refine hending ▸ List.mem_filter.mpr ⟨h, ?_⟩
  rw [List.isSuffixOf_iff_suffix, String.toList_append]
  exact List.suffix_append _ _

theorem variantName_not_own (name : String) :
    Method.variantName name ∉ Controller.ownMembers.map (·.1) := fun h =>
  absurd (mem_endings [] (by decide) h) List.not_mem_nil

theorem enumerationName_not_importable (name : String) :
    Response.enumerationName name ∉ Controller.importable := by
  rw [Response.enumerationName_eq]
  exact fun h => absurd (mem_endings [] (by decide) h) List.not_mem_nil

theorem interfaceName_not_bound (name : String) :
    Method.interfaceName name ∉ Controller.Actions.bindings.map (·.1) := by
  rw [Method.interfaceName_eq]
  exact fun h => absurd (mem_endings [] (by decide) h) List.not_mem_nil

section

variable {name : String} (h : IsSimple name.toList)

include h

/-- A simple name can be told from what is made of it. -/
theorem eq_of_upperFirst {other suffix : String} (hother : IsSimple other.toList)
    (he : Text.upperFirst name ++ suffix = Text.upperFirst other ++ suffix) : name = other :=
  Text.upperFirst_injOn h.head hother.head (Client.append_right_injective suffix he)

/-- Parameters are called as those of a request if the method is called `http`. -/
theorem interfaceName_importable_iff :
    Method.interfaceName name ∈ Controller.importable ↔ name = "http" := by
  have hhttp : IsSimple ['h', 't', 't', 'p'] :=
    .plain (by decide) (List.all_eq_true.mp (by decide))
  rw [Method.interfaceName_eq]
  constructor
  · intro hmem
    have hends := mem_endings ["HttpParams"] (by decide) hmem
    exact eq_of_upperFirst h hhttp ((List.mem_singleton.mp hends).trans (by rfl))
  · rintro rfl
    decide

/-- A response is called as an error of a request if the method is called `httpError`. -/
theorem enumerationName_bound_iff :
    Response.enumerationName name ∈ Controller.Actions.bindings.map (·.1) ↔
      name = "httpError" := by
  have herror : IsSimple ['h', 't', 't', 'p', 'E', 'r', 'r', 'o', 'r'] :=
    .plain (by decide) (List.all_eq_true.mp (by decide))
  rw [Response.enumerationName_eq]
  constructor
  · intro hmem
    have hends := mem_endings ["HttpErrorResponse"] (by decide) hmem
    exact eq_of_upperFirst h herror ((List.mem_singleton.mp hends).trans (by rfl))
  · rintro rfl
    decide

/-- A name has something to put in front of `Action`. -/
theorem unionName_not_bound :
    Controller.Actions.unionName name ∉ Controller.Actions.bindings.map (·.1) := by
  intro hmem
  have hends := mem_endings ["" ++ "Action"] (by decide) hmem
  have hempty := Client.append_right_injective "Action" (List.mem_singleton.mp hends)
  -- the only one that ends in `Action` is the word itself, before which there is nothing
  obtain ⟨c, rest, hname, hascii, -⟩ := h.head
  have hchars := congrArg String.toList hempty
  simp [Text.upperFirst, hname, Text.upperFirstChars, Text.uppercase_of_lt hascii] at hchars

end

/-- Operations are gathered at the verbs of the table only. -/
theorem verb_of_byController {allowed : Method.AllowedLocations} {paths : Json}
    {controllers : List (String × List Operation)}
    (h : byController allowed paths = .ok controllers)
    {controller : String × List Operation} (hcontroller : controller ∈ controllers) :
    ∀ operation ∈ controller.2, (allowed.lookup operation.verb).isSome := by
  intro operation hoperation
  obtain ⟨operations, hread, rfl⟩ := byController_ok h
  rw [gather_eq] at hcontroller
  obtain ⟨_, -, rfl⟩ := List.mem_map.mp hcontroller
  obtain ⟨p, hp, rfl⟩ := List.mem_map.mp hoperation
  -- operations are collected for the verbs of the table
  have hmem : p.2.endpoint ∈ endpointsOf allowed paths :=
    endpoint_ofPaths hread ▸ List.mem_map_of_mem (List.mem_filter.mp hp).1
  unfold endpointsOf at hmem
  split at hmem
  · obtain ⟨item, -, hmem⟩ := List.mem_flatMap.mp hmem
    obtain ⟨verb, hverb, he⟩ := List.mem_map.mp hmem
    obtain rfl : verb = p.2.verb := (Prod.mk.inj he).2
    unfold verbsOf at hverb
    split at hverb
    · exact (List.mem_filter.mp hverb).2
    · exact absurd hverb List.not_mem_nil
  · exact absurd hmem List.not_mem_nil

end Operation

namespace Service

/-- A service of some paths: the operations of one controller, described and compiled. -/
def IsOf (settings : Settings) (context : Operation.Context) (paths : Json) (service : Service) :
    Prop :=
  ∃ controllers operations methods,
    Operation.byController settings.policy.allowed (paths.orElse (.object [])) = .ok controllers ∧
    (service.name, operations) ∈ controllers ∧
    Operation.toMethods context operations = .ok methods ∧
    methods.mapM (Method.compile settings.policy) = .ok service.methods

/-- What is written for some paths, whether or not the writing comes to an end, are files of their
services. -/
theorem isOf_of_mem_files {settings : Settings} {context : Operation.Context} {paths : Json}
    {file : ClientFile} (h : file ∈ (Client.writeControllers settings context paths).files) :
    ∃ service : Service, service.IsOf settings context paths ∧ file ∈ service.files settings := by
  -- the writing may stop at any step, and a file that is left comes from a step before that
  rcases Writing.mem_files_bind h with h | ⟨controllers, hcontrollers, h⟩
  · exact absurd h List.not_mem_nil
  rcases Writing.mem_files_bind h with h | ⟨_, -, h⟩
  · obtain ⟨⟨name, operations⟩, hmem, h⟩ := Writing.mem_files_forEach h
    rcases Writing.mem_files_bind h with h | ⟨methods, hmethods, h⟩
    · exact absurd h List.not_mem_nil
    rcases Writing.mem_files_bind h with h | ⟨codes, hcodes, h⟩
    · exact absurd h List.not_mem_nil
    refine ⟨⟨name, codes⟩, ⟨controllers, operations, methods, lift_eq_ok.mp hcontrollers, hmem,
      hmethods, lift_eq_ok.mp hcodes⟩, ?_⟩
    rcases Writing.mem_files_bind h with h | ⟨_, -, h⟩
    · obtain rfl := List.mem_singleton.mp h
      exact List.mem_cons_self
    · unfold files
      by_cases hstore : settings.store
      · rw [if_pos hstore] at h ⊢
        exact List.mem_cons_of_mem _ h
      · rw [if_neg hstore] at h
        exact absurd h List.not_mem_nil
  · exact absurd h List.not_mem_nil

/-- What the files of a service bind themselves stands in their texts. -/
structure BindsOwn (service : Service) : Prop where
  members : ∀ member ∈ Controller.ownMembers,
    Text.contains (Controller.text service.name service.methods) member.2 = true
  imports : ∀ name ∈ Controller.importedNames service.methods, name ∈ Controller.importable
  actions : ∀ code ∈ service.methods, ∀ binding ∈ Controller.Actions.bindings,
    Text.contains (Controller.Actions.text service.name code) binding.2 = true

theorem bindsOwn (service : Service) : service.BindsOwn :=
  ⟨Controller.contains_ownMember service.name service.methods, Controller.importable_of_imported,
    fun code _ => Controller.Actions.contains_binding service.name code⟩

/-- No name that is made for a method is one that its file binds itself. -/
structure ClashFree (service : Service) : Prop where
  members : ∀ code ∈ service.methods, ∀ name ∈ code.memberNames,
    name ∉ Controller.ownMembers.map (·.1)
  types : ∀ code ∈ service.methods, ∀ type ∈ code.typeNames, type ∉ Controller.importable
  actions : ∀ code ∈ service.methods, ∀ type ∈ Controller.Actions.typeNames code,
    type ∉ Controller.Actions.bindings.map (·.1)

/-- A method is called as a member of every class, or has a response that is called as an error. -/
def Clashes (code : Method.Code) : Prop :=
  code.method.name ∈ ["constructor", "http"] ∨
    code.method.name = "httpError" ∧ code.method.response.declaration.isSome

/-- The response that a method declares is named for it. -/
theorem type_of_declared {code : Method.Code} {responses : Json}
    (hresponse : Response.ofResponses responses code.method.name = .ok code.method.response)
    (hdeclared : code.method.response.declaration.isSome) :
    code.method.response.type = Response.enumerationName code.method.name := by
  obtain ⟨declaration, hdeclared⟩ := Option.isSome_iff_exists.mp hdeclared
  exact (Response.declared_of_ofResponses hresponse hdeclared).1

theorem clashFree_iff_of_codes {service : Service}
    (hsimple : ∀ code ∈ service.methods, Operation.IsSimple code.method.name.toList)
    (hmade : ∀ code ∈ service.methods, code.declared.name = Method.interfaceName code.method.name ∧
      ∃ responses, Response.ofResponses responses code.method.name = .ok code.method.response) :
    service.ClashFree ↔ ∀ code ∈ service.methods, ¬ Clashes code := by
  constructor
  · rintro ⟨hmembers, -, hactions⟩ code hcode (hown | ⟨herror, hdeclared⟩)
    · exact hmembers code hcode _ List.mem_cons_self hown
    · obtain ⟨responses, hresponse⟩ := (hmade code hcode).2
      refine hactions code hcode code.method.response.type ?_ ?_
      · unfold Controller.Actions.typeNames Controller.Actions.controllerImports
        rw [if_pos hdeclared]
        simp
      · rw [type_of_declared hresponse hdeclared]
        exact (Operation.enumerationName_bound_iff (hsimple code hcode)).mpr herror
  · -- apart from the two clashes, every name has a suffix or a capital that sets it apart
    intro hnone
    constructor
    case members =>
      intro code hcode name hname
      obtain rfl | ⟨-, rfl⟩ := Method.Code.mem_memberNames.mp hname
      · exact fun hown => hnone code hcode (.inl hown)
      · exact Operation.variantName_not_own _
    case types =>
      intro code hcode type htype
      obtain ⟨hnamed, responses, hresponse⟩ := hmade code hcode
      obtain ⟨-, rfl⟩ | ⟨hdeclared, rfl⟩ := Method.Code.mem_typeNames.mp htype
      · rw [hnamed, Operation.interfaceName_importable_iff (hsimple code hcode)]
        exact fun hhttp => hnone code hcode (.inl (by simp [hhttp]))
      · rw [type_of_declared hresponse hdeclared]
        exact Operation.enumerationName_not_importable _
    case actions =>
      intro code hcode type htype
      obtain ⟨-, responses, hresponse⟩ := hmade code hcode
      obtain rfl | ⟨hdeclared, rfl⟩ | rfl := Controller.Actions.mem_typeNames htype
      · exact Operation.interfaceName_not_bound _
      · rw [type_of_declared hresponse hdeclared,
          Operation.enumerationName_bound_iff (hsimple code hcode)]
        exact fun herror => hnone code hcode (.inr ⟨herror, hdeclared⟩)
      · exact Operation.unionName_not_bound (hsimple code hcode)

/--
**When a method takes a name that its file binds itself.** Every file that is written
for some paths is of a service of theirs, and the files of a service are free of clashes
just if no method is called `constructor` or `http`, and none of those that declare a
response is called `httpError`.
-/
theorem clashFree_iff {header : String} {store unwrap : Bool} {context : Operation.Context}
    {paths : Json} :
    (∀ file ∈ (Client.writeControllers ⟨header, store, standardPolicy unwrap⟩ context paths).files,
      ∃ service : Service, service.IsOf ⟨header, store, standardPolicy unwrap⟩ context paths ∧
        file ∈ service.files ⟨header, store, standardPolicy unwrap⟩) ∧
    ∀ service : Service, service.IsOf ⟨header, store, standardPolicy unwrap⟩ context paths →
      service.BindsOwn ∧ (service.ClashFree ↔ ∀ code ∈ service.methods, ¬ Clashes code) := by
  refine ⟨fun file hfile => isOf_of_mem_files hfile, fun service hservice =>
    ⟨service.bindsOwn, ?_⟩⟩
  obtain ⟨controllers, operations, methods, hcontrollers, hmem, hmethods, hcodes⟩ := hservice
  obtain ⟨hnames, hmade⟩ := Method.codes_of_toMethods hmethods hcodes
  have hverb := Operation.verb_of_byController hcontrollers hmem
  obtain ⟨hsimple, -⟩ := Operation.simple_of_namesOf hverb hnames
  have hsimple := List.forall_mem_map.mp hsimple
  exact clashFree_iff_of_codes hsimple hmade

/-- An operation that is called as the constructor of a class. -/
def constructorOperation : Operation where
  url := "/pets"
  verb := "get"
  value := .object [("operationId", .string "constructor")]
  parameters := .null

/-- The method of that operation. -/
def constructorMethod : Method where
  url := constructorOperation.url
  name := "constructor"
  verb := constructorOperation.verb
  basePath := ""
  response := .void
  summary := .string ""
  description := .string ""
  docLink := ""
  parameters := none

/-- Paths with that operation only. -/
def constructorPaths : Json :=
  .object [(constructorOperation.url,
    .object [(constructorOperation.verb, constructorOperation.value)])]

theorem not_clashFree_constructorPaths :
    ∃ service : Service,
      service.IsOf ⟨"", false, standardPolicy true⟩ ⟨constructorPaths, "", ""⟩ constructorPaths ∧
        ¬ service.ClashFree := by
  have hcontrollers : Operation.byController (standardPolicy true).allowed
      (constructorPaths.orElse (.object [])) = .ok [("Pets", [constructorOperation])] :=
    rfl
  have hmethods : Operation.toMethods ⟨constructorPaths, "", ""⟩ [constructorOperation] =
      .ok [constructorMethod] := by
    with_unfolding_all rfl
  obtain ⟨code, hcode⟩ : ∃ code,
    Method.compile (standardPolicy true) constructorMethod = .ok code :=
    ⟨_, rfl⟩
  have hname : code.method.name = "constructor" :=
    congrArg Method.name (Method.compiled_of_compile hcode).described
  have hservice : Service.IsOf ⟨"", false, standardPolicy true⟩ ⟨constructorPaths, "", ""⟩
      constructorPaths ⟨"Pets", [code]⟩ :=
    ⟨_, _, _, hcontrollers, List.mem_singleton_self _, hmethods,
      mapM_eq_ok.mpr (.cons hcode .nil)⟩
  refine ⟨_, hservice, fun hfree => ?_⟩
  have hnone := ((clashFree_iff.2 _ hservice).2.mp hfree) code List.mem_cons_self
  exact hnone (.inl (by simp [hname]))

end Service

end ApiClient
