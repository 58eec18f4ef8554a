import ApiClient.Method.Basic
import ApiClient.Proofs.Outcome
import ApiClient.Proofs.Parameter.Groups

/-!
# What compiling a method does

`compile` reads types, makes statements and settles arguments, and any of these can fail. A method
that was compiled went through all of them, and `Compiled` says what each of them was given: the
parameters that its verb lets it keep, and their groups.
-/

namespace ApiClient.Method

/-- The parameters of a method that its verb lets it keep. -/
def kept (policy : Policy) (method : Method) : List Parameter :=
  Parameter.retained ((policy.allowed.lookup method.verb).getD []) (method.parameters.getD [])

/-- The kept parameters of a method, by location. -/
def keptGroups (policy : Policy) (method : Method) : List (Location × List Parameter) :=
  Parameter.groups ((policy.allowed.lookup method.verb).getD []) (method.parameters.getD [])

section

variable {policy : Policy} {method : Method} {location : Location} {group : List Parameter}

/-- A group is what is kept at its location, and it is not empty. -/
theorem mem_keptGroups :
    (location, group) ∈ keptGroups policy method ↔
      (∃ parameter ∈ kept policy method, parameter.location = location) ∧
        group = (kept policy method).filter (·.location = location) :=
  Parameter.mem_groups

theorem nodup_keptGroups : ((keptGroups policy method).map (·.1)).Nodup :=
  Parameter.nodup_locations _ _

theorem group?_keptGroups :
    Parameter.group? location (keptGroups policy method) = some group ↔
      (location, group) ∈ keptGroups policy method :=
  Parameter.group?_eq_some

/-- A location has a group if and only if a parameter of it is kept. -/
theorem group?_keptGroups_isSome :
    (Parameter.group? location (keptGroups policy method)).isSome ↔
      ∃ parameter ∈ kept policy method, parameter.location = location :=
  Parameter.group?_isSome

end

/-! ## Statements -/

/-- The statement that gathers the group of a location. Nothing gathers the
path, nor a body with a schema. -/
inductive Gathers : Location → List Parameter → Statement → Prop
  | query (group : List Parameter) :
      Gathers .query group (.query (Parameter.distinctNames group))
  | header (group : List Parameter) :
      Gathers .header group (.header (Parameter.distinctNames group))
  | body {first : Parameter} (rest : List Parameter) (h : first.schema = none) :
      Gathers .body (first :: rest) (.body (Parameter.distinctNames (first :: rest)))
  | formData (group : List Parameter) :
      Gathers .formData group (.plain .formData (Parameter.distinctNames group))
  | other (name : String) (group : List Parameter) :
      Gathers (.other name) group (.plain (.other name) (Parameter.distinctNames group))

theorem ofGroup_eq_some {location : Location} {group : List Parameter} {statement : Statement} :
    Statement.ofGroup location group = .ok (some statement) ↔
      Gathers location group statement := by
  constructor
  · intro h
    cases location with
    | path => cases h
    | query =>
      obtain rfl := Option.some.inj (Except.ok.inj h)
      exact .query group
    | header =>
      obtain rfl := Option.some.inj (Except.ok.inj h)
      exact .header group
    | formData =>
      obtain rfl := Option.some.inj (Except.ok.inj h)
      exact .formData group
    | other name =>
      obtain rfl := Option.some.inj (Except.ok.inj h)
      exact .other name group
    | body =>
      cases group with
      | nil => cases h
      | cons first rest =>
        have h := Except.ok.inj h
        -- a body with a schema gathers nothing
        split at h
        case isTrue => cases h
        case isFalse hschema =>
          obtain rfl := Option.some.inj h
          exact .body rest (Option.not_isSome_iff_eq_none.mp hschema)
  · intro h
    cases h with
    | query | header | formData | other => rfl
    | body rest hschema =>
      change Except.ok (if _ then _ else _) = _
      rw [if_neg (by simp [hschema])]

/-- The statements that are made for some groups. -/
def StatementsFor (groups : List (Location × List Parameter))
    (statements : List (Option Statement)) : Prop :=
  List.Forall₂ (fun group statement => Statement.ofGroup group.1 group.2 = .ok statement) groups
    statements

/-- `code` is what `method` is compiled to. -/
structure Compiled (policy : Policy) (method : Method) (code : Code) : Prop where
  described : code.method = method
  /-- The interface is named for the method. -/
  named : code.declared.name = interfaceName method.name
  /-- The interface declares what is kept. -/
  declared : Parameter.fields (kept policy method) = .ok code.declared.fields
  grouped : code.groups = keptGroups policy method
  /-- Each group is given to a statement, where its location needs one. -/
  gathered : ∃ made, StatementsFor (keptGroups policy method) made ∧
    code.statements = made.filterMap id
  passed : Arguments.ofGroups (keptGroups policy method) method.verb policy.sources =
    .ok code.arguments
  unwrapped : code.unwrapped = (policy.unwrap && (kept policy method).length == 1 &&
    !code.declared.arguments.isEmpty)

theorem groups_retained (allowed : List Location) (parameters : List Parameter) :
    Parameter.groups allowed (Parameter.retained allowed parameters) =
      Parameter.groups allowed parameters := by
  rw [Parameter.groups, Parameter.groups, Parameter.retained_retained]

/-- A method that is compiled went through every step of it. -/
theorem compiled_of_compile {policy : Policy} {method : Method} {code : Code}
    (h : compile policy method = .ok code) : Compiled policy method code := by
  unfold compile at h
  obtain ⟨fields, hfields, h⟩ := bind_eq_ok.mp h
  obtain ⟨made, hmade, h⟩ := bind_eq_ok.mp h
  obtain ⟨arguments, harguments, h⟩ := bind_eq_ok.mp h
  rw [groups_retained] at hmade harguments h
  rw [← pure_eq_ok.mp h]
  exact ⟨rfl, rfl, hfields, rfl, ⟨made, mapM_eq_ok.mp hmade, rfl⟩, harguments, rfl⟩

/-! ## What is printed -/

/-- A method is printed with certain statements, each followed by a blank line, and behind them
a call with certain arguments. -/
def Code.Prints (code : Code) (statements arguments : List String) : Prop :=
  code.mainText = "\n" ++ code.comment ++
    code.method.name ++ "(" ++ code.signature ++ "): Observable<" ++
    code.method.response.type ++ "> \x7b\n" ++
    (if statements = [] then "" else Text.indent ("\n\n".intercalate statements) 1 ++ "\n\n") ++
    Text.indent ("return this.http." ++ code.method.verb ++ "<" ++
      code.method.response.type ++ ">(" ++
      ", ".intercalate arguments ++ ");") 1 ++ "\n" ++ "\x7d\n"

theorem Code.statementsText_eq (code : Code) :
    code.statementsText = if code.statements.map (·.text) = [] then ""
      else Text.indent ("\n\n".intercalate (code.statements.map (·.text))) 1 ++ "\n\n" := by
  rw [Code.statementsText]
  cases code.statements with
  | nil => rfl
  | cons => rfl

/-- A method is printed with its statements, and with a call that asks an
address and has its arguments. -/
theorem Code.prints (code : Code) : code.Prints (code.statements.map (·.text))
    (("`" ++ code.method.basePath ++ Url.interpolate code.method.url ++ "`") ::
      code.arguments.texts) := by
  unfold Code.Prints Code.mainText Code.opening Code.call Code.url
  simp only [Code.statementsText_eq, String.append_assoc]

/-! ## When a method compiles -/

theorem exists_ofGroup (location : Location) {group : List Parameter} (h : group ≠ []) :
    ∃ statement, Statement.ofGroup location group = .ok statement := by
  cases location with
  | path | query | header | formData | other => exact ⟨_, rfl⟩
  | body =>
    obtain ⟨first, rest, rfl⟩ := List.exists_cons_of_ne_nil h
    exact ⟨_, rfl⟩

theorem exists_ofSources {groups : List (Location × List Parameter)}
    (h : ∀ location group, Parameter.group? location groups = some group → group ≠ [])
    (sources : List Location) :
    ∃ argument, BodyArgument.ofSources groups sources = .ok argument := by
  induction sources with
  | nil => exact ⟨_, rfl⟩
  | cons source rest ih =>
    unfold BodyArgument.ofSources
    cases hgroup : Parameter.group? source groups with
    | none => exact ih
    | some group =>
      obtain ⟨first, others, rfl⟩ := List.exists_cons_of_ne_nil (h source group hgroup)
      by_cases hbody : source = .body
      · simp only [if_pos hbody]
        exact ⟨_, rfl⟩
      · simp only [if_neg hbody]
        exact ⟨_, rfl⟩

/-- A method compiles if everything that it keeps has a type: since no group is empty, nothing else
can fail. -/
theorem exists_compile {policy : Policy} {method : Method}
    (h : ∀ parameter ∈ kept policy method, ∃ type, parameter.type = .ok type) :
    ∃ code, compile policy method = .ok code := by
  obtain ⟨fields, hfields⟩ : ∃ fields,
      Parameter.fields (kept policy method) = .ok fields := by
    have heach : ∀ parameter ∈ kept policy method, ∃ field : Parameter.Field,
        (do return ⟨parameter, ← parameter.type⟩ : Except Misuse Parameter.Field) =
          .ok field := by
      intro parameter hkept
      obtain ⟨type, htype⟩ := h parameter hkept
      exact ⟨_, bind_eq_ok.mpr ⟨type, htype, rfl⟩⟩
    obtain ⟨fields, hfields⟩ := exists_forall₂ heach
    exact ⟨fields, mapM_eq_ok.mpr hfields⟩
  -- a group of the kept parameters is never empty, so its statement and its argument can be made
  have hne : ∀ location group,
      Parameter.group? location (keptGroups policy method) = some group → group ≠ [] :=
    fun _ _ => Parameter.ne_nil_of_group?
  obtain ⟨made, hmade⟩ : ∃ made, StatementsFor (keptGroups policy method) made :=
    exists_forall₂ fun group hg => exists_ofGroup _ (hne _ _ (group?_keptGroups.mpr hg))
  obtain ⟨body, hbody⟩ : ∃ body, (policy.sources.lookup method.verb).mapM
      (BodyArgument.ofSources (keptGroups policy method)) = .ok body := by
    cases policy.sources.lookup method.verb with
    | none => exact ⟨_, rfl⟩
    | some sources =>
      obtain ⟨argument, hargument⟩ := exists_ofSources hne sources
      exact ⟨_, bind_eq_ok.mpr ⟨argument, hargument, rfl⟩⟩
  obtain ⟨arguments, harguments⟩ : ∃ arguments,
      Arguments.ofGroups (keptGroups policy method) method.verb policy.sources = .ok arguments :=
    ⟨_, bind_eq_ok.mpr ⟨body, hbody, rfl⟩⟩
  unfold compile
  dsimp only
  rw [groups_retained]
  exact ⟨_, bind_eq_ok.mpr ⟨fields, hfields, bind_eq_ok.mpr ⟨made, mapM_eq_ok.mpr hmade,
    bind_eq_ok.mpr ⟨arguments, harguments, rfl⟩⟩⟩⟩

/-- A method compiles if everything that it keeps has one schema, and the schema a type. -/
theorem exists_compile_of_schema {policy : Policy} {method : Method} {schema : Json} {n : Nat}
    (hschema : ∃ type, Schema.resolve schema = .ok type)
    (h : (kept policy method).map (fun parameter => parameter.schema.getD parameter.keywords) =
      List.replicate n schema) : ∃ code, compile policy method = .ok code := by
  refine exists_compile fun parameter hkept => ?_
  have hmem : parameter.schema.getD parameter.keywords ∈ List.replicate n schema :=
    h ▸ List.mem_map.mpr ⟨parameter, hkept, rfl⟩
  rw [Parameter.type, List.eq_of_mem_replicate hmem]
  exact hschema

end ApiClient.Method
