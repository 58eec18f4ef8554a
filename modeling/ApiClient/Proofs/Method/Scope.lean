import ApiClient.Client.Files
import ApiClient.Proofs.Method.Compile
import ApiClient.Proofs.Text.Occurrence

/-!
# What a call names is declared

A compiled method gathers its parameters in variables and hands the variables to a call. What is
declared is settled location by location, and what is handed over by the verb, apart from each
other. They agree because both look at the same groups: a location has at most one group, so the
statements declare each variable at most once, and an argument names a variable only where the
group that declares it is there.
-/

namespace ApiClient.Method

namespace Statement

/-- The declarations in a statement: the variable of each, and how its declaration begins. -/
def declarations : Statement → List (String × String)
  | query _ => [("queryParamBase", "const queryParamBase = "),
      ("queryParams", "let queryParams = new HttpParams();\n")]
  | header _ => [("headerParams", "const headerParams = new HttpHeaders(")]
  | body _ => [("bodyParams", "const bodyParams = "),
      ("bodyParamsWithoutUndefined", "const bodyParamsWithoutUndefined: any = \x7b\x7d;\n")]
  | plain location _ =>
    [(plainVariable location, "const " ++ plainVariable location ++ " = ")]

/-- The variables that a statement declares. -/
def declares (statement : Statement) : List String := statement.declarations.map (·.1)

theorem text_query (names : List String) :
    (query names).text =
      "const queryParamBase = " ++ objectLiteral names ++ ";\n\n" ++ queryFilter := rfl

theorem text_header (names : List String) :
    (header names).text =
      "const headerParams = new HttpHeaders(" ++ objectLiteral names ++ ");" := rfl

theorem text_body (names : List String) :
    (body names).text = "const bodyParams = " ++ objectLiteral names ++ ";\n" ++ bodyFilter := rfl

theorem text_plain (location : Location) (names : List String) :
    (plain location names).text =
      "const " ++ plainVariable location ++ " = " ++ objectLiteral names ++ ";" := rfl

/-- The declarations stand in the text of the statement. -/
theorem contains_declaration (statement : Statement) :
    ∀ declaration ∈ statement.declarations,
      Text.contains statement.text declaration.2 = true := by
  intro declaration hd
  cases statement with
  | query names =>
    rw [text_query]
    simp only [declarations, List.mem_cons, List.not_mem_nil, or_false] at hd
    rcases hd with rfl | rfl
    · exact Text.contains_append_left (Text.contains_append_left
        (Text.contains_append_left (Text.contains_self _)))
    · -- the filtered copy stands behind the object it is a copy of
      refine Text.contains_append_right ?_
      unfold queryFilter
      iterate 6 apply Text.contains_append_left
      exact Text.contains_self _
  | header names =>
    rw [text_header]
    simp only [declarations, List.mem_singleton] at hd
    subst hd
    exact Text.contains_append_left (Text.contains_append_left (Text.contains_self _))
  | body names =>
    rw [text_body]
    simp only [declarations, List.mem_cons, List.not_mem_nil, or_false] at hd
    rcases hd with rfl | rfl
    · exact Text.contains_append_left (Text.contains_append_left
        (Text.contains_append_left (Text.contains_self _)))
    · refine Text.contains_append_right ?_
      unfold bodyFilter
      iterate 3 apply Text.contains_append_left
      exact Text.contains_self _
  | plain location names =>
    rw [text_plain]
    simp only [declarations, List.mem_singleton] at hd
    subst hd
    exact Text.contains_append_left (Text.contains_append_left (Text.contains_self _))

/-- The variables that the statements for a location declare, if there are any. -/
def declaredAt : Location → List String
  | .path => []
  | .query => ["queryParamBase", "queryParams"]
  | .header => ["headerParams"]
  | .body => ["bodyParams", "bodyParamsWithoutUndefined"]
  | location => [plainVariable location]

theorem declares_of_ofGroup {location : Location} {group : List Parameter} {statement : Statement}
    (h : ofGroup location group = .ok (some statement)) :
    statement.declares = declaredAt location := by
  cases ofGroup_eq_some.mp h with
  | query | header | body | formData | other => rfl

/-- No two locations of a document declare one variable. -/
theorem declaredAt_disjoint :
    ∀ location ∈ Location.declarable, ∀ other ∈ Location.declarable,
      ∀ x ∈ declaredAt location, x ∈ declaredAt other → location = other := by
  decide

end Statement

/-! ## Counting declarations -/

/-- How often the statements of a method declare the variable `x`. -/
def Code.timesDeclared (code : Code) (x : String) : Nat :=
  code.statements.countP fun statement => x ∈ statement.declares

/-- Where no group is of a location that declares it, a variable is not declared. -/
theorem countP_of_absent {x : String} {groups : List (Location × List Parameter)}
    {statements : List (Option Statement)} (h : StatementsFor groups statements)
    (hno : ∀ group ∈ groups, x ∉ Statement.declaredAt group.1) :
    (statements.filterMap id).countP (fun statement => x ∈ statement.declares) = 0 := by
  induction h with
  | nil => rfl
  | @cons group statement groups statements hstatement _ ih =>
    have hrest := ih fun group' hg => hno group' (List.mem_cons_of_mem _ hg)
    -- a group without a statement counts for nothing
    cases statement with
    | none => exact hrest
    | some statement =>
      have hx : x ∉ statement.declares := by
        rw [Statement.declares_of_ofGroup hstatement]
        exact hno group List.mem_cons_self
      show List.countP _ (statement :: statements.filterMap id) = 0
      rw [List.countP_cons_of_neg (by simpa using hx)]
      exact hrest

/-- The one group of the location that declares a variable declares it once, if it makes a
statement. -/
theorem countP_of_present {x : String} {groups : List (Location × List Parameter)}
    {statements : List (Option Statement)} (h : StatementsFor groups statements)
    (hnd : (groups.map (·.1)).Nodup) {location : Location} {group : List Parameter}
    {made : Statement} (hgroup : (location, group) ∈ groups)
    (hmade : Statement.ofGroup location group = .ok (some made))
    (hx : x ∈ Statement.declaredAt location)
    (honly : ∀ group' ∈ groups, x ∈ Statement.declaredAt group'.1 → group'.1 = location) :
    (statements.filterMap id).countP (fun statement => x ∈ statement.declares) = 1 := by
  induction h with
  | nil => exact absurd hgroup List.not_mem_nil
  | @cons first statement groups statements hstatement hrest ih =>
    obtain ⟨hnew, hnd⟩ := List.nodup_cons.mp hnd
    have honlyRest := fun group' hg => honly group' (List.mem_cons_of_mem _ hg)
    rcases List.mem_cons.mp hgroup with rfl | hgroup
    · -- the others are of other locations
      have hno : ∀ group' ∈ groups, x ∉ Statement.declaredAt group'.1 := fun group' hg hx' =>
        hnew (List.mem_map.mpr ⟨group', hg, honlyRest group' hg hx'⟩)
      obtain rfl := Except.ok.inj (hstatement.symm.trans hmade)
      have hdeclares : x ∈ made.declares := by
        rw [Statement.declares_of_ofGroup hmade]
        exact hx
      show List.countP _ (made :: statements.filterMap id) = 1
      rw [List.countP_cons_of_pos (by simpa using hdeclares), countP_of_absent hrest hno]
    · have hfirst : x ∉ Statement.declaredAt first.1 := fun hx' =>
        hnew (List.mem_map.mpr ⟨_, hgroup, (honly first List.mem_cons_self hx').symm⟩)
      have hcount := ih hnd hgroup honlyRest
      cases statement with
      | none => exact hcount
      | some statement =>
        have hx' : x ∉ statement.declares := by
          rw [Statement.declares_of_ofGroup hstatement]
          exact hfirst
        show List.countP _ (statement :: statements.filterMap id) = 1
        rw [List.countP_cons_of_neg (by simpa using hx')]
        exact hcount

/-! ## The standard tables -/

/-- What holds of every location in the standard table holds of those that a verb is given. -/
theorem of_mem_standardLocations {P : String → Location → Prop}
    (hall : ∀ entry ∈ standardLocations, ∀ location ∈ entry.2, P entry.1 location) {verb : String}
    {location : Location} (h : location ∈ (standardLocations.lookup verb).getD []) :
    P verb location := by
  cases hrow : standardLocations.lookup verb with
  | none => rw [hrow] at h; exact absurd h List.not_mem_nil
  | some row =>
    rw [hrow] at h
    obtain ⟨_, _, hl, _⟩ := List.lookup_eq_some_iff.mp hrow
    have hmem : (verb, row) ∈ standardLocations := hl ▸ List.mem_append_right _ List.mem_cons_self
    exact hall _ hmem _ h

/-- The standard table has only locations that a document can declare. -/
theorem standardLocations_declarable {verb : String} {location : Location}
    (h : location ∈ (standardLocations.lookup verb).getD []) : location ∈ Location.declarable :=
  of_mem_standardLocations (P := fun _ location => location ∈ Location.declarable) (by decide) h

/-- The verbs that send a body. -/
def bodyVerbs : List String := ["post", "put", "patch"]

/-- Only a verb that sends a body is given parameters for it. -/
theorem bodyVerbs_of_location {verb : String} {location : Location}
    (h : location ∈ (standardLocations.lookup verb).getD [])
    (hbody : location = .body ∨ location = .formData) : verb ∈ bodyVerbs :=
  of_mem_standardLocations
    (P := fun verb location => location = .body ∨ location = .formData → verb ∈ bodyVerbs)
    (by decide) h hbody

/-- A verb that sends a body takes it from the body parameters, or else from the form. -/
theorem lookup_standardSources (verb : String) :
    Arguments.standardSources.lookup verb =
      if verb ∈ bodyVerbs then some [.body, .formData] else none := by
  by_cases hpost : verb = "post"
  · subst hpost; rfl
  · by_cases hput : verb = "put"
    · subst hput; rfl
    · by_cases hpatch : verb = "patch"
      · subst hpatch; rfl
      · have hnot : verb ∉ bodyVerbs := by simp [bodyVerbs, hpost, hput, hpatch]
        rw [if_neg hnot, Arguments.standardSources, List.lookup_cons, beq_false_of_ne hpost,
          List.lookup_cons, beq_false_of_ne hput, List.lookup_cons, beq_false_of_ne hpatch]
        rfl

/-! ## What is handed over -/

/-- The text of an argument that reads a parameter begins as the name of the parameters does. -/
theorem head_propertyAccess (name : String) :
    (TypeScript.propertyAccess "params" name).toList.head? = some 'p' := by
  unfold TypeScript.propertyAccess
  split <;> simp [String.toList_append]

/-- What is sent as a body, for the two locations it can come from. -/
theorem ofSources_standard {groups : List (Location × List Parameter)} {argument : BodyArgument}
    (h : BodyArgument.ofSources groups [.body, .formData] = .ok argument) :
    (∃ group, Parameter.group? .body groups = some group ∧
        BodyArgument.ofBody group = .ok argument) ∨
      (Parameter.group? .body groups = none ∧
        ((∃ group, Parameter.group? .formData groups = some group ∧
            argument = .group .formData) ∨
          (Parameter.group? .formData groups = none ∧ argument = .empty))) := by
  unfold BodyArgument.ofSources at h
  -- the body comes first, and the form only if there is none
  cases hbody : Parameter.group? .body groups with
  | some group =>
    rw [hbody] at h
    exact .inl ⟨group, rfl, h⟩
  | none =>
    rw [hbody] at h
    refine .inr ⟨rfl, ?_⟩
    unfold BodyArgument.ofSources at h
    cases hform : Parameter.group? .formData groups with
    | some group =>
      rw [hform] at h
      exact .inl ⟨group, rfl, (Except.ok.inj h).symm⟩
    | none =>
      rw [hform] at h
      exact .inr ⟨rfl, (Except.ok.inj h).symm⟩

/--
The call of a method and the statements before it fit together; `kept` are the parameters that the
method kept.
-/
structure FitsTogether (code : Code) (kept : List Parameter) : Prop where
  /-- The statements and the arguments are those that the method is printed with. -/
  printed : code.Prints (code.statements.map (·.text))
    (("`" ++ code.method.basePath ++ Url.interpolate code.method.url ++ "`") ::
      code.arguments.texts)
  /-- After the URL come a body, if there is one, and the options, if there are any. -/
  shape : ∃ options : Option String,
    code.arguments.texts = (code.arguments.body.map (·.text)).toList ++ options.toList ∧
    options = if code.arguments.options.isEmpty then none
      else some ("\x7b" ++ ", ".intercalate code.arguments.options ++ "\x7d")
  /-- A body is sent by the verbs that have one. -/
  sends : code.arguments.body.isSome ↔ code.method.verb ∈ bodyVerbs
  /-- What a statement is said to declare stands in its text. -/
  shown : ∀ statement ∈ code.statements, ∀ declaration ∈ statement.declarations,
    Text.contains statement.text declaration.2 = true
  /-- The query is passed where it is declared, once. -/
  query_declared : "params: queryParams" ∈ code.arguments.options ↔
    code.timesDeclared "queryParams" = 1
  /-- The query is declared where a parameter of it is kept. -/
  query_kept : code.timesDeclared "queryParams" = 1 ↔
    ∃ parameter ∈ kept, parameter.location = .query
  headers_declared : "headers: headerParams" ∈ code.arguments.options ↔
    code.timesDeclared "headerParams" = 1
  headers_kept : code.timesDeclared "headerParams" = 1 ↔
    ∃ parameter ∈ kept, parameter.location = .header
  /-- A variable that is sent as the body is declared, once. -/
  body_declared : ∀ x ∈ ["bodyParamsWithoutUndefined", "formDataParams"],
    code.arguments.body.map (·.text) = some x → code.timesDeclared x = 1
  /-- Body parameters are sent: the first itself if it has a schema, or else all of them. -/
  body_kept : ∀ first, kept.find? (·.location = .body) = some first →
    code.arguments.body =
      some (if first.schema.isSome then .parameter first.name else .gathered)
  /-- Parameters of a form are sent, unless there are body parameters. -/
  form_kept : (∃ parameter ∈ kept, parameter.location = .formData) →
    (∀ parameter ∈ kept, parameter.location ≠ .body) →
    code.arguments.body = some (.group .formData)

variable {method : Method} {unwrap : Bool} {code : Code}

/-- A location is kept at all only if a document can declare it. -/
theorem declarable_of_keptGroups {location : Location} {group : List Parameter}
    (h : (location, group) ∈ keptGroups (standardPolicy unwrap) method) :
    location ∈ Location.declarable := by
  obtain ⟨⟨parameter, hkept, rfl⟩, -⟩ := mem_keptGroups.mp h
  exact standardLocations_declarable (Parameter.mem_retained.mp hkept).2

/-- A variable of a location that is kept is declared once, if the location makes a statement. -/
theorem timesDeclared_of_kept (hcode : Compiled (standardPolicy unwrap) method code)
    {location : Location} {group : List Parameter} {statement : Statement} {x : String}
    (hgroup : Parameter.group? location (keptGroups (standardPolicy unwrap) method) = some group)
    (hmade : Statement.ofGroup location group = .ok (some statement))
    (hx : x ∈ Statement.declaredAt location) : code.timesDeclared x = 1 := by
  obtain ⟨made, hstatements, heq⟩ := hcode.gathered
  have hmem := group?_keptGroups.mp hgroup
  rw [Code.timesDeclared, heq]
  exact countP_of_present hstatements nodup_keptGroups hmem hmade hx
    fun other hother hx' => Statement.declaredAt_disjoint _ (declarable_of_keptGroups hother) _
      (declarable_of_keptGroups hmem) x hx' hx

/-- A variable of a location that is not kept is not declared. -/
theorem timesDeclared_of_not_kept (hcode : Compiled (standardPolicy unwrap) method code)
    {location : Location} {x : String} (hl : location ∈ Location.declarable)
    (hnone : Parameter.group? location (keptGroups (standardPolicy unwrap) method) = none)
    (hx : x ∈ Statement.declaredAt location) : code.timesDeclared x = 0 := by
  obtain ⟨made, hstatements, heq⟩ := hcode.gathered
  rw [Code.timesDeclared, heq]
  refine countP_of_absent hstatements fun other hother hx' => ?_
  obtain rfl := Statement.declaredAt_disjoint _ (declarable_of_keptGroups hother) _ hl x hx' hx
  rw [group?_keptGroups.mpr hother] at hnone
  cases hnone

/-- The variable of a location that always makes a statement is declared just if the location has a
group. -/
theorem timesDeclared_eq_one (hcode : Compiled (standardPolicy unwrap) method code)
    {location : Location} {x : String} (hl : location ∈ Location.declarable)
    (hx : x ∈ Statement.declaredAt location)
    (hmade : ∀ group, ∃ statement, Statement.ofGroup location group = .ok (some statement)) :
    code.timesDeclared x = 1 ↔
      (Parameter.group? location (keptGroups (standardPolicy unwrap) method)).isSome := by
  cases hgroup : Parameter.group? location (keptGroups (standardPolicy unwrap) method) with
  | none => simp [timesDeclared_of_not_kept hcode hl hgroup hx]
  | some group =>
    obtain ⟨statement, hstatement⟩ := hmade group
    simp [timesDeclared_of_kept hcode hgroup hstatement hx]

/-- The first kept parameter of a location is the first of its group. -/
theorem group?_eq_cons {policy : Policy} {location : Location} {first : Parameter}
    (h : (kept policy method).find? (·.location = location) = some first) :
    ∃ rest, Parameter.group? location (keptGroups policy method) = some (first :: rest) := by
  have hkept := List.mem_of_find?_eq_some h
  have hlocation : first.location = location := by simpa using List.find?_some h
  have hmem : (location, (kept policy method).filter (·.location = location)) ∈
      keptGroups policy method := mem_keptGroups.mpr ⟨⟨first, hkept, hlocation⟩, rfl⟩
  rw [← List.head?_filter] at h
  obtain ⟨rest, hrest⟩ := List.head?_eq_some_iff.mp h
  exact ⟨rest, hrest ▸ group?_keptGroups.mpr hmem⟩

/-- What the arguments of a compiled method are. -/
theorem arguments_of_compiled (hcode : Compiled (standardPolicy unwrap) method code) :
    (if method.verb ∈ bodyVerbs then ∃ argument, code.arguments.body = some argument ∧
        BodyArgument.ofSources (keptGroups (standardPolicy unwrap) method) [.body, .formData] =
          .ok argument
      else code.arguments.body = none) ∧
    code.arguments.query =
      (Parameter.group? .query (keptGroups (standardPolicy unwrap) method)).isSome ∧
    code.arguments.headers =
      (Parameter.group? .header (keptGroups (standardPolicy unwrap) method)).isSome := by
  have h := hcode.passed
  unfold Arguments.ofGroups at h
  obtain ⟨body, hbody, h⟩ := bind_eq_ok.mp h
  rw [← pure_eq_ok.mp h]
  refine ⟨?_, rfl, rfl⟩
  -- the standard table has the same sources for every verb that has a body
  have hsources : (standardPolicy unwrap).sources.lookup method.verb =
      if method.verb ∈ bodyVerbs then some [.body, .formData] else none :=
    lookup_standardSources method.verb
  rw [hsources] at hbody
  by_cases hverb : method.verb ∈ bodyVerbs
  · rw [if_pos hverb] at hbody ⊢
    obtain ⟨argument, hargument, hsome⟩ := bind_eq_ok.mp hbody
    exact ⟨argument, (pure_eq_ok.mp hsome).symm, hargument⟩
  · rw [if_neg hverb] at hbody ⊢
    exact (pure_eq_ok.mp hbody).symm

/-- A kept parameter of the body or of the form has a verb that sends a body. -/
theorem bodyVerbs_of_kept {parameter : Parameter}
    (hkept : parameter ∈ kept (standardPolicy unwrap) method)
    (hlocation : parameter.location = .body ∨ parameter.location = .formData) :
    method.verb ∈ bodyVerbs :=
  bodyVerbs_of_location (Parameter.mem_retained.mp hkept).2 hlocation

/-- What is sent as a body, by a verb that sends one. -/
theorem body_of_compiled (hcode : Compiled (standardPolicy unwrap) method code)
    {argument : BodyArgument} (hbody : code.arguments.body = some argument) :
    BodyArgument.ofSources (keptGroups (standardPolicy unwrap) method) [.body, .formData] =
      .ok argument := by
  have h := (arguments_of_compiled hcode).1
  split at h
  · obtain ⟨sent, hsent, hsources⟩ := h
    rw [hsent] at hbody
    rw [← Option.some.inj hbody]
    exact hsources
  · rw [h] at hbody
    cases hbody

/-- A variable that is sent as the body is declared, once. -/
theorem timesDeclared_of_sent (hcode : Compiled (standardPolicy unwrap) method code) {x : String}
    (hx : x ∈ ["bodyParamsWithoutUndefined", "formDataParams"])
    (hsent : code.arguments.body.map (·.text) = some x) : code.timesDeclared x = 1 := by
  obtain ⟨argument, hargument, htext⟩ := Option.map_eq_some_iff.mp hsent
  -- a parameter is read off `params`, so it is neither of the two variables
  have hnotParameter : ∀ name, argument ≠ .parameter name := by
    rintro name rfl
    have hhead := head_propertyAccess name
    rw [show TypeScript.propertyAccess "params" name = x from htext] at hhead
    rcases List.mem_pair.mp hx with rfl | rfl <;> exact absurd hhead (by decide)
  rcases ofSources_standard (body_of_compiled hcode hargument) with
    ⟨group, hgroup, hbody⟩ | ⟨-, ⟨group, hgroup, rfl⟩ | ⟨-, rfl⟩⟩
  · -- the body is sent gathered, since it is not the parameter itself
    cases group with
    | nil => cases hbody
    | cons first rest =>
      have hbody := Except.ok.inj hbody
      by_cases hschema : first.schema.isSome
      · rw [if_pos hschema] at hbody
        exact absurd hbody.symm (hnotParameter _)
      · rw [if_neg hschema] at hbody
        subst hbody
        subst htext
        have hmade : Statement.ofGroup .body (first :: rest) =
            .ok (some (.body (Parameter.distinctNames (first :: rest)))) := by
          show Except.ok _ = _
          rw [if_neg hschema]
        exact timesDeclared_of_kept hcode hgroup hmade (by decide)
  · subst htext
    exact timesDeclared_of_kept hcode hgroup rfl (by decide)
  · subst htext
    exact absurd hx (by decide)

/-- A kept parameter of the body or of the form is sent by what the standard sources make. -/
theorem exists_source_of_kept (hcode : Compiled (standardPolicy unwrap) method code)
    {parameter : Parameter} (hkept : parameter ∈ kept (standardPolicy unwrap) method)
    (hlocation : parameter.location = .body ∨ parameter.location = .formData) :
    ∃ argument, code.arguments.body = some argument ∧
      BodyArgument.ofSources (keptGroups (standardPolicy unwrap) method) [.body, .formData] =
        .ok argument := by
  have hbody := (arguments_of_compiled hcode).1
  rwa [if_pos (bodyVerbs_of_kept hkept hlocation)] at hbody

/-- Where a body is kept, its first parameter is sent if it has a schema, or else all of them. -/
theorem body_of_bodyKept (hcode : Compiled (standardPolicy unwrap) method code)
    {first : Parameter}
    (hfirst : (kept (standardPolicy unwrap) method).find? (·.location = .body) = some first) :
    code.arguments.body =
      some (if first.schema.isSome then .parameter first.name else .gathered) := by
  have hlocation : first.location = .body := by simpa using List.find?_some hfirst
  obtain ⟨argument, hargument, hsources⟩ :=
    exists_source_of_kept hcode (List.mem_of_find?_eq_some hfirst) (.inl hlocation)
  obtain ⟨rest, hgroup⟩ := group?_eq_cons hfirst
  rw [hargument]
  -- the group of the body is there, so the form is not asked
  rcases ofSources_standard hsources with ⟨group, hgroup', hofBody⟩ | ⟨hnone, -⟩
  · obtain rfl := Option.some.inj (hgroup.symm.trans hgroup')
    exact congrArg some (Except.ok.inj hofBody).symm
  · rw [hgroup] at hnone
    cases hnone

/-- Where a form but no body is kept, the form is sent. -/
theorem body_of_formKept (hcode : Compiled (standardPolicy unwrap) method code)
    {parameter : Parameter} (hkept : parameter ∈ kept (standardPolicy unwrap) method)
    (hlocation : parameter.location = .formData)
    (hnobody : ∀ other ∈ kept (standardPolicy unwrap) method, other.location ≠ .body) :
    code.arguments.body = some (.group .formData) := by
  obtain ⟨argument, hargument, hsources⟩ := exists_source_of_kept hcode hkept (.inr hlocation)
  rw [hargument]
  -- there is no group of the body, and one of the form
  rcases ofSources_standard hsources with ⟨group, hgroup, -⟩ |
    ⟨-, ⟨group, -, rfl⟩ | ⟨hnone, -⟩⟩
  · obtain ⟨⟨other, hother, hbody⟩, -⟩ := mem_keptGroups.mp (group?_keptGroups.mp hgroup)
    exact absurd hbody (hnobody other hother)
  · rfl
  · have hsome := group?_keptGroups_isSome.mpr ⟨parameter, hkept, hlocation⟩
    rw [hnone] at hsome
    cases hsome

/--
**What a call names is declared.** A method that is compiled by the standard tables
passes its query, its headers and its body where they are declared, and nothing that it
keeps for them is left behind.
-/
theorem fitsTogether_of_compile
    (h : compile (standardPolicy unwrap) method = .ok code) :
    FitsTogether code (kept (standardPolicy unwrap) method) := by
  have hcode := compiled_of_compile h
  obtain ⟨hbody, hquery, hheaders⟩ := arguments_of_compiled hcode
  -- what is passed tells which groups are kept, and so do the declarations
  have hqueries : code.timesDeclared "queryParams" = 1 ↔
      (Parameter.group? .query (keptGroups (standardPolicy unwrap) method)).isSome :=
    timesDeclared_eq_one hcode (by decide) (by decide) fun _ => ⟨_, rfl⟩
  have hheader : code.timesDeclared "headerParams" = 1 ↔
      (Parameter.group? .header (keptGroups (standardPolicy unwrap) method)).isSome :=
    timesDeclared_eq_one hcode (by decide) (by decide) fun _ => ⟨_, rfl⟩
  constructor
  case printed => exact code.prints
  case shape =>
    refine ⟨_, ?_, rfl⟩
    unfold Arguments.texts
    split <;> rfl
  case sends =>
    rw [hcode.described]
    split at hbody
    case isTrue hverb =>
      obtain ⟨argument, hargument, -⟩ := hbody
      simp [hargument, hverb]
    case isFalse hverb => simp [hbody, hverb]
  case shown => exact fun statement _ => statement.contains_declaration
  case query_declared =>
    rw [hqueries, ← hquery]
    unfold Arguments.options
    cases code.arguments.query <;> cases code.arguments.headers <;> decide
  case query_kept => rw [hqueries]; exact group?_keptGroups_isSome
  case headers_declared =>
    rw [hheader, ← hheaders]
    unfold Arguments.options
    cases code.arguments.query <;> cases code.arguments.headers <;> decide
  case headers_kept => rw [hheader]; exact group?_keptGroups_isSome
  case body_declared => exact fun x hx => timesDeclared_of_sent hcode hx
  case body_kept => exact fun first hfirst => body_of_bodyKept hcode hfirst
  case form_kept =>
    rintro ⟨parameter, hkept, hlocation⟩ hnobody
    exact body_of_formKept hcode hkept hlocation hnobody

/-- A method with parameters at every location, in no order. -/
def upload : Method where
  url := "/pets/{id}"
  name := "upload"
  verb := "post"
  basePath := ""
  response := .void
  summary := .null
  description := .null
  docLink := ""
  parameters :=
    let text : Json := .object [("type", .string "string")]
    some [
      ⟨"file", .formData, true, .null, text, none⟩,
      ⟨"q", .query, false, .null, text, none⟩,
      ⟨"tag", .body, false, .null, text, none⟩,
      ⟨"id", .path, true, .null, text, none⟩,
      ⟨"q", .query, false, .null, text, none⟩,
      ⟨"pet", .body, true, .null, .object [], some text⟩,
      ⟨"trace", .header, false, .null, text, none⟩]

theorem fitsTogether_upload :
    ∃ code, compile (standardPolicy true) upload = .ok code ∧
      FitsTogether code (kept (standardPolicy true) upload) := by
  have htext : ∃ type, Schema.resolve (.object [("type", .string "string")]) = .ok type :=
    ⟨_, by rw [Schema.resolve]; rfl⟩
  have hschemas : (kept (standardPolicy true) upload).map
      (fun parameter => parameter.schema.getD parameter.keywords) =
      List.replicate 7 (.object [("type", .string "string")]) := rfl
  obtain ⟨code, hcode⟩ : ∃ code, compile (standardPolicy true) upload = .ok code := by
    refine exists_compile fun parameter hkept => ?_
    have hmem : parameter.schema.getD parameter.keywords ∈ List.replicate 7 _ :=
      hschemas ▸ List.mem_map.mpr ⟨parameter, hkept, rfl⟩
    rw [Parameter.type, List.eq_of_mem_replicate hmem]
    exact htext
  exact ⟨code, hcode, fitsTogether_of_compile hcode⟩

end ApiClient.Method
