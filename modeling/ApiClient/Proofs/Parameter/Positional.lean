import ApiClient.Parameter.Interface
import ApiClient.Proofs.Schema.Scalar
import ApiClient.Proofs.TypeScript.Bindable

/-!
# Parameters that are passed on their own

An argument of its own is for a parameter whose type is told to be scalar and whose name
passes the test for names of variables. Neither test fits what is written: a listed text
with a quote is printed with an escape that the one does not know, and the other lets names
pass that cannot be declared.
-/

namespace ApiClient.Parameter

open Json (lookup?)
open TypeScript (TypeExpr)

/-- The fields of an interface are its parameters with the types that they have. -/
theorem mem_fields_iff {parameters : List Parameter} {resolved : List Field}
    (h : fields parameters = .ok resolved) {field : Field} :
    field ∈ resolved ↔ field.parameter ∈ parameters ∧ field.parameter.type = .ok field.type := by
  have hfields := mapM_eq_ok.mp h
  -- there is one field for each parameter, and its type is resolved in the same step
  constructor
  · intro hfield
    obtain ⟨parameter, hparameter, hstep⟩ := exists_of_forall₂_right hfields hfield
    obtain ⟨type, htype, hstep⟩ := bind_eq_ok.mp hstep
    obtain rfl := pure_eq_ok.mp hstep
    exact ⟨hparameter, htype⟩
  · rintro ⟨hparameter, htype⟩
    obtain ⟨other, hother, hstep⟩ := exists_of_forall₂_right hfields.flip hparameter
    obtain ⟨type, htype', hstep⟩ := bind_eq_ok.mp hstep
    obtain rfl := pure_eq_ok.mp hstep
    obtain rfl := Except.ok.inj (htype'.symm.trans htype)
    exact hother

/-! ## Arguments -/

section

variable {declared : Interface} {field other : Field}

/-- The first colon of an argument stands before the type. -/
theorem dropWhile_argument (h : TypeScript.isVariableName field.parameter.name = true) :
    field.argument.toList.dropWhile (· != ':') = ':' :: ' ' :: field.type.text.toList := by
  have hargument : field.argument.toList =
      (field.parameter.name.toList ++ field.mark.toList) ++ ':' :: ' ' ::
      field.type.text.toList := by
    simp [Field.argument]
  rw [TypeScript.isVariableName, Bool.and_eq_true] at h
  obtain ⟨chars, newline, hname, hchars, hnewline⟩ := TypeScript.exists_parts h.1
  -- neither the name nor the mark has a colon, so the first one is the one behind them
  have hcolon : ':' ∉ field.parameter.name.toList ++ field.mark.toList := by
    rw [hname]
    simp only [List.mem_append, not_or]
    refine ⟨⟨fun hmem => absurd (hchars _ hmem) (by decide), ?_⟩, ?_⟩
    · rcases hnewline with rfl | rfl <;> decide
    · rw [Field.mark, TypeExpr.optionalMark]
      split <;> decide
  rw [hargument]
  refine Json.dropWhile_run (fun c hc => ?_) fun c hc => ?_
  · obtain rfl := Option.some.inj hc
    rfl
  · rw [bne_iff_ne]
    rintro rfl
    exact hcolon hc

theorem text_eq_of_argument_eq (h : TypeScript.isVariableName field.parameter.name = true)
    (h' : TypeScript.isVariableName other.parameter.name = true)
    (he : field.argument = other.argument) : field.type.text = other.type.text := by
  have htext := (dropWhile_argument h).symm.trans (he ▸ dropWhile_argument h')
  exact String.toList_injective (List.cons.inj (List.cons.inj htext).2).2

theorem exists_of_mem_arguments {argument : String} (h : argument ∈ declared.arguments) :
    ∃ field ∈ declared.fields, argument = field.argument ∧
    TypeScript.isScalar field.type.text = true ∧
      TypeScript.isVariableName field.parameter.name = true := by
  obtain ⟨field, hfield, rfl⟩ := List.mem_map.mp h
  obtain ⟨hfield, hpositional⟩ := List.mem_filter.mp hfield
  rw [Field.isPositional, Bool.and_eq_true] at hpositional
  exact ⟨field, hfield, rfl, hpositional⟩

/-- A parameter with a plain name is passed on its own just if its type is told to be scalar. -/
theorem argument_mem_arguments_iff (hfield : field ∈ declared.fields)
    (hname : TypeScript.isVariableName field.parameter.name = true) :
    field.argument ∈ declared.arguments ↔ TypeScript.isScalar field.type.text = true := by
  constructor
  · intro h
    obtain ⟨other, -, hargument, hscalar, hother⟩ := exists_of_mem_arguments h
    rw [text_eq_of_argument_eq hname hother hargument]
    exact hscalar
  · intro hscalar
    refine List.mem_map.mpr ⟨field, List.mem_filter.mpr ⟨hfield, ?_⟩, rfl⟩
    rw [Field.isPositional, hscalar, hname]
    rfl

end

/-! ## Listed values -/

/-- A schema lists values, and nothing in front of them decides. -/
structure Lists (members : List (String × Json)) (values : List Json) : Prop where
  notReferring : lookup? "$ref" members = none
  notCombined : lookup? "allOf" members = none
  listed : lookup? "enum" members = some (.array values)

/-- A text, a whole number or a truth value. -/
def isListable : Json → Bool
  | .string _ | .int _ | .bool _ => true
  | .null | .double _ | .array _ | .object _ => false

/-- No text among some values has a quote. -/
def IsQuoteless (values : List Json) : Prop :=
  ∀ text, Json.string text ∈ values → '\'' ∉ text.toList

theorem isScalar_literal_iff {value : Json} (h : isListable value = true) :
    TypeScript.isScalar (TypeScript.literal value) = true ↔ IsQuoteless [value] := by
  cases value with
  | string text =>
    rw [TypeScript.isScalar_textLiteral]
    simp [IsQuoteless]
  | int value =>
    rw [TypeScript.isScalar_literal]
    exact iff_of_true (TypeScript.UnionState.run_int value) (by simp [IsQuoteless])
  | bool value =>
    rw [TypeScript.isScalar_literal]
    exact iff_of_true (TypeScript.UnionState.run_bool value) (by simp [IsQuoteless])
  | null | double | array | object => cases h

theorem isScalar_union_iff {values : List Json} (hne : values ≠ [])
    (h : ∀ value ∈ values, isListable value = true) :
    TypeScript.isScalar (TypeExpr.union values).text = true ↔ IsQuoteless values := by
  rw [Schema.text_union, TypeScript.isScalar_literalUnion hne, List.all_eq_true]
  constructor
  · intro hall text htext
    exact (isScalar_literal_iff (h _ htext)).mp (hall _ htext) text (List.mem_singleton_self _)
  · intro hquoteless value hvalue
    refine (isScalar_literal_iff (h value hvalue)).mpr fun text htext => hquoteless text ?_
    exact List.mem_singleton.mp htext ▸ hvalue

/-- **A list of values is told to be scalar just if no text in it has a quote.** Then, and
only then, a parameter with a plain name that lists the values is passed on its own,
whichever parameters are beside it. -/
theorem passes_iff_isQuoteless {members : List (String × Json)} {values : List Json}
    (hlists : Lists members values)
    (hne : values ≠ []) (hvalues : ∀ value ∈ values, isListable value = true) :
    ∃ type, Schema.resolve (.object members) = .ok type ∧
      (TypeScript.isScalar type.text = true ↔ IsQuoteless values) ∧
      ∀ (name : String) (parameters : List Parameter) (resolved : List Field),
        fields parameters = .ok resolved → ∀ parameter ∈ parameters,
          parameter.schema.getD parameter.keywords = .object members →
          TypeScript.isVariableName parameter.name = true →
          (Field.argument ⟨parameter, type⟩ ∈ Interface.arguments ⟨name, resolved⟩ ↔
            IsQuoteless values) := by
  have hresolve := Schema.resolve_values hlists.notReferring hlists.notCombined hlists.listed hne
  have hscalar := isScalar_union_iff hne hvalues
  refine ⟨_, hresolve, hscalar,
    fun name parameters resolved hfields parameter hparameter hschema hplain => ?_⟩
  have htype : parameter.type = .ok (.union values) := by rw [Parameter.type, hschema, hresolve]
  have hfield : (⟨parameter, .union values⟩ : Field) ∈ resolved :=
    (mem_fields_iff hfields).mpr ⟨hparameter, htype⟩
  exact (@argument_mem_arguments_iff ⟨name, resolved⟩ _ hfield hplain).trans hscalar

/-- A text with a quote, as the only one that is listed. -/
def apostrophe : List (String × Json) := [("enum", .array [.string "it's"])]

/-- A parameter that lists a text with a quote. -/
def kind : Parameter := ⟨"kind", .query, false, .string "", .object apostrophe, none⟩

/-- A listed text with a quote keeps a parameter with a plain name from being passed on its own. -/
theorem not_passes_apostrophe : TypeScript.isVariableName kind.name = true ∧
    Schema.resolve (.object apostrophe) = .ok (.union [.string "it's"]) ∧
    TypeScript.isScalar (TypeExpr.union [.string "it's"]).text ≠ true ∧
    fields [kind] = .ok [⟨kind, .union [.string "it's"]⟩] ∧
    "kind?: 'it\\'s'" ∉ Interface.arguments ⟨"P", [⟨kind, .union [.string "it's"]⟩]⟩ := by
  have hquote : ¬ IsQuoteless [.string "it's"] :=
    fun h => absurd (h "it's" List.mem_cons_self) (by decide)
  have hname : TypeScript.isVariableName kind.name = true := by decide
  have hunion : Schema.resolve (.object apostrophe) = .ok (.union [.string "it's"]) :=
    Schema.resolve_values rfl rfl rfl (List.cons_ne_nil _ _)
  have hfields : fields [kind] = .ok [⟨kind, .union [.string "it's"]⟩] := by
    exact mapM_eq_ok.mpr (.cons (bind_eq_ok.mpr ⟨_, hunion, rfl⟩) .nil)
  have hargument : Field.argument ⟨kind, .union [.string "it's"]⟩ =
      "kind?: 'it\\'s'" := by decide +kernel
  have hlists : Lists apostrophe [.string "it's"] := ⟨rfl, rfl, rfl⟩
  obtain ⟨type, htype, hscalar, hpasses⟩ :=
    passes_iff_isQuoteless hlists (List.cons_ne_nil _ _) (List.forall_mem_singleton.mpr rfl)
  obtain rfl := Except.ok.inj (hunion.symm.trans htype)
  refine ⟨hname, hunion, fun h => hquote (hscalar.mp h), hfields, fun h => ?_⟩
  rw [← hargument] at h
  exact hquote ((hpasses "P" [kind] _ hfields kind List.mem_cons_self rfl hname).mp h)

/-! ## Names -/

/-- **An argument can be declared just if its name is safe:** it ends in no line feed, has only
characters of names and is not reserved in strict code. -/
theorem isBindable_iff_of_mem_arguments {parameters : List Parameter} {resolved : List Field}
    (h : fields parameters = .ok resolved) {name argument : String}
    (hargument : argument ∈ Interface.arguments ⟨name, resolved⟩) :
    ∃ parameter ∈ parameters, ∃ type, parameter.type = .ok type ∧
      argument = parameter.name ++ TypeExpr.optionalMark (!parameter.required) ++
      ": " ++ type.text ∧
      (TypeScript.IsBindable parameter.name ↔ TypeScript.IsSafe parameter.name) := by
  obtain ⟨field, hfield, rfl, -, hname⟩ := exists_of_mem_arguments hargument
  obtain ⟨hparameter, htype⟩ := (mem_fields_iff h).mp hfield
  exact ⟨field.parameter, hparameter, field.type, htype, rfl,
    TypeScript.isBindable_iff_isSafe hname⟩

/-- A parameter with a name that is reserved in strict code. -/
def package : Parameter :=
  ⟨"package", .query, false, .string "", .object [("type", .string "string")], none⟩

/-- A word that is reserved in strict code is passed on its own. -/
theorem not_isBindable_package : fields [package] = .ok [⟨package, .string⟩] ∧
    "package?: string" ∈ Interface.arguments ⟨"P", [⟨package, .string⟩]⟩ ∧
    ¬ TypeScript.IsBindable package.name := by
  have htype : package.type = .ok .string :=
    Schema.resolve_basic ⟨rfl, rfl, rfl⟩ rfl (by decide) rfl
  have hfields : fields [package] = .ok [⟨package, .string⟩] :=
    mapM_eq_ok.mpr (.cons (bind_eq_ok.mpr ⟨_, htype, rfl⟩) .nil)
  have hargument :
      "package?: string" ∈ Interface.arguments ⟨"P", [⟨package, .string⟩]⟩ := by decide +kernel
  refine ⟨hfields, hargument, fun hbindable => ?_⟩
  obtain ⟨parameter, hparameter, -, -, -, hsafe⟩ :=
    isBindable_iff_of_mem_arguments hfields hargument
  obtain rfl := List.mem_singleton.mp hparameter
  exact (hsafe.mp hbindable).free (by decide)

end ApiClient.Parameter
