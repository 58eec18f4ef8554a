import ApiClient.Proofs.Method.Reads

/-!
# Variants that take one plain argument

A policy can ask that a method of one plain parameter be followed by a variant, which takes the
parameter on its own and hands it on in an object. Whether it asks is looked at last, when all
the rest of a method is settled. So what is compiled with variants is what is compiled without
them, and a variant behind it where the method can have one.
-/

namespace ApiClient.Method

open TypeScript (TypeExpr)

/-- The policy that asks for variants or does not, and is otherwise the same. -/
def Policy.withVariants (policy : Policy) (unwrap : Bool) : Policy := { policy with unwrap }

/-- The parameter is the only one that is kept, and it can be an argument of its own: its type
is scalar, and a variable can have its name. -/
structure IsAlone (kept : List Parameter) (parameter : Parameter) (type : TypeExpr) : Prop where
  only : kept = [parameter]
  typed : parameter.type = .ok type
  scalar : TypeScript.isScalar type.text = true
  named : TypeScript.isVariableName parameter.name = true

/-- The variant for a parameter: an argument of its name, which can be left out unless it is
required, and a call of the method with an object that has this name only. -/
def variantText (method : Method) (parameter : Parameter) (type : TypeExpr) : String :=
  let argument := parameter.name ++ (if parameter.required then "" else "?") ++ ": " ++ type.text
  let object := "\x7b" ++ parameter.name ++ "\x7d"
  let call := "return this." ++ method.name ++ "(" ++ object ++ ");"
  "\n" ++ method.name ++ "_" ++ "(" ++ argument ++ "): Observable<" ++ method.response.type ++
    "> \x7b\n" ++ Text.indent call 1 ++ "\n" ++ "\x7d\n"

/-- What is compiled with variants, beside what is compiled without them. -/
structure OnlyAppends (policy : Policy) (method : Method) (plain code : Code) : Prop where
  /-- Both are of the same method, with the same names and the same response. -/
  described : code.method = plain.method
  declarations : code.declarations = plain.declarations
  groups : code.groups = plain.groups
  usesModel : code.usesModel = plain.usesModel
  /-- Behind the method there is a variant just if a parameter is alone, and nothing else. -/
  appended : ∃ suffix, code.text = plain.text ++ suffix ∧
    (suffix ≠ "" ↔ ∃ parameter type, IsAlone (kept policy method) parameter type) ∧
    ∀ parameter type, IsAlone (kept policy method) parameter type →
      suffix = variantText method parameter type

/-! ## When there is a variant -/

section

variable {policy : Policy} {method : Method} {code : Code}

/-- A parameter that is kept alone is declared alone. -/
theorem Compiled.fields_of_only (hcode : Compiled policy method code) {parameter : Parameter}
    (honly : kept policy method = [parameter]) :
    ∃ type, parameter.type = .ok type ∧ code.declared.fields = [⟨parameter, type⟩] := by
  have hdeclared := mapM_eq_ok.mp hcode.declared
  rw [honly] at hdeclared
  obtain ⟨field, rest, hfield, hrest, hfields⟩ := List.forall₂_cons_left_iff.mp hdeclared
  obtain rfl := List.forall₂_nil_left_iff.mp hrest
  obtain ⟨type, htype, hfield⟩ := bind_eq_ok.mp hfield
  exact ⟨type, htype, hfields.trans (by rw [← pure_eq_ok.mp hfield])⟩

theorem Compiled.fields_of_isAlone (hcode : Compiled policy method code) {parameter : Parameter}
    {type : TypeExpr} (halone : IsAlone (kept policy method) parameter type) :
    code.declared.fields = [⟨parameter, type⟩] := by
  obtain ⟨type', htype, hfields⟩ := hcode.fields_of_only halone.only
  obtain rfl := Except.ok.inj (halone.typed.symm.trans htype)
  exact hfields

/-- What a variant is made for is a parameter that is alone. -/
theorem Compiled.isAlone_iff (hcode : Compiled policy method code) :
    ((kept policy method).length == 1 && !code.declared.arguments.isEmpty) = true ↔
      ∃ parameter type, IsAlone (kept policy method) parameter type := by
  rw [Bool.and_eq_true, beq_iff_eq, List.length_eq_one_iff, Bool.not_eq_true']
  constructor
  · rintro ⟨⟨parameter, honly⟩, harguments⟩
    obtain ⟨type, htype, hfields⟩ := hcode.fields_of_only honly
    -- with one field the list of arguments is empty just if the field is not positional
    have hpositional : Parameter.Field.isPositional ⟨parameter, type⟩ = true := by
      by_contra hnot
      simp [Parameter.Interface.arguments, hfields, hnot] at harguments
    obtain ⟨hscalar, hnamed⟩ := Bool.and_eq_true_iff.mp hpositional
    exact ⟨parameter, type, honly, htype, hscalar, hnamed⟩
  · rintro ⟨parameter, type, halone⟩
    have hpositional : Parameter.Field.isPositional ⟨parameter, type⟩ = true :=
      Bool.and_eq_true_iff.mpr ⟨halone.scalar, halone.named⟩
    refine ⟨⟨parameter, halone.only⟩, ?_⟩
    simp [Parameter.Interface.arguments, hcode.fields_of_isAlone halone, hpositional]

/-- The text of a variant is made of the parameter that is alone. -/
theorem Compiled.unwrappedText_eq (hcode : Compiled policy method code) {parameter : Parameter}
    {type : TypeExpr} (halone : IsAlone (kept policy method) parameter type)
    (hunwrapped : code.unwrapped = true) :
    code.unwrappedText = variantText method parameter type := by
  have hpositional : Parameter.Field.isPositional ⟨parameter, type⟩ = true :=
    Bool.and_eq_true_iff.mpr ⟨halone.scalar, halone.named⟩
  have harguments : code.declared.arguments = [Parameter.Field.argument ⟨parameter, type⟩] := by
    simp [Parameter.Interface.arguments, hcode.fields_of_isAlone halone, hpositional]
  have hmark : Parameter.Field.mark ⟨parameter, type⟩ =
      if parameter.required then "" else "?" := by
    unfold Parameter.Field.mark TypeExpr.optionalMark
    cases parameter.required <;> rfl
  unfold Code.unwrappedText variantText
  rw [if_pos hunwrapped, harguments, hcode.fields_of_isAlone halone, hcode.described]
  simp only [Code.opening, Parameter.Field.argument, List.map_cons, List.map_nil, hmark,
    String.intercalate_singleton, String.append_assoc]

theorem variantText_ne_empty (method : Method) (parameter : Parameter) (type : TypeExpr) :
    variantText method parameter type ≠ "" := by
  intro h
  have hchars := congrArg String.toList h
  unfold variantText at hchars
  simp only [String.toList_append] at hchars
  cases hchars

end

/-! ## Compiling with variants and without -/

/-- What a policy says about variants is all that differs, and it has a say at the end only. -/
theorem compile_withVariants (policy : Policy) (method : Method) (unwrap : Bool) :
    compile (policy.withVariants unwrap) method =
      (compile (policy.withVariants false) method).map fun code => { code with
        unwrapped :=
          unwrap && ((kept policy method).length == 1 && !code.declared.arguments.isEmpty) } := by
  unfold compile Policy.withVariants kept
  dsimp only
  -- nothing but the last step asks for variants
  generalize (policy.allowed.lookup method.verb).getD [] = allowed
  generalize Parameter.retained allowed _ = retained
  simp only [Bool.and_assoc]
  cases Parameter.fields retained with
  | error misuse => rfl
  | ok fields =>
    generalize (List.mapM _ (Parameter.groups allowed retained) : Except Misuse _) = statements
    cases statements with
    | error misuse => rfl
    | ok statements =>
      cases Arguments.ofGroups (Parameter.groups allowed retained) method.verb policy.sources with
      | error misuse => rfl
      | ok arguments => rfl

/-- **Variants are only appended.** Whether or not a policy asks for them a method fails alike,
or it is compiled to the same, with a variant behind it just if the method keeps one parameter
that can be an argument of its own. -/
theorem onlyAppends_compile (policy : Policy) (method : Method) :
    (∃ misuse, compile (policy.withVariants false) method = .error misuse ∧
      compile (policy.withVariants true) method = .error misuse) ∨
    ∃ plain code, compile (policy.withVariants false) method = .ok plain ∧
      compile (policy.withVariants true) method = .ok code ∧
      OnlyAppends policy method plain code := by
  have hboth := compile_withVariants policy method true
  cases hplain : compile (policy.withVariants false) method with
  | error misuse => exact .inl ⟨misuse, rfl, by rw [hboth, hplain]; rfl⟩
  | ok plain =>
    rw [hplain, Except.map] at hboth
    refine .inr ⟨plain, _, rfl, hboth, rfl, rfl, rfl, rfl, ?_⟩
    have hcode := compiled_of_compile hboth
    have halone : ((kept policy method).length == 1 && !plain.declared.arguments.isEmpty) = true ↔
        ∃ parameter type, IsAlone (kept policy method) parameter type :=
      (compiled_of_compile hplain).isAlone_iff
    -- without variants there is nothing behind the method
    have htext : plain.text = plain.mainText := by
      have hnone : plain.unwrapped = false := (compiled_of_compile hplain).unwrapped
      rw [Code.text, Code.unwrappedText, hnone]
      exact String.append_empty
    rw [htext]
    refine ⟨_, rfl, ⟨fun hne => ?_, ?_⟩, ?_⟩
    · by_contra hnot
      exact hne (if_neg (mt halone.mp hnot))
    · rintro ⟨parameter, type, h⟩
      rw [hcode.unwrappedText_eq h (halone.mpr ⟨parameter, type, h⟩)]
      exact variantText_ne_empty method parameter type
    · exact fun parameter type h => hcode.unwrappedText_eq h (halone.mpr ⟨parameter, type, h⟩)

/-- The variant of a method that takes a name. -/
example : variantText
    ⟨"/pets/{name}", "getPet", "get", "", .void, .null, .null, "", none⟩
    ⟨"name", .path, true, .null, .object [("type", .string "string")], none⟩ .string =
    "\ngetPet_(name: string): Observable<void> \x7b\n" ++
      "  return this.getPet(\x7bname\x7d);\n\x7d\n" := by
  decide +kernel

end ApiClient.Method
