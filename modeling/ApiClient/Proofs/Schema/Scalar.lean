import ApiClient.Proofs.Schema.Combined
import ApiClient.Proofs.TypeScript.Recognised

/-!
# Schemas of scalars

Which schemas are told by the printed type to be those of scalars. What is printed has no mark
by which a type could be told apart for certain: a text or a key may look like any of them. But
in the types that schemas have nothing can be taken for a scalar that is none.
-/

namespace ApiClient.Schema

open Json (lookup?)
open TypeScript (TypeExpr Member)

/-! ## Types of schemas -/

/-- A type that a schema can have: a union has values, an intersection has parts, and a name
of the model is made of a key. -/
inductive IsProper : TypeExpr → Prop
  | any : IsProper .any
  | string : IsProper .string
  | number : IsProper .number
  | boolean : IsProper .boolean
  | file : IsProper .file
  | object : IsProper .object
  | model (key : String) : IsProper (.model (TypeScript.typeName key))
  | union {values : List Json} (hne : values ≠ []) : IsProper (.union values)
  | array (item : TypeExpr) : IsProper (.array item)
  | map (value : TypeExpr) : IsProper (.map value)
  | record (members : List (Member TypeExpr)) : IsProper (.record members)
  | intersection {first second : TypeExpr} {others : List TypeExpr}
      (h : ∀ part ∈ first :: second :: others, IsProper part) :
      IsProper (.intersection (first :: second :: others))

theorem isProper_intersectionOf {types : List TypeExpr} (h : ∀ type ∈ types, IsProper type) :
    IsProper (TypeExpr.intersectionOf types) := by
  have hfactors : ∀ type ∈ factors types, IsProper type :=
    fun type htype => h type (List.mem_of_mem_filter htype)
  rw [intersectionOf_eq]
  cases hparts : factors types with
  | nil => exact .any
  | cons first rest =>
    rw [hparts] at hfactors
    cases rest with
    | nil => exact hfactors first List.mem_cons_self
    | cons second others => exact .intersection hfactors

theorem isProper_unionOf (values : List Json) : IsProper (TypeExpr.unionOf values) := by
  unfold TypeExpr.unionOf
  split
  · exact .any
  · rename_i hne
    exact .union fun hnil => hne (List.isEmpty_iff.mpr hnil)

section

variable {members : List (String × Json)} {type : TypeExpr}

theorem isProper_of_basicType? {name : String}
    (h : basicType? name = some type) : IsProper type := by
  unfold basicType? at h
  split at h <;> cases h <;> constructor

theorem isProper_of_resolveRecord (h : resolveRecord members = .ok type) : IsProper type := by
  rw [resolveRecord] at h
  obtain ⟨required, -, h⟩ := bind_eq_ok.mp h
  split at h
  · obtain ⟨fields, -, h⟩ := bind_eq_ok.mp h
    exact pure_eq_ok.mp h ▸ .record fields
  · cases h
  · exact pure_eq_ok.mp h ▸ .record []

theorem isProper_of_resolveMembers {isObject : Bool}
    (h : resolveMembers isObject members = .ok type) : IsProper type := by
  rw [resolveMembers] at h
  split at h
  · split at h
    · obtain ⟨value, -, rfl⟩ := map_eq_ok.mp h
      exact .map value
    · split at h
      · exact isProper_of_resolveRecord h
      · exact Except.ok.inj h ▸ .object
  · exact Except.ok.inj h ▸ .any

theorem isProper_of_reference {value : Json} (h : reference value = .ok type) : IsProper type := by
  obtain ⟨name, hname, rfl⟩ := reference_eq_ok.mp h
  cases value with
  | string path => exact Except.ok.inj hname ▸ .model (afterLastSlash path)
  | null | bool | int | double | array | object => cases hname

/-- A schema has such a type if those that it combines have. -/
theorem Resolves.isProper (h : Resolves members type)
    (hparts : ∀ part type, Part members part → resolve part = .ok type → IsProper type) :
    IsProper type := by
  cases h with
  | reference _ h => exact isProper_of_reference h
  | combined _ hall htypes =>
    refine isProper_intersectionOf fun type htype => ?_
    obtain ⟨part, hmem, hpart⟩ := exists_of_forall₂_right htypes htype
    exact hparts part type (.combined hall hmem) hpart
  | unlisted _ _ _ _ htypes =>
    -- the parts are no objects, and have no type of their own
    refine isProper_intersectionOf fun type htype => ?_
    obtain ⟨other, -, hother⟩ := exists_of_forall₂_right htypes htype
    exact eq_any_of_resolveOther hother ▸ .any
  | @values _ values => exact isProper_unionOf values
  | @items _ item => exact .array item
  | anyItems => exact .array .any
  | basic _ _ _ h => exact isProper_of_basicType? h
  | named _ _ _ _ h => exact isProper_of_resolveMembers h
  | unnamed _ _ h => exact isProper_of_resolveMembers h

end

/-- Every schema has such a type. -/
theorem isProper_of_resolve {schema : Json} {type : TypeExpr}
    (h : resolve schema = .ok type) : IsProper type := by
  -- by induction on the size of the schema, since what it combines are parts of it
  induction hsize : sizeOf schema using Nat.strongRecOn generalizing schema type with
  | ind size ih =>
    by_cases hobject : ∃ members, schema = .object members
    · obtain ⟨members, rfl⟩ := hobject
      refine (resolves_of_resolve h).isProper fun part type hpart hresolve => ?_
      have hsmaller := hpart.sizeOf_lt
      rw [Json.object.sizeOf_spec] at hsize
      exact ih _ (by omega) hresolve rfl
    · exact eq_any_of_resolve h (fun members hmembers => hobject ⟨members, hmembers⟩) ▸ .any

/-! ## Their texts -/

section

variable {type : TypeExpr}

theorem toList_array (item : TypeExpr) :
    (TypeExpr.array item).text.toList = (TypeExpr.grouped item.text).toList ++ ['['] ++ [']'] := by
  show (TypeExpr.grouped item.text ++ "[]").toList = _
  rw [String.toList_append, List.append_assoc]
  rfl

theorem toList_map (value : TypeExpr) : (TypeExpr.map value).text.toList =
    ("\x7b[key: string]: " ++ value.text).toList ++ ['\x7d'] :=
  String.toList_append

theorem toList_record (members : List (Member TypeExpr)) : (TypeExpr.record members).text.toList =
    ("\x7b" ++ "; ".intercalate (TypeExpr.memberTexts members)).toList ++ ['\x7d'] :=
  String.toList_append

theorem toList_model (key : String) : (TypeExpr.model (TypeScript.typeName key)).text.toList =
    "__model.".toList ++ (TypeScript.typeName key).toList :=
  String.toList_append

theorem text_intersection (parts : List TypeExpr) :
    (TypeExpr.intersection parts).text = " & ".intercalate (parts.map TypeExpr.text) :=
  congrArg " & ".intercalate (TypeExpr.texts_eq_map parts)

theorem text_union (values : List Json) :
    (TypeExpr.union values).text = TypeScript.literalUnion values := rfl

/-- A name of the model keeps to the characters of names and points. -/
theorem isPathChar_of_mem_model {key : String} {c : Char}
    (h : c ∈ (TypeExpr.model (TypeScript.typeName key)).text.toList) :
    TypeScript.isPathChar c = true := by
  have hnamespace : "__model.".toList.all TypeScript.isPathChar = true := by decide
  rw [toList_model] at h
  rcases List.mem_append.mp h with h | h
  · exact List.all_eq_true.mp hnamespace c h
  · rw [TypeScript.isPathChar, TypeScript.isNameChar_of_mem_typeName h]
    rfl

theorem isSealed_model (key : String) :
    TypeScript.IsSealed (TypeExpr.model (TypeScript.typeName key)).text :=
  TypeScript.isSealed_of_all (by decide) (toList_model key ▸ List.cons_ne_nil _ _) fun _ =>
  isPathChar_of_mem_model

/-- What is printed leads out of no quotes, and ends in no line feed. -/
theorem isSealed_text (h : IsProper type) : TypeScript.IsSealed type.text := by
  induction h with
  | any | string | number | boolean | file | object =>
    exact TypeScript.isSealed_of_plain (by decide) (by decide)
  | model key => exact isSealed_model key
  | union hne => exact (TypeScript.isLiteral_literalUnion hne).toIsSealed
  | array item => exact TypeScript.isSealed_of_barred (toList_array item) (by decide)
  | map value => exact TypeScript.isSealed_of_barred (toList_map value) (by decide)
  | record members => exact TypeScript.isSealed_of_barred (toList_record members) (by decide)
  | intersection h ih =>
    rw [text_intersection]
    exact .intercalate (by decide) (List.cons_ne_nil _ _) (List.forall_mem_map.mpr ih)

theorem isScalar_model (key : String) :
    TypeScript.isScalar (TypeExpr.model (TypeScript.typeName key)).text = false := by
  have hother : (TypeExpr.model (TypeScript.typeName key)).text ∉ TypeScript.basicTypes :=
    TypeScript.notMem_basicTypes (c := '.') (by rw [toList_model]; simp) (by decide)
  refine TypeScript.isScalar_of_lost ⟨isSealed_model key, hother⟩ fun last hafter => ?_
  rw [toList_model] at hafter
  cases hafter

theorem isScalar_intersection {first second : TypeExpr} {others : List TypeExpr}
    (h : ∀ part ∈ first :: second :: others, IsProper part) :
    TypeScript.isScalar (TypeExpr.intersection (first :: second :: others)).text = false := by
  have hsealed : ∀ text ∈ (first :: second :: others).map TypeExpr.text,
      TypeScript.IsSealed text :=
    List.forall_mem_map.mpr fun part hpart => isSealed_text (h part hpart)
  rw [text_intersection]
  exact TypeScript.isScalar_intercalate hsealed

end

/-- **The printed type tells the scalars.** It is told to be scalar just if the type is a basic
one or a union of values each of which is, whatever texts and keys are printed in it: no
reference is, no array, no map, no object and no intersection. -/
theorem isScalar_text_iff {schema : Json} {type : TypeExpr} (h : resolve schema = .ok type) :
    TypeScript.isScalar type.text = true ↔
      type ∈ [.string, .number, .boolean, .any, .file] ∨ ∃ values,
      values ≠ [] ∧ type = .union values ∧
        ∀ value ∈ values, TypeScript.isScalar (TypeScript.literal value) = true := by
  -- every other kind of type has a mark in its text that no scalar has
  cases isProper_of_resolve h with
  | any | string | number | boolean | file =>
    simp only [List.mem_cons, true_or, or_true, iff_true]
    decide
  | object =>
    have hobject : TypeScript.isScalar TypeExpr.object.text = false := by decide
    simp [hobject]
  | model key => simp [isScalar_model]
  | union hne =>
    rw [text_union, TypeScript.isScalar_literalUnion hne]
    simp [hne]
  | array item => simp [TypeScript.isScalar_of_barred (toList_array item) (by decide)]
  | map value => simp [TypeScript.isScalar_of_barred (toList_map value) (by decide)]
  | record members => simp [TypeScript.isScalar_of_barred (toList_record members) (by decide)]
  | intersection hparts => simp [isScalar_intersection hparts]

/-- A quote and a letter, to be combined. -/
def quoteAndLetter : List (String × Json) :=
  [("allOf", .array [.object [("enum", .array [.string "'"])],
    .object [("enum", .array [.string "a"])]])]

/-- To the automaton the quotes of the letter lie outside, but the
whole is not taken for a union. -/
theorem not_isScalar_quoteAndLetter :
    resolve (.object quoteAndLetter) =
      .ok (.intersection [.union [.string "'"], .union [.string "a"]]) ∧
      (TypeExpr.intersection [.union [.string "'"], .union [.string "a"]]).text = "'\\'' & 'a'" ∧
      TypeScript.isScalar "'\\'' & 'a'" ≠ true := by
  have hquote : resolve (.object [("enum", .array [.string "'"])]) = .ok (.union [.string "'"]) :=
    resolve_values rfl rfl rfl (List.cons_ne_nil _ _)
  have hletter : resolve (.object [("enum", .array [.string "a"])]) = .ok (.union [.string "a"]) :=
    resolve_values rfl rfl rfl (List.cons_ne_nil _ _)
  have hresolve : resolve (.object quoteAndLetter) =
      .ok (.intersection [.union [.string "'"], .union [.string "a"]]) :=
    (resolve_combined_iff rfl rfl).mpr ⟨_, .cons hquote (.cons hletter .nil), rfl⟩
  have htext :
      (TypeExpr.intersection [.union [.string "'"], .union [.string "a"]]).text =
        "'\\'' & 'a'" := by
    decide +kernel
  refine ⟨hresolve, htext, fun hscalar => ?_⟩
  rcases (isScalar_text_iff hresolve).mp (htext ▸ hscalar) with hbasic | ⟨values, -, hunion, -⟩
  · simp at hbasic
  · cases hunion

end ApiClient.Schema
