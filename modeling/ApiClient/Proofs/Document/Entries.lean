import ApiClient.Proofs.Document.Normal
import ApiClient.Proofs.Json.Once

/-!
# The value of a normalised document

A normalised document is read, and then only the values count. Here is what placeholders and
references to them are worth, and what the members of an object are worth after normalising.
-/

namespace ApiClient.Json

/-- Characters without quotes and backslashes spell nothing but themselves. -/
theorem Spells.codes_eq {chars : List Char} {codes : List Nat} (h : Spells chars codes)
    (hbare : ∀ c ∈ chars, c ≠ '"' ∧ c ≠ '\\') : codes = chars.map Char.toNat := by
  induction h with
  | nil => rfl
  | plain _ _ _ _ ih =>
    rw [ih fun c hc => hbare c (List.mem_cons_of_mem _ hc), List.map_cons]
  | escape => exact absurd rfl (hbare _ List.mem_cons_self).2
  | unit => exact absurd rfl (hbare _ List.mem_cons_self).2

theorem Spelling.text_eq {spelling : Spelling} {chars : List Char}
    (hbare : ∀ c ∈ chars, c ≠ '"' ∧ c ≠ '\\') (h : spelling.chars = chars) :
    spelling.text = String.ofList chars := by
  obtain ⟨codes, hspells, htext⟩ := spelling.spells
  rw [h] at hspells
  rw [htext, hspells.codes_eq hbare, joinUnits_map_toNat]

end ApiClient.Json

namespace ApiClient.Document

open Json
open Written (nameOf Once memberValue memberValue_eq)

/-! ## Placeholders and references as values -/

/-- The name under which a placeholder is defined. -/
def Placeholder.name (placeholder : Placeholder) : String := String.ofList placeholder.key

/-- What a placeholder defines. -/
def Placeholder.object (placeholder : Placeholder) : Json :=
  .object [("type", .string (String.ofList placeholder.type)),
    ("title", .string (String.ofList placeholder.title))]

/-- The member that refers to the definition of a name. -/
def referenceTo (name : String) : String × Json := ("$ref", .string ("#/definitions/" ++ name))

/-- The member that stands in the place of a reference. -/
def plainType : String × Json := ("type", .string "object")

variable {placeholders : List Placeholder} {placeholder : Placeholder}

/-- A placeholder is the value of a member that has its text. -/
theorem memberValue_of_text (hproper : placeholder.Proper) {member : Name × Written}
    (h : memberCore member = placeholder.text) :
    memberValue member = (placeholder.name, placeholder.object) := by
  obtain ⟨hname, hdescribes, -⟩ :=
    Placeholder.member_of_ahead hproper (Placeholder.ahead_of_core h [])
  obtain ⟨padding, inner, typeName, typePadding, typeText, titleName, titlePadding, titleText,
    hvalue, htypeName, htitleName, htype, htitle⟩ := hdescribes.shape
  have htypeName : typeName.spelling.text = "type" := Spelling.text_eq (by decide) htypeName
  have htitleName : titleName.spelling.text = "title" := Spelling.text_eq (by decide) htitleName
  have htype := Spelling.text_eq (bare_of_letters hproper.2.1) htype
  have htitle := Spelling.text_eq (bare_of_letters hproper.2.2) htitle
  -- both names of the value are there, and they differ
  have honce : Once [(typeName, Written.scalar typePadding (.quoted typeText)),
      (titleName, Written.scalar titlePadding (.quoted titleText))] := by
    simp [Once, nameOf, htypeName, htitleName]
  rw [memberValue_eq, nameOf, Spelling.text_eq (bare_of_letters hproper.1) hname, hvalue,
    Written.value_object honce, List.map_cons, List.map_cons, List.map_nil, memberValue_eq,
    memberValue_eq, nameOf, nameOf, htypeName, htitleName, Written.value, Written.value,
    Token.value, Token.value, htype, htitle]
  rfl

/-- A reference is the value of a member that has its text. -/
theorem memberValue_of_reference (hproper : placeholder.Proper) {member : Name × Written}
    (h : memberCore member = placeholder.reference) :
    memberValue member = referenceTo placeholder.name := by
  obtain ⟨hname, ⟨padding, spelling, hvalue, hchars⟩, -⟩ :=
    Placeholder.reference_of_ahead hproper (Placeholder.ahead_of_core h [])
  have hbare : Bare "$ref".toList := by decide
  have htarget : String.ofList placeholder.target = "#/definitions/" ++ placeholder.name := by
    unfold Placeholder.target Placeholder.name
    rw [String.ofList_append, String.ofList_toList]
  rw [memberValue_eq, nameOf, Spelling.text_eq hbare hname, hvalue, Written.value, Token.value,
    Spelling.text_eq (Placeholder.bare_target hproper) hchars, htarget, String.ofList_toList]
  rfl

theorem memberValue_inlined (member : Name × Written) :
    memberValue (inlined member) = plainType := by
  have htype : typeSpelling.text = String.ofList "type".toList := rfl
  have hobject : objectSpelling.text = String.ofList "object".toList := rfl
  have hname : nameOf (inlined member) = typeSpelling.text := rfl
  have hvalue : (inlined member).2.value = .string objectSpelling.text := rfl
  rw [memberValue_eq, hname, hvalue, htype, hobject, String.ofList_toList, String.ofList_toList,
    plainType]

/-! ## The members of a normalised object -/

/-- The members that are left in an object. -/
def entriesOf (placeholders : List Placeholder) (members : List (Name × Written)) :
    List (String × Json) :=
  merged ((members.filterMap (normalised placeholders)).map memberValue)

theorem value_normalise_object (padding : Padding) (inner : Blanks)
    (members : List (Name × Written)) :
    (normalise placeholders (.object padding inner members)).value =
      .object (entriesOf placeholders members) := by
  rw [normalise_object, Written.value_object_eq]
  rfl

theorem value_normalise_array (padding : Padding) (inner : Blanks) (items : List Written) :
    (normalise placeholders (.array padding inner items)).value =
      .array (items.map fun item => (normalise placeholders item).value) := by
  have hedit : normalise placeholders (.array padding inner items) =
      .array padding inner (items.map (normalise placeholders)) := edit_array padding inner items
  rw [hedit, Written.value_array, List.map_map]
  rfl

/-- What is left in an object is what a member is worth that is no placeholder. -/
theorem mem_entriesOf {members : List (Name × Written)} {entry : String × Json}
    (h : entry ∈ entriesOf placeholders members) :
    ∃ member ∈ members, memberCore member ∉ texts placeholders ∧
      ((memberCore member ∈ references placeholders ∧ entry = plainType) ∨
        (memberCore member ∉ references placeholders ∧
          entry = (nameOf member, (normalise placeholders member.2).value))) := by
  obtain ⟨edited, hedited, rfl⟩ := List.mem_map.mp (mem_of_mem_merged h)
  obtain ⟨member, hmember, hnormalised⟩ := List.mem_filterMap.mp hedited
  refine ⟨member, hmember, ?_⟩
  rw [normalised] at hnormalised
  -- a placeholder leaves no entry, a reference to one a plain type, and any other member itself
  by_cases htext : memberCore member ∈ texts placeholders
  · rw [if_pos htext] at hnormalised
    cases hnormalised
  · rw [if_neg htext] at hnormalised
    refine ⟨htext, ?_⟩
    by_cases href : memberCore member ∈ references placeholders
    · rw [if_pos href] at hnormalised
      obtain rfl := Option.some.inj hnormalised
      exact .inl ⟨href, memberValue_inlined member⟩
    · rw [if_neg href] at hnormalised
      obtain rfl := Option.some.inj hnormalised
      exact .inr ⟨href, memberValue_eq _⟩

/-- Of a member that is no placeholder something is left. -/
theorem mem_names_entriesOf {members : List (Name × Written)} {member edited : Name × Written}
    (hmember : member ∈ members) (h : normalised placeholders member = some edited) :
    nameOf edited ∈ names (entriesOf placeholders members) := by
  refine mem_names_merged ?_
  rw [Written.names_memberValues]
  exact List.mem_map_of_mem (List.mem_filterMap.mpr ⟨member, hmember, h⟩)

/-- The name of a member that is neither a placeholder nor a reference to one is left. -/
theorem name_mem_entriesOf {members : List (Name × Written)} {member : Name × Written}
    (hmember : member ∈ members) (htext : memberCore member ∉ texts placeholders)
    (href : memberCore member ∉ references placeholders) :
    nameOf member ∈ names (entriesOf placeholders members) := by
  have hnormalised : normalised placeholders member =
      some (member.1, normalise placeholders member.2) := by
    rw [normalised, if_neg htext, if_neg href]
  have hname := mem_names_entriesOf hmember hnormalised
  exact hname

/-- In the place of a reference stands a type. -/
theorem type_mem_entriesOf {members : List (Name × Written)} {member : Name × Written}
    (hmember : member ∈ members) (htext : memberCore member ∉ texts placeholders)
    (href : memberCore member ∈ references placeholders) :
    "type" ∈ names (entriesOf placeholders members) := by
  have hnormalised : normalised placeholders member = some (inlined member) := by
    rw [normalised, if_neg htext, if_pos href]
  have hname : nameOf (inlined member) = "type" := by
    have hvalue := memberValue_inlined member
    rw [memberValue_eq] at hvalue
    exact congrArg Prod.fst hvalue
  rw [← hname]
  exact mem_names_entriesOf hmember hnormalised

section

variable (hproper : ∀ placeholder ∈ placeholders, placeholder.Proper)

include hproper

/-- A member that is looked for as a placeholder is worth one. -/
theorem memberValue_of_mem_texts {member : Name × Written}
    (h : memberCore member ∈ texts placeholders) :
    ∃ placeholder ∈ placeholders, memberValue member = (placeholder.name, placeholder.object) := by
  obtain ⟨placeholder, hmem, htext⟩ := List.mem_map.mp h
  exact ⟨placeholder, hmem, memberValue_of_text (hproper _ hmem) htext.symm⟩

/-- A member that is looked for as a reference is worth one. -/
theorem memberValue_of_mem_references {member : Name × Written}
    (h : memberCore member ∈ references placeholders) :
    ∃ placeholder ∈ placeholders, memberValue member = referenceTo placeholder.name := by
  obtain ⟨placeholder, hmem, htext⟩ := List.mem_map.mp h
  exact ⟨placeholder, hmem, memberValue_of_reference (hproper _ hmem) htext.symm⟩

end

end ApiClient.Document
