import ApiClient.Proofs.Document.Loss
import ApiClient.Proofs.Json.Compact

/-!
# Placeholders in compact documents

Where a document is written without blanks and needless escapes, a member has the text of a
placeholder just if it has the value of one, and the same holds of references. So what matters
for the rounds can be read off the value of such a document.
-/

namespace ApiClient.Document

open Json
open Written (nameOf Once Tight memberValue memberValue_eq)

/-! ## Placeholders among the members of a value -/

/-- Whether a member holds a type, a title and nothing else, in words of
the letters of placeholders. -/
def isPlaceholder : String × Json → Bool
  | (key, .object [(typeName, .string type), (titleName, .string title)]) =>
    typeName == "type" && titleName == "title" &&
      [key, type, title].all fun word => word.toList.all isPlaceholderLetter
  | _ => false

theorem isPlaceholder_iff {entry : String × Json} :
    isPlaceholder entry = true ↔
      ∃ placeholder : Placeholder, placeholder.Proper ∧
        entry = (placeholder.name, placeholder.object) := by
  constructor
  · intro h
    unfold isPlaceholder at h
    split at h
    · rename_i key typeName type titleName title
      -- two members of the right names, and three words of the right letters
      simp only [Bool.and_eq_true, beq_iff_eq, List.all_cons, List.all_nil, Bool.and_true,
        List.all_eq_true] at h
      obtain ⟨⟨rfl, rfl⟩, hkey, htype, htitle⟩ := h
      refine ⟨⟨key.toList, type.toList, title.toList⟩, ⟨hkey, htype, htitle⟩, ?_⟩
      simp only [Placeholder.name, Placeholder.object, String.ofList_toList]
    · cases h
  · rintro ⟨placeholder, ⟨hkey, htype, htitle⟩, rfl⟩
    simp only [Placeholder.name, Placeholder.object, isPlaceholder, BEq.rfl, Bool.true_and,
      List.all_cons, List.all_nil, Bool.and_true, String.toList_ofList, Bool.and_eq_true,
      List.all_eq_true]
    exact ⟨hkey, htype, htitle⟩

/-- A member that has the text of a placeholder has the value of one. -/
theorem isPlaceholder_of_text {member : Name × Written} {placeholder : Placeholder}
    (h : placeholder? member = some placeholder) : isPlaceholder (memberValue member) = true := by
  obtain ⟨hproper, hcore⟩ := placeholder?_eq_some.mp h
  exact isPlaceholder_iff.mpr ⟨placeholder, hproper, memberValue_of_text hproper hcore⟩

/-! ## Compact members -/

/-- A text in a compact document is written as it should be. -/
theorem quoted_of_tight {written : Written} (h : Tight written) {text : String}
    (hvalue : written.value = .string text) :
    written = .scalar .none (.quoted (.compact text)) := by
  -- of the four forms only a quoted text has a text for its value
  cases h with
  | @plain word =>
    have hatom := word.isAtom_value
    rw [show word.value = .string text from hvalue] at hatom
    cases hatom
  | @quoted text' =>
    obtain rfl : text' = text := Json.string.inj hvalue
    rfl
  | array =>
    rw [Written.value_array] at hvalue
    cases hvalue
  | object =>
    rw [Written.value_object_eq] at hvalue
    cases hvalue

/-- A member that is written without blanks. -/
def TightMember (member : Name × Written) : Prop :=
  (∃ text, member.1 = .compact text) ∧ Tight member.2

/-- The members of a compact object are compact. -/
theorem tightMember_of_mem {padding : Padding} {inner : Blanks} {members : List (Name × Written)}
    (h : Tight (.object padding inner members)) : ∀ member ∈ members, TightMember member :=
  fun member hmember => ⟨h.names member hmember, h.inside member hmember⟩

theorem TightMember.eq {member : Name × Written} (h : TightMember member) :
    member = (.compact (nameOf member), member.2) := by
  obtain ⟨name, written⟩ := member
  obtain ⟨⟨text, rfl⟩, -⟩ := h
  rfl

/-- The text of a member of a compact document. -/
theorem memberCore_compact (text : String) {written : Written} (h : Tight written) :
    memberCore (.compact text, written) =
      (Spelling.compact text).quoted ++ ':' :: written.core := by
  have hnone : Blanks.none.chars = [] := rfl
  have hafter : (Name.compact text).after = .none := rfl
  have hspelling : (Name.compact text).spelling = .compact text := rfl
  rw [memberCore, h.padding, hafter, hspelling, Padding.none, hnone, List.append_nil,
    List.nil_append]

theorem memberText_compact (text : String) {written : Written} (h : Tight written) :
    Written.memberText (.compact text, written) =
      (Spelling.compact text).quoted ++ ':' :: written.core := by
  have hnone : Blanks.none.chars = [] := rfl
  have hbefore : (Name.compact text).before = .none := rfl
  rw [memberText_eq_core, memberCore_compact text h, h.padding, hbefore, Padding.none, hnone,
    List.nil_append, List.append_nil]

theorem quoted_compact {chars : List Char} (h : ∀ c ∈ chars, c ≠ '"' ∧ c ≠ '\\' ∧ 32 ≤ c.toNat) :
    (Spelling.compact (String.ofList chars)).quoted = '"' :: chars ++ ['"'] := by
  rw [Spelling.quoted, Spelling.chars_compact h]

/-- Characters that stand for themselves between double quotes. -/
def Literal (chars : List Char) : Prop := ∀ c ∈ chars, c ≠ '"' ∧ c ≠ '\\' ∧ 32 ≤ c.toNat

instance (chars : List Char) : Decidable (Literal chars) :=
  inferInstanceAs (Decidable (∀ c ∈ chars, c ≠ '"' ∧ c ≠ '\\' ∧ 32 ≤ c.toNat))

theorem literal_of_letters {chars : List Char} (h : ∀ c ∈ chars, isPlaceholderLetter c = true) :
    Literal chars := by
  intro c hc
  obtain ⟨hquote, hslash⟩ := bare_of_letters h c hc
  refine ⟨hquote, hslash, ?_⟩
  have hcontrol : ∀ code < 32, isPlaceholderLetter (Char.ofNat code) = false := by decide
  by_contra hsmall
  have hnot := hcontrol c.toNat (by omega)
  rw [Char.ofNat_toNat, h c hc] at hnot
  cases hnot

/-- The text of a member that is a text. -/
theorem memberText_quoted {member : Name × Written} (h : TightMember member)
    {name text : List Char} (hname : Literal name) (htext : Literal text)
    (hvalue : memberValue member = (String.ofList name, .string (String.ofList text))) :
    Written.memberText member = '"' :: (name ++ '"' :: ':' :: '"' :: (text ++ ['"'])) := by
  rw [memberValue_eq] at hvalue
  obtain ⟨hnameOf, hstring⟩ := Prod.mk.inj hvalue
  have hquoted := quoted_of_tight h.2 hstring
  have hcore : member.2.core = (Spelling.compact (String.ofList text)).quoted := by
    rw [hquoted]
    rfl
  rw [h.eq, memberText_compact _ h.2, hnameOf, hcore, quoted_compact hname, quoted_compact htext]
  simp

/-- The object of a placeholder is written as its body. -/
theorem core_of_object {placeholder : Placeholder} (hproper : placeholder.Proper)
    {written : Written} (h : Tight written) (honce : written.Every Once)
    (hvalue : written.value = placeholder.object) : written.core = placeholder.body := by
  obtain ⟨padding, inner, members, rfl⟩ := object_of_value hvalue
  rw [Written.value_object honce.here, Placeholder.object] at hvalue
  obtain ⟨typeMember, others, rfl, htype, hothers⟩ :=
    List.map_eq_cons_iff.mp (Json.object.inj hvalue)
  obtain ⟨titleMember, others, rfl, htitle, hothers⟩ := List.map_eq_cons_iff.mp hothers
  obtain rfl := List.map_eq_nil_iff.mp hothers
  have htight : ∀ member ∈ [typeMember, titleMember], TightMember member := tightMember_of_mem h
  have htypeWord : Literal "type".toList := by decide
  have htitleWord : Literal "title".toList := by decide
  -- a tight document has one way to write each of them
  have htypeText := memberText_quoted (htight typeMember List.mem_cons_self) htypeWord
    (literal_of_letters hproper.2.1) (by rw [htype, String.ofList_toList])
  have htitleText :=
    memberText_quoted (htight titleMember (List.mem_cons_of_mem _ List.mem_cons_self))
    htitleWord (literal_of_letters hproper.2.2) (by rw [htitle, String.ofList_toList])
  have hinner : inner = .none := by
    cases h
    rfl
  rw [Written.core_object, List.map_cons, List.map_cons, List.map_nil, htypeText,
    htitleText, hinner]
  unfold Placeholder.body
  simp only [Blanks.none, Written.joined, List.flatMap_cons, List.flatMap_nil, List.append_assoc,
    List.cons_append, List.nil_append, List.append_nil]

/-! ## Texts and values -/

/-- A member of a compact document that has the value of a placeholder has its text. -/
theorem text_of_memberValue {placeholder : Placeholder} (hproper : placeholder.Proper)
    {member : Name × Written} (h : TightMember member) (honce : member.2.Every Once)
    (hvalue : memberValue member = (placeholder.name, placeholder.object)) :
    memberCore member = placeholder.text := by
  rw [memberValue_eq] at hvalue
  obtain ⟨hname, hobject⟩ := Prod.mk.inj hvalue
  have hquoted := quoted_compact (literal_of_letters hproper.1)
  rw [h.eq, memberCore_compact _ h.2, hname, Placeholder.name, hquoted,
    core_of_object hproper h.2 honce hobject, Placeholder.text_eq]
  simp only [List.append_assoc, List.cons_append, List.nil_append]

/-- A member is a placeholder just if its value is one. -/
theorem placeholder?_iff {member : Name × Written} (h : TightMember member)
    (honce : member.2.Every Once) {placeholder : Placeholder} :
    placeholder? member = some placeholder ↔
      placeholder.Proper ∧ memberValue member = (placeholder.name, placeholder.object) := by
  rw [placeholder?_eq_some]
  constructor
  · rintro ⟨hproper, hcore⟩
    exact ⟨hproper, memberValue_of_text hproper hcore⟩
  · rintro ⟨hproper, hvalue⟩
    exact ⟨hproper, text_of_memberValue hproper h honce hvalue⟩

theorem literal_target {placeholder : Placeholder} (hproper : placeholder.Proper) :
    Literal placeholder.target := by
  have hahead : Literal "#/definitions/".toList := by decide
  intro c hc
  rcases List.mem_append.mp hc with hc | hc
  · exact hahead c hc
  · exact literal_of_letters hproper.1 c hc

/-- A member of a compact document that has the value of a reference has its text. -/
theorem reference_of_memberValue {placeholder : Placeholder} (hproper : placeholder.Proper)
    {member : Name × Written} (h : TightMember member)
    (hvalue : memberValue member = referenceTo placeholder.name) :
    memberCore member = placeholder.reference := by
  have href : Literal "$ref".toList := by decide
  have htarget : "#/definitions/" ++ placeholder.name = String.ofList placeholder.target := by
    unfold Placeholder.target Placeholder.name
    rw [String.ofList_append, String.ofList_toList]
  have htext := memberText_quoted h href (literal_target hproper) (by
    rw [hvalue, referenceTo, htarget, String.ofList_toList])
  have hcore : memberCore member = Written.memberText member := by
    rw [h.eq, memberCore_compact _ h.2, memberText_compact _ h.2]
  rw [hcore, htext, Placeholder.reference_eq]

/-! ## Properties of every object -/

/-- The members of every object in the parts of a value have a property. -/
def EverywhereInside (P : List (String × Json) → Prop) : Json → Prop
  | .object members => ∀ entry ∈ members, entry.2.Everywhere P
  | value => value.Everywhere P

/-- The members of every object in a document have a property, except that the definitions at
the top need not have it as members. -/
def EverywhereUndefined (P : List (String × Json) → Prop) : Json → Prop
  | .object members => P members ∧ ∀ entry ∈ members,
      if entry.1 = "definitions" then EverywhereInside P entry.2 else entry.2.Everywhere P
  | value => value.Everywhere P

variable {P : List (String × Json) → Prop}

instance [DecidablePred P] (value : Json) : Decidable (EverywhereInside P value) :=
  match value with
  | .object members => inferInstanceAs (Decidable (∀ entry ∈ members, entry.2.Everywhere P))
  | .null => inferInstanceAs (Decidable (Json.null.Everywhere P))
  | .bool value => inferInstanceAs (Decidable ((Json.bool value).Everywhere P))
  | .int value => inferInstanceAs (Decidable ((Json.int value).Everywhere P))
  | .double value => inferInstanceAs (Decidable ((Json.double value).Everywhere P))
  | .string value => inferInstanceAs (Decidable ((Json.string value).Everywhere P))
  | .array items => inferInstanceAs (Decidable ((Json.array items).Everywhere P))

instance [DecidablePred P] (document : Json) : Decidable (EverywhereUndefined P document) :=
  match document with
  | .object members => inferInstanceAs (Decidable (P members ∧ ∀ entry ∈ members,
      if entry.1 = "definitions" then EverywhereInside P entry.2 else entry.2.Everywhere P))
  | .null => inferInstanceAs (Decidable (Json.null.Everywhere P))
  | .bool value => inferInstanceAs (Decidable ((Json.bool value).Everywhere P))
  | .int value => inferInstanceAs (Decidable ((Json.int value).Everywhere P))
  | .double value => inferInstanceAs (Decidable ((Json.double value).Everywhere P))
  | .string value => inferInstanceAs (Decidable ((Json.string value).Everywhere P))
  | .array items => inferInstanceAs (Decidable ((Json.array items).Everywhere P))

/-- What holds of every object in a value holds of every object as it is written. -/
theorem every_of_everywhere {written : Written} (honce : written.Every Once)
    (h : written.value.Everywhere P) : written.Every fun members =>
    P (members.map memberValue) := by
  induction written with
  | scalar => exact .scalar
  | array padding inner items ih =>
    rw [Written.value_array, everywhere_array] at h
    exact .array fun item hitem =>
      ih item hitem (honce.items item hitem) (h _ (List.mem_map_of_mem hitem))
  | object padding inner members ih =>
    rw [Written.value_object honce.here, everywhere_object] at h
    refine .object h.1 fun member hmember => ih member hmember (honce.inside member hmember) ?_
    have hinside := h.2 _ (List.mem_map_of_mem hmember)
    rw [memberValue_eq] at hinside
    exact hinside

/-- What holds in the parts of a value holds in them as they are written. -/
theorem everyInside_of_everywhere {written : Written} (honce : written.Every Once)
    (h : EverywhereInside P written.value) :
    EveryInside (fun members => P (members.map memberValue)) written := by
  cases written with
  | scalar => exact .scalar
  | array padding inner items =>
    rw [Written.value_array, EverywhereInside, ← Written.value_array padding inner] at h
    · exact every_of_everywhere honce h
    · exact fun _ he => Json.noConfusion he
  | object padding inner members =>
    rw [Written.value_object honce.here] at h
    intro member hmember
    refine every_of_everywhere (honce.inside member hmember) ?_
    have hinside := h _ (List.mem_map_of_mem hmember)
    rw [memberValue_eq] at hinside
    exact hinside

/-- What holds of every object but the definitions does so of every object as it is written. -/
theorem everyUndefined_of_everywhere {written : Written} (honce : written.Every Once)
    (h : EverywhereUndefined P written.value) :
    EveryUndefined (fun members => P (members.map memberValue)) written := by
  cases written with
  | scalar => exact .scalar
  | array padding inner items =>
    rw [Written.value_array, EverywhereUndefined, ← Written.value_array padding inner] at h
    · exact every_of_everywhere honce h
    · exact fun _ he => Json.noConfusion he
  | object padding inner members =>
    rw [Written.value_object honce.here] at h
    refine ⟨h.1, fun member hmember => ?_⟩
    have hinside := h.2 _ (List.mem_map_of_mem hmember)
    have honceInside := honce.inside member hmember
    rw [memberValue_eq] at hinside
    -- only the definitions themselves are excepted, not what is inside of them
    by_cases hname : nameOf member = "definitions"
    · rw [if_pos hname] at hinside ⊢
      exact everyInside_of_everywhere honceInside hinside
    · rw [if_neg hname] at hinside ⊢
      exact every_of_everywhere honceInside hinside

end ApiClient.Document
