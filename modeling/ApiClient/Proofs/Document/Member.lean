import ApiClient.Proofs.Document.Scan

/-!
# Members that are looked for

A placeholder is looked for by its text, and so is a reference to one. Where such a text stands
in a document it is a whole member, for its quotes and brackets can be matched in one way only.
-/

namespace ApiClient.Document

open Json

/-- The text of a member, without the blanks around it. -/
def memberCore (member : Name × Written) : List Char :=
  member.1.spelling.quoted ++ member.1.after.chars ++
    ':' :: (member.2.padding.before.chars ++ member.2.core)

theorem memberText_eq_core (member : Name × Written) :
    Written.memberText member =
      member.1.before.chars ++ memberCore member ++ member.2.padding.after.chars := by
  obtain ⟨name, value⟩ := member
  rw [Written.memberText_eq, Name.text, memberCore, Written.text]
  simp

/-- Characters that spell themselves and of which none is a quote. -/
def Bare (chars : List Char) : Prop := ∀ c ∈ chars, c ≠ '"' ∧ c ≠ '\\'

theorem bare_of_letters {chars : List Char} (h : ∀ c ∈ chars, isPlaceholderLetter c = true) :
    Bare chars := fun c hc => not_quote_of_isNameLetter (by simp [isNameLetter, h c hc])

instance (chars : List Char) : Decidable (Bare chars) :=
  inferInstanceAs (Decidable (∀ c ∈ chars, c ≠ '"' ∧ c ≠ '\\'))

/-- There are no blanks where a text goes on with something else. -/
theorem no_blanks {blanks : Blanks} {c : Char} {rest rest' : List Char}
    (hc : isJsonBlank c = false) (h : blanks.chars ++ rest = c :: rest') :
    blanks.chars = [] ∧ rest = c :: rest' := by
  cases hblanks : blanks.chars with
  | nil =>
    rw [hblanks] at h
    exact ⟨rfl, h⟩
  | cons b tail =>
    rw [hblanks] at h
    have hblank := blanks.blank b (hblanks ▸ List.mem_cons_self)
    rw [(List.cons.inj h).1, hc] at hblank
    cases hblank

/-! ## Reading names and texts off -/

/-- A text that goes on with a bare name begins with that name. -/
theorem name_of_text {name : Name} {chars rest rest' : List Char} (hbare : Bare chars)
    (h : name.spelling.quoted ++ (name.after.chars ++ ':' :: rest) =
      '"' :: (chars ++ '"' :: ':' :: rest')) :
    name.spelling.chars = chars ∧ name.after.chars = [] ∧ rest = rest' := by
  obtain ⟨codes, hspells, -⟩ := name.spelling.spells
  have hquoted : name.spelling.quoted ++ (name.after.chars ++ ':' :: rest) =
      '"' :: (name.spelling.chars ++ '"' :: (name.after.chars ++ ':' :: rest)) := by
    simp [Spelling.quoted]
  rw [hquoted] at h
  obtain ⟨hchars, hafter⟩ := hspells.eq_of_append hbare (List.cons.inj h).2
  obtain ⟨hblanks, hrest⟩ := no_blanks (by decide) hafter
  exact ⟨hchars, hblanks, (List.cons.inj hrest).2⟩

/-- A value whose text goes on with a bare text is that text. -/
theorem quoted_of_text {value : Written} {chars rest rest' : List Char} (hbare : Bare chars)
    (h : value.text ++ rest = '"' :: (chars ++ '"' :: rest')) :
    ∃ padding spelling, value = .scalar padding (.quoted spelling) ∧ padding.before.chars = [] ∧
      spelling.chars = chars ∧ padding.after.chars ++ rest = rest' := by
  rw [Written.text, List.append_assoc, List.append_assoc] at h
  obtain ⟨hbefore, h⟩ := no_blanks (by decide) h
  -- only a text begins with a quote
  cases value with
  | array padding inner items => exact absurd (List.cons.inj h).1 (by decide)
  | object padding inner members => exact absurd (List.cons.inj h).1 (by decide)
  | scalar padding token =>
    cases token with
    | plain word =>
      obtain ⟨c, tail, hchars, hother⟩ := word.cons
      rw [show Written.core (.scalar padding (.plain word)) = c :: tail from hchars] at h
      exact absurd (List.cons.inj h).1 (hother '"' (by decide))
    | quoted spelling =>
      obtain ⟨codes, hspells, -⟩ := spelling.spells
      have htext : Written.core (.scalar padding (.quoted spelling)) ++
          (padding.after.chars ++ rest) =
            '"' :: (spelling.chars ++ '"' :: (padding.after.chars ++ rest)) := by
        show '"' :: spelling.chars ++ ['"'] ++ _ = _
        simp
      have h := htext.symm.trans h
      obtain ⟨hchars, hafter⟩ := hspells.eq_of_append hbare (List.cons.inj h).2
      exact ⟨padding, spelling, rfl, hbefore, hchars, hafter⟩

/-- A member whose text goes on with a bare name and a bare text is those. -/
theorem member_of_text {member : Name × Written} {chars chars' rest rest' : List Char}
    (hchars : Bare chars) (hchars' : Bare chars')
    (h : Written.memberText member ++ rest =
      '"' :: (chars ++ '"' :: ':' :: '"' :: (chars' ++ '"' :: rest'))) :
    ∃ name padding spelling, member = (name, .scalar padding (.quoted spelling)) ∧
      name.spelling.chars = chars ∧ name.before.chars = [] ∧ name.after.chars = [] ∧
      padding.before.chars = [] ∧ spelling.chars = chars' ∧
      padding.after.chars ++ rest = rest' := by
  obtain ⟨name, value⟩ := member
  have hshape : Written.memberText (name, value) ++ rest = name.before.chars ++
      (name.spelling.quoted ++ (name.after.chars ++ ':' :: (value.text ++ rest))) := by
    rw [Written.memberText_eq, Name.text]
    simp
  rw [hshape] at h
  obtain ⟨hblanks, h⟩ := no_blanks (by decide) h
  obtain ⟨hname, hafter, hvalue⟩ := name_of_text hchars h
  obtain ⟨padding, spelling, rfl, hbefore, hspelling, hrest⟩ := quoted_of_text hchars' hvalue
  exact ⟨name, padding, spelling, rfl, hname, hblanks, hafter, hbefore, hspelling, hrest⟩

/-! ## Placeholders -/

namespace Placeholder

/-- A placeholder as they are found: its words are made of the letters of placeholders. -/
def Proper (placeholder : Placeholder) : Prop :=
  (∀ c ∈ placeholder.key, isPlaceholderLetter c = true) ∧
    (∀ c ∈ placeholder.type, isPlaceholderLetter c = true) ∧
      ∀ c ∈ placeholder.title, isPlaceholderLetter c = true

/-- The object of a placeholder. -/
def body (placeholder : Placeholder) : List Char :=
  '\x7b' :: '"' :: ("type".toList ++ '"' :: ':' :: '"' :: (placeholder.type ++
    '"' :: ',' :: '"' :: ("title".toList ++ '"' :: ':' :: '"' :: (placeholder.title ++
      ['"', '\x7d']))))

theorem body_append (placeholder : Placeholder) (rest : List Char) :
    placeholder.body ++ rest =
      '\x7b' :: '"' :: ("type".toList ++ '"' :: ':' :: '"' :: (placeholder.type ++
        '"' :: ',' :: '"' :: ("title".toList ++ '"' :: ':' :: '"' :: (placeholder.title ++
          '"' :: '\x7d' :: rest)))) := by
  simp only [body, List.append_assoc, List.cons_append, List.nil_append]

theorem beforeType_eq :
    beforeType = '"' :: [':', '\x7b', '"', 't', 'y', 'p', 'e', '"', ':', '"'] := rfl

theorem beforeTitle_eq :
    beforeTitle = '"' :: [',', '"', 't', 'i', 't', 'l', 'e', '"', ':', '"'] := rfl

theorem afterTitle_eq : afterTitle = '"' :: ['\x7d'] := rfl

theorem text_eq (placeholder : Placeholder) :
    placeholder.text = '"' :: (placeholder.key ++ '"' :: ':' :: placeholder.body) := by
  have htype : "type".toList = ['t', 'y', 'p', 'e'] := rfl
  have htitle : "title".toList = ['t', 'i', 't', 'l', 'e'] := rfl
  simp only [text, body, beforeType_eq, beforeTitle_eq, afterTitle_eq, htype, htitle,
    List.append_assoc, List.cons_append, List.nil_append]

/-- A value has a type and a title and nothing else, and they are those of a placeholder. -/
structure Describes (placeholder : Placeholder) (value : Written) : Prop where
  shape : ∃ padding inner typeName typePadding typeText titleName titlePadding titleText,
    value = .object padding inner [(typeName, .scalar typePadding (.quoted typeText)),
      (titleName, .scalar titlePadding (.quoted titleText))] ∧
    typeName.spelling.chars = "type".toList ∧ titleName.spelling.chars = "title".toList ∧
    typeText.chars = placeholder.type ∧ titleText.chars = placeholder.title
  core : value.core = placeholder.body

/-- A value whose text goes on with the object of a placeholder is that object. -/
theorem describes_of_core {placeholder : Placeholder} (hproper : placeholder.Proper)
    {value : Written} {rest rest' : List Char}
    (h : value.core ++ rest = placeholder.body ++ rest') : placeholder.Describes value := by
  have htype : Bare placeholder.type := bare_of_letters hproper.2.1
  have htitle : Bare placeholder.title := bare_of_letters hproper.2.2
  have htypeWord : Bare "type".toList := by decide
  have htitleWord : Bare "title".toList := by decide
  cases value with
  | array padding inner items => exact absurd (List.cons.inj h).1 (by decide)
  | scalar padding token =>
    cases token with
    | quoted spelling => exact absurd (List.cons.inj h).1 (by decide)
    | plain word =>
      obtain ⟨c, tail, hchars, hother⟩ := word.cons
      rw [show Written.core (.scalar padding (.plain word)) = c :: tail from hchars] at h
      exact absurd (List.cons.inj h).1 (hother '\x7b' (by decide))
  | object padding inner members =>
    have hcore := h
    rw [Written.core_object, body_append] at h
    simp only [List.append_assoc, List.cons_append, List.nil_append] at h
    obtain ⟨-, hmembers⟩ := no_blanks (by decide) (List.cons.inj h).2
    cases members with
    | nil => exact absurd (List.cons.inj hmembers).1 (by decide)
    | cons typeMember others =>
      -- the first member is the type, and a comma follows it
      simp only [List.map_cons, Written.joined, List.append_assoc] at hmembers
      obtain ⟨typeName, typePadding, typeText, rfl, htypeName, -, -, -, htypeText, hafter⟩ :=
        member_of_text htypeWord htype hmembers
      obtain ⟨-, hafter⟩ := no_blanks (by decide) hafter
      cases others with
      | nil => exact absurd (List.cons.inj hafter).1 (by decide)
      | cons titleMember others =>
        -- the second is the title, and the brace that follows it is the last
        simp only [List.map_cons, List.flatMap_cons, List.append_assoc, List.cons_append] at hafter
        obtain ⟨titleName, titlePadding, titleText, rfl, htitleName, -, -, -,
          htitleText, hclose⟩ :=
          member_of_text htitleWord htitle (List.cons.inj hafter).2
        obtain ⟨-, hclose⟩ := no_blanks (by decide) hclose
        cases others with
        | cons member others => exact absurd (List.cons.inj hclose).1 (by decide)
        | nil =>
          obtain rfl : rest = rest' := (List.cons.inj hclose).2
          exact ⟨⟨padding, inner, typeName, typePadding, typeText, titleName, titlePadding,
            titleText, rfl, htypeName, htitleName, htypeText, htitleText⟩,
            List.append_cancel_right hcore⟩

/-- Where the text of a placeholder is ahead at a name, the member is that placeholder. -/
theorem member_of_ahead {placeholder : Placeholder} (hproper : placeholder.Proper) {name : Name}
    {value : Written} {rest : List Char}
    (h : placeholder.text <+:
      name.spelling.quoted ++ (name.after.chars ++ ':' :: (value.text ++ rest))) :
    name.spelling.chars = placeholder.key ∧ placeholder.Describes value ∧
      memberCore (name, value) = placeholder.text := by
  obtain ⟨rest', h⟩ := h
  have htext : placeholder.text ++ rest' =
      '"' :: (placeholder.key ++ '"' :: ':' :: (placeholder.body ++ rest')) := by
    rw [text_eq]
    simp
  rw [htext] at h
  obtain ⟨hname, hafter, hvalue⟩ := name_of_text (bare_of_letters hproper.1) h.symm
  rw [Written.text, List.append_assoc, List.append_assoc] at hvalue
  obtain ⟨hbefore, hvalue⟩ := no_blanks (by decide) hvalue
  have hdescribes := describes_of_core hproper hvalue
  refine ⟨hname, hdescribes, ?_⟩
  rw [memberCore, hbefore, hafter, hdescribes.core, Spelling.quoted, hname, text_eq]
  simp

/-- What a reference to a placeholder refers to. -/
def target (placeholder : Placeholder) : List Char := "#/definitions/".toList ++ placeholder.key

theorem bare_target {placeholder : Placeholder} (hproper : placeholder.Proper) :
    Bare placeholder.target := by
  have hahead : Bare "#/definitions/".toList := by decide
  intro c hc
  rcases List.mem_append.mp hc with hc | hc
  · exact hahead c hc
  · exact bare_of_letters hproper.1 c hc

theorem reference_eq (placeholder : Placeholder) :
    placeholder.reference =
      '"' :: ("$ref".toList ++ '"' :: ':' :: '"' :: (placeholder.target ++ ['"'])) := by
  have hreference : "\"$ref\":\"#/definitions/".toList =
      '"' :: ("$ref".toList ++ '"' :: ':' :: '"' :: "#/definitions/".toList) := by simp
  unfold reference target
  rw [hreference]
  simp only [List.append_assoc, List.cons_append]

/-- Where a reference is ahead at a name, the member is that reference. -/
theorem reference_of_ahead {placeholder : Placeholder} (hproper : placeholder.Proper) {name : Name}
    {value : Written} {rest : List Char}
    (h : placeholder.reference <+:
      name.spelling.quoted ++ (name.after.chars ++ ':' :: (value.text ++ rest))) :
    name.spelling.chars = "$ref".toList ∧
      (∃ padding spelling, value = .scalar padding (.quoted spelling) ∧
        spelling.chars = placeholder.target) ∧
      memberCore (name, value) = placeholder.reference := by
  obtain ⟨rest', h⟩ := h
  have htext : placeholder.reference ++ rest' =
      '"' :: ("$ref".toList ++ '"' :: ':' :: ('"' :: (placeholder.target ++ '"' :: rest'))) := by
    rw [reference_eq]
    simp only [List.append_assoc, List.cons_append, List.nil_append]
  rw [htext] at h
  have href : Bare "$ref".toList := by decide
  -- the name is told from the reference, then the value
  obtain ⟨hname, hafter, hvalue⟩ := name_of_text href h.symm
  obtain ⟨padding, spelling, rfl, hbefore, hspelling, -⟩ :=
    quoted_of_text (bare_target hproper) hvalue
  refine ⟨hname, ⟨padding, spelling, rfl, hspelling⟩, ?_⟩
  have hcore : Written.core (.scalar padding (.quoted spelling)) =
      '"' :: spelling.chars ++ ['"'] :=
    rfl
  rw [memberCore, hafter, hcore, hspelling, Spelling.quoted, hname, reference_eq]
  simp only [Written.padding, hbefore, List.append_assoc, List.cons_append, List.nil_append]

theorem ahead_of_core {member : Name × Written} {text : List Char}
    (h : memberCore member = text) (rest : List Char) :
    text <+: member.1.spelling.quoted ++
      (member.1.after.chars ++ ':' :: (member.2.text ++ rest)) := by
  refine ⟨member.2.padding.after.chars ++ rest, ?_⟩
  rw [← h, memberCore, Written.text]
  simp

/-- The text of a placeholder is ahead at a name just if the member is that placeholder. -/
theorem text_ahead_iff {placeholder : Placeholder} (hproper : placeholder.Proper) {name : Name}
    {value : Written} {rest : List Char} :
    placeholder.text <+:
        name.spelling.quoted ++ (name.after.chars ++ ':' :: (value.text ++ rest)) ↔
      memberCore (name, value) = placeholder.text :=
  ⟨fun h => (member_of_ahead hproper h).2.2, fun h => ahead_of_core h rest⟩

theorem reference_ahead_iff {placeholder : Placeholder} (hproper : placeholder.Proper)
    {name : Name} {value : Written} {rest : List Char} :
    placeholder.reference <+:
        name.spelling.quoted ++ (name.after.chars ++ ':' :: (value.text ++ rest)) ↔
      memberCore (name, value) = placeholder.reference :=
  ⟨fun h => (reference_of_ahead hproper h).2.2, fun h => ahead_of_core h rest⟩

/-- The text of a placeholder is ahead at a member only if no blanks are before its name. -/
theorem core_of_ahead {placeholder : Placeholder} (hproper : placeholder.Proper)
    {member : Name × Written} {rest : List Char}
    (h : placeholder.text <+: Written.memberText member ++ rest) :
    memberCore member = placeholder.text := by
  obtain ⟨name, value⟩ := member
  have hshape : Written.memberText (name, value) ++ rest = name.before.chars ++
      (name.spelling.quoted ++ (name.after.chars ++ ':' :: (value.text ++ rest))) := by
    rw [Written.memberText_eq, Name.text]
    simp
  obtain ⟨rest', hrest⟩ := h
  rw [hshape, text_eq, List.cons_append] at hrest
  obtain ⟨-, htext⟩ := no_blanks (by decide) hrest.symm
  -- the placeholder begins with its quote, so no blanks are in front of the member
  have hahead : placeholder.text <+:
      name.spelling.quoted ++ (name.after.chars ++ ':' :: (value.text ++ rest)) := by
    refine ⟨rest', ?_⟩
    rw [htext, text_eq, List.cons_append]
  exact (text_ahead_iff hproper).mp hahead

end Placeholder

end ApiClient.Document
