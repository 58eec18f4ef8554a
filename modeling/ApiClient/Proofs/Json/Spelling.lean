import ApiClient.Json.Reader.Quoted

/-!
# Spelled texts

A text can be spelled in many ways between its quotes: any character can be written as an
escape. `Spells` relates the characters that stand there to the codes they stand for, and the
reader returns just those codes. A spelling has a quote in it only after a backslash.
-/

namespace ApiClient.Json

/-- Some characters between double quotes spell some codes. -/
inductive Spells : List Char → List Nat → Prop
  | nil : Spells [] []
  /-- A character that stands for itself. -/
  | plain {c : Char} {chars : List Char} {codes : List Nat} : c ≠ '"' → c ≠ '\\' →
      32 ≤ c.toNat → Spells chars codes → Spells (c :: chars) (c.toNat :: codes)
  /-- An escape of one character. -/
  | escape {c : Char} {code : Nat} {chars : List Char} {codes : List Nat} :
      simpleEscape? c = some code → Spells chars codes →
      Spells ('\\' :: c :: chars) (code :: codes)
  /-- An escape of four digits. -/
  | unit {c₁ c₂ c₃ c₄ : Char} {d₁ d₂ d₃ d₄ : Nat} {chars : List Char} {codes : List Nat} :
      Text.hexValue? c₁ = some d₁ → Text.hexValue? c₂ = some d₂ → Text.hexValue? c₃ = some d₃ →
      Text.hexValue? c₄ = some d₄ → Spells chars codes →
      Spells ('\\' :: 'u' :: c₁ :: c₂ :: c₃ :: c₄ :: chars)
        ((((d₁ * 16 + d₂) * 16 + d₃) * 16 + d₄) :: codes)

theorem ne_of_simpleEscape? {c : Char} {code : Nat} (h : simpleEscape? c = some code) :
    c ≠ 'u' := by
  rintro rfl
  cases h

/-- The reader reads what is spelled, up to the closing quote. -/
theorem readCodes_of_spells {chars : List Char} {codes : List Nat} (h : Spells chars codes)
    (opening : List Char) (done : List Nat) (rest : List Char) :
    readCodes opening done .plain (chars ++ '"' :: rest) = .ok (done.reverse ++ codes, rest) := by
  induction h generalizing done with
  | nil => simp [readCodes]
  | @plain c chars codes hquote hslash hcontrol _ ih =>
    have hcode : ¬ c.toNat < 32 := Nat.not_lt.mpr hcontrol
    rw [List.cons_append, readCodes, if_neg hquote, if_neg hslash, if_neg hcode, ih,
      List.reverse_cons, List.append_assoc]
    rfl
  | @escape c code chars codes hescape _ ih =>
    rw [List.cons_append, List.cons_append, readCodes, if_neg (by decide), if_pos rfl, readCodes,
      if_neg (ne_of_simpleEscape? hescape), hescape]
    simp only [ih, List.reverse_cons, List.append_assoc]
    rfl
  | @unit c₁ c₂ c₃ c₄ d₁ d₂ d₃ d₄ chars codes h₁ h₂ h₃ h₄ _ ih =>
    -- the fourth digit is not the end of the text, since the quote is behind it
    have hmore : (chars ++ '"' :: rest).isEmpty = false := by cases chars <;> rfl
    simp only [List.cons_append, readCodes, if_neg (show ¬ '\\' = '"' by decide), if_true, h₁, h₂,
      h₃, h₄, Nat.zero_mul, Nat.zero_add, Nat.lt_irrefl, if_false, hmore,
      show 0 < 3 from by decide, show 1 < 3 from by decide, show 2 < 3 from by decide, ih,
      List.reverse_cons, List.append_assoc]
    rfl

/-! ## Quotes in a spelling -/

/-- A spelling does not begin with a quote. -/
theorem Spells.ne_quote {c : Char} {chars : List Char} {codes : List Nat}
    (h : Spells (c :: chars) codes) : c ≠ '"' := by
  cases h with
  | plain hquote => exact hquote
  | escape => decide
  | unit => decide

/-- Up to its closing quote, a spelling agrees with a text without quotes and backslashes only if
it is that text. -/
theorem Spells.eq_of_append {chars : List Char} {codes : List Nat} (h : Spells chars codes)
    {bare : List Char} (hbare : ∀ c ∈ bare, c ≠ '"' ∧ c ≠ '\\') {rest rest' : List Char}
    (heq : chars ++ '"' :: rest = bare ++ '"' :: rest') : chars = bare ∧ rest = rest' := by
  induction bare generalizing chars codes with
  | nil =>
    cases chars with
    | nil => exact ⟨rfl, (List.cons.inj heq).2⟩
    | cons c chars => exact absurd (List.cons.inj heq).1 h.ne_quote
  | cons b bare ih =>
    have hb := hbare b List.mem_cons_self
    cases h with
    | nil => exact absurd (List.cons.inj heq).1.symm hb.1
    | plain _ _ _ h =>
      obtain ⟨rfl, htail⟩ := List.cons.inj heq
      obtain ⟨rfl, hrest⟩ := ih h (fun c hc => hbare c (List.mem_cons_of_mem _ hc)) htail
      exact ⟨rfl, hrest⟩
    | escape => exact absurd (List.cons.inj heq).1.symm hb.2
    | unit => exact absurd (List.cons.inj heq).1.symm hb.2

/-- Characters without quotes, backslashes and control characters spell themselves. -/
theorem spells_self {chars : List Char}
    (h : ∀ c ∈ chars, c ≠ '"' ∧ c ≠ '\\' ∧ 32 ≤ c.toNat) :
    Spells chars (chars.map Char.toNat) := by
  induction chars with
  | nil => exact .nil
  | cons c chars ih =>
    obtain ⟨hquote, hslash, hcontrol⟩ := h c List.mem_cons_self
    exact .plain hquote hslash hcontrol (ih fun c' hc => h c' (List.mem_cons_of_mem _ hc))

/-- The codes of characters are joined to those characters: no character is half of a pair. -/
theorem joinUnits_map_toNat (chars : List Char) : joinUnits (chars.map Char.toNat) = chars := by
  have hvalid : ∀ c : Char, ¬ (0xD800 ≤ c.toNat ∧ c.toNat < 0xE000) := by
    intro c h
    have := c.valid
    rcases this with h' | ⟨h', _⟩
    · exact absurd (show c.toNat < 0xD800 from h') (by omega)
    · exact absurd (show 0xDFFF < c.toNat from h') (by omega)
  have hone : ∀ c : Char, Char.ofNat c.toNat = c := fun c => Char.ofNat_toNat c
  induction chars with
  | nil => rfl
  | cons c chars ih =>
    have hc := hvalid c
    cases chars with
    | nil => simp only [List.map_cons, List.map_nil, joinUnits, if_neg hc, hone]
    | cons d chars =>
      have hfirst : ¬ (0xD800 ≤ c.toNat ∧ c.toNat < 0xDC00 ∧ 0xDC00 ≤ d.toNat ∧
          d.toNat < 0xE000) := by omega
      rw [List.map_cons] at ih
      simp only [List.map_cons, joinUnits, if_neg hfirst, if_neg hc, hone, ih]

/-- A text as it is spelled between its quotes. -/
structure Spelling where
  chars : List Char
  text : String
  spells : ∃ codes, Spells chars codes ∧ text = String.ofList (joinUnits codes)

namespace Spelling

/-- A text without anything that must be escaped, spelled as it is. -/
def bare (chars : List Char) (h : ∀ c ∈ chars, c ≠ '"' ∧ c ≠ '\\' ∧ 32 ≤ c.toNat) : Spelling where
  chars := chars
  text := String.ofList chars
  spells := ⟨_, spells_self h, by rw [joinUnits_map_toNat]⟩

/-- A spelling between its quotes. -/
def quoted (spelling : Spelling) : List Char := '"' :: spelling.chars ++ ['"']

/-- A spelling between its quotes is read as its text. -/
theorem readText_quoted (spelling : Spelling) (rest : List Char) (complaint : Complaint) :
    ∃ h, readText (spelling.quoted ++ rest) complaint = .ok ⟨spelling.text, rest, h⟩ := by
  obtain ⟨codes, hspells, htext⟩ := spelling.spells
  have hread := readCodes_of_spells hspells (spelling.quoted ++ rest) [] rest
  have hquoted : spelling.quoted ++ rest = '"' :: (spelling.chars ++ '"' :: rest) := by
    simp [quoted]
  rw [hquoted] at hread ⊢
  -- at least the two quotes were read
  have hshorter : rest.length < ('"' :: (spelling.chars ++ '"' :: rest)).length := by
    simp only [List.length_cons, List.length_append]
    omega
  refine ⟨hshorter, ?_⟩
  rw [readText, htext]
  split
  · rename_i codes' after hcodes
    rw [hread] at hcodes
    obtain ⟨rfl, rfl⟩ := Prod.mk.inj (Except.ok.inj hcodes)
    rfl
  · rename_i hcodes
    rw [hread] at hcodes
    cases hcodes

end Spelling

end ApiClient.Json
