import ApiClient.Json.Render
import ApiClient.Proofs.Json.Once

/-!
# Compact texts

A value can be written without blanks and with no more escapes than it needs. `compact` is its text
then, and `Tight` picks out the written values of that kind.
-/

namespace ApiClient.Json

/-! ## Texts with few escapes -/

/-- What a character becomes between double quotes: itself, where it can stand there. -/
def compactChar (c : Char) : List Char := if c.toNat < 127 then escapeChar c else [c]

theorem Spells.append {chars chars' : List Char} {codes codes' : List Nat} (h : Spells chars codes)
    (h' : Spells chars' codes') : Spells (chars ++ chars') (codes ++ codes') := by
  induction h with
  | nil => exact h'
  | plain hquote hslash hcontrol _ ih => exact .plain hquote hslash hcontrol ih
  | escape hescape _ ih => exact .escape hescape ih
  | unit h₁ h₂ h₃ h₄ _ ih => exact .unit h₁ h₂ h₃ h₄ ih

theorem hexValue?_digitChar {digit : Nat} (h : digit < 16) :
    Text.hexValue? (Nat.digitChar digit) = some digit := by
  have hall : ∀ digit < 16, Text.hexValue? (Nat.digitChar digit) = some digit := by decide
  exact hall digit h

/-- The escape of a unit spells it. -/
theorem spells_unitEscape {code : Nat} (h : code < 0x10000) : Spells (unitEscape code) [code] := by
  have hdigit : ∀ n, Text.hexValue? (Nat.digitChar (n % 16)) = some (n % 16) :=
    fun n => hexValue?_digitChar (Nat.mod_lt n (by omega))
  have hunit := Spells.unit (hdigit (code / 16 / 16 / 16)) (hdigit (code / 16 / 16))
    (hdigit (code / 16)) (hdigit code) .nil
  have hcode : ((code / 16 / 16 / 16 % 16 * 16 + code / 16 / 16 % 16) * 16 + code / 16 % 16) * 16 +
      code % 16 = code := by omega
  rw [hcode] at hunit
  exact hunit

/-- What a character becomes spells it. -/
theorem spells_compactChar (c : Char) : Spells (compactChar c) [c.toNat] := by
  have hone : ∀ {c' : Char}, simpleEscape? c' = some c.toNat → Spells ['\\', c'] [c.toNat] :=
    fun h => .escape h .nil
  unfold compactChar
  by_cases hascii : c.toNat < 127
  · rw [if_pos hascii]
    unfold escapeChar
    dsimp only
    -- marks and the five short escapes have a letter of their own; other characters of ASCII
    -- stand or have four digits
    by_cases hmark : c = '"' ∨ c = '\\'
    · rw [if_pos hmark]
      refine hone ?_
      rcases hmark with rfl | rfl <;> rfl
    · rw [if_neg hmark]
      obtain ⟨hquote, hslash⟩ := not_or.mp hmark
      split
      · exact hone (by subst c; rfl)
      · split
        · exact hone (by subst c; rfl)
        · split
          · exact hone (by subst c; rfl)
          · split
            · rename_i hcode
              exact hone (by rw [hcode]; rfl)
            · split
              · rename_i hcode
                exact hone (by rw [hcode]; rfl)
              · by_cases hplain : 32 ≤ c.toNat ∧ c.toNat < 127
                · rw [if_pos hplain]
                  exact .plain hquote hslash hplain.1 .nil
                · have hunit : c.toNat < 0x10000 := by omega
                  rw [if_neg hplain, if_pos hunit]
                  exact spells_unitEscape hunit
  · rw [if_neg hascii]
    refine .plain ?_ ?_ (by omega) .nil
    · rintro rfl
      exact hascii (by decide)
    · rintro rfl
      exact hascii (by decide)

/-- A text between double quotes with no more escapes than it needs. -/
def Spelling.compact (text : String) : Spelling where
  chars := text.toList.flatMap compactChar
  text := text
  spells := by
    have hspells : ∀ chars : List Char, Spells (chars.flatMap compactChar)
        (chars.map Char.toNat) := by
      intro chars
      induction chars with
      | nil => exact .nil
      | cons c chars ih => exact (spells_compactChar c).append ih
    exact ⟨_, hspells text.toList, by rw [joinUnits_map_toNat, String.ofList_toList]⟩

/-- Letters and the like are never escaped. -/
theorem compactChar_of_bare {c : Char} (hquote : c ≠ '"') (hslash : c ≠ '\\')
    (hcontrol : 32 ≤ c.toNat) : compactChar c = [c] := by
  have hcodes : c ≠ '\n' ∧ c ≠ '\r' ∧ c ≠ '\t' ∧ c.toNat ≠ 8 ∧ c.toNat ≠ 12 := by
    refine ⟨?_, ?_, ?_, by omega, by omega⟩
    all_goals
      rintro rfl
      exact absurd hcontrol (by decide)
  unfold compactChar
  by_cases hascii : c.toNat < 127
  · rw [if_pos hascii]
    unfold escapeChar
    dsimp only
    rw [if_neg (not_or.mpr ⟨hquote, hslash⟩), if_neg hcodes.1, if_neg hcodes.2.1,
      if_neg hcodes.2.2.1, if_neg hcodes.2.2.2.1, if_neg hcodes.2.2.2.2, if_pos ⟨hcontrol, hascii⟩]
  · rw [if_neg hascii]

theorem Spelling.chars_compact {chars : List Char}
    (h : ∀ c ∈ chars, c ≠ '"' ∧ c ≠ '\\' ∧ 32 ≤ c.toNat) :
    (Spelling.compact (String.ofList chars)).chars = chars := by
  show (String.ofList chars).toList.flatMap compactChar = chars
  rw [String.toList_ofList]
  induction chars with
  | nil => rfl
  | cons c chars ih =>
    obtain ⟨hquote, hslash, hcontrol⟩ := h c List.mem_cons_self
    rw [List.flatMap_cons, compactChar_of_bare hquote hslash hcontrol,
      ih fun c' hc => h c' (List.mem_cons_of_mem _ hc)]
    rfl

theorem eq_of_quote_mem_compactChar {c : Char} (h : '"' ∈ compactChar c) : c = '"' := by
  have hascii : ∀ code < 127, '"' ∈ compactChar (Char.ofNat code) →
      Char.ofNat code = '"' := by decide
  by_cases hcode : c.toNat < 127
  · rw [← Char.ofNat_toNat c] at h ⊢
    exact hascii _ hcode h
  · rw [compactChar, if_neg hcode] at h
    exact (List.mem_singleton.mp h).symm

/-- A text without quotes is written without quotes. -/
theorem quote_notMem_compact {text : String} (h : '"' ∉ text.toList) :
    '"' ∉ (Spelling.compact text).chars := by
  intro hmem
  obtain ⟨c, hc, hquote⟩ := List.mem_flatMap.mp hmem
  obtain rfl := eq_of_quote_mem_compactChar hquote
  exact h hc

/-! ## Values without blanks -/

/-- A text as JSON text. -/
def compactText (text : String) : List Char := '"' :: text.toList.flatMap compactChar ++ ['"']

mutual

/-- A value as JSON text without blanks, and with no more escapes than it needs. -/
def compact : Json → List Char
  | null => "null".toList
  | bool true => "true".toList
  | bool false => "false".toList
  | int value => (toString value).toList
  | double value => (value.text renderedDoubles).toList
  | string value => compactText value
  | array items => '[' :: Written.joined (compactItems items) ++ [']']
  | object members => '\x7b' :: Written.joined (compactMembers members) ++ ['\x7d']
termination_by structural value => value

/-- The items of a list as JSON texts. -/
def compactItems : List Json → List (List Char)
  | [] => []
  | item :: rest => compact item :: compactItems rest
termination_by structural items => items

/-- The members of an object as JSON texts. -/
def compactMembers : List (String × Json) → List (List Char)
  | [] => []
  | entry :: rest => compactMember entry :: compactMembers rest
termination_by structural members => members

/-- One member as JSON text. -/
def compactMember : String × Json → List Char
  | (name, value) => compactText name ++ ':' :: compact value
termination_by structural entry => entry

end

/-- A name without blanks, and with no more escapes than it needs. -/
def Name.compact (text : String) : Name := ⟨.none, .compact text, .none⟩

namespace Written

/-- A value is written without blanks, and the texts in it with no more escapes than they need. -/
inductive Tight : Written → Prop where
  | plain {word : Plain} : Tight (.scalar .none (.plain word))
  | quoted {text : String} : Tight (.scalar .none (.quoted (.compact text)))
  | array {items : List Written} : (∀ item ∈ items, Tight item) → Tight (.array .none .none items)
  | object {members : List (Name × Written)} :
      (∀ member ∈ members, ∃ text, member.1 = .compact text) →
      (∀ member ∈ members, Tight member.2) → Tight (.object .none .none members)

namespace Tight

theorem padding {written : Written} (h : Tight written) : written.padding = .none := by
  cases h <;> rfl

theorem items {padding : Padding} {inner : Blanks} {items : List Written}
    (h : Tight (.array padding inner items)) : ∀ item ∈ items, Tight item := by
  cases h with
  | array h => exact h

theorem names {padding : Padding} {inner : Blanks} {members : List (Name × Written)}
    (h : Tight (.object padding inner members)) :
    ∀ member ∈ members, ∃ text, member.1 = .compact text := by
  cases h with
  | object h _ => exact h

theorem inside {padding : Padding} {inner : Blanks} {members : List (Name × Written)}
    (h : Tight (.object padding inner members)) : ∀ member ∈ members, Tight member.2 := by
  cases h with
  | object _ h => exact h

end Tight

end Written

end ApiClient.Json
