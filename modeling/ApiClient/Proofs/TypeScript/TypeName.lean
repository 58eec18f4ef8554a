import ApiClient.Proofs.Text.Casing
import ApiClient.TypeScript.TypeName

/-!
# The characters of a type name

A type name is made of the word characters of a key, with an underscore before a digit in
front and the first character in upper case. A capital need not be a word character: that of
some letters is a letter with marks. But it is a letter of ASCII or it lies beyond the
control characters, so a type name begins with no digit, and whatever the key is, the name of
its type says nothing to a path.
-/

namespace ApiClient

namespace Text

/-- A control character: it steers what is shown, and shows nothing itself. -/
def isControl (c : Char) : Bool := c.toNat < 0x20 || (0x7F ≤ c.toNat && c.toNat < 0xA0)

/-- A character that says nothing to a path: no slash, no dot and no control character. -/
def IsPathFree (c : Char) : Prop := c ≠ '/' ∧ c ≠ '.' ∧ isControl c = false

instance (c : Char) : Decidable (IsPathFree c) := inferInstanceAs (Decidable (_ ∧ _))

/-- Beyond the last control characters no character says anything to a path. -/
theorem isPathFree_of_le {c : Char} (h : 0xA0 ≤ c.toNat) : IsPathFree c := by
  refine ⟨?_, ?_, ?_⟩
  · rintro rfl
    exact absurd h (by decide)
  · rintro rfl
    exact absurd h (by decide)
  · simp only [isControl, Bool.or_eq_false_iff, Bool.and_eq_false_iff, decide_eq_false_iff_not]
    omega

theorem isPathFree_of_isAlphanum {c : Char} (h : c.isAlphanum = true) : IsPathFree c := by
  have hbounds : 0x30 ≤ c.toNat ∧ c.toNat < 0x7F := by
    unfold Char.isAlphanum Char.isAlpha Char.isUpper Char.isLower Char.isDigit at h
    simp [UInt32.le_iff_toNat_le] at h
    omega
  refine ⟨?_, ?_, ?_⟩
  · rintro rfl
    exact absurd h (by decide)
  · rintro rfl
    exact absurd h (by decide)
  · simp only [isControl, Bool.or_eq_false_iff, Bool.and_eq_false_iff, decide_eq_false_iff_not]
    omega

/-- What a name can begin with: a letter, an underscore, or a character
beyond the control characters. -/
def IsLetter (c : Char) : Prop := c.isAlpha = true ∨ c = '_' ∨ 0xA0 ≤ c.toNat

instance (c : Char) : Decidable (IsLetter c) := inferInstanceAs (Decidable (_ ∨ _))

theorem isPathFree_of_isLetter {c : Char} (h : IsLetter c) : IsPathFree c := by
  rcases h with h | rfl | h
  · exact isPathFree_of_isAlphanum (by rw [Char.isAlphanum, h, Bool.true_or])
  · decide
  · exact isPathFree_of_le h

/-- A word character is a letter unless it is a digit of ASCII. -/
theorem isLetter_of_isWordCharacter {c : Char} (h : isWordCharacter c = true)
    (hdigit : c.isDigit = false) : IsLetter c := by
  have hfirst : ∀ range ∈ wordRanges, 0xA0 ≤ range.1 := by decide +kernel
  simp only [isWordCharacter, Char.isAlphanum, hdigit, Bool.or_false, Bool.or_eq_true,
    Bool.and_eq_true, beq_iff_eq] at h
  -- a letter, the underscore, or a character of a range beyond ASCII
  rcases h with (h | h) | ⟨-, h⟩
  · exact .inl h
  · exact .inr (.inl h)
  · obtain ⟨range, hrange, h⟩ := List.any_eq_true.mp h
    simp only [Bool.and_eq_true, decide_eq_true_eq] at h
    exact .inr (.inr (Nat.le_trans (hfirst range hrange) h.1))

/-! ## Capitals -/

/-- A run leads beyond the last control characters, or it is one letter with a capital in ASCII. -/
def UppercaseRun.LeadsToLetter (run : UppercaseRun) : Prop :=
  (0xA0 ≤ run.target ∧ run.target + (run.last - run.first) < 0xD800) ∨
  (0xE000 ≤ run.target ∧ run.target + (run.last - run.first) < 0x110000) ∨
  run.first = run.last ∧ (run.target = 'I'.toNat ∨ run.target = 'S'.toNat)

instance (run : UppercaseRun) : Decidable run.LeadsToLetter := inferInstanceAs (Decidable (_ ∨ _))

/-- A number that is the code of a character is the code of its character. -/
theorem toNat_ofNat {n : Nat} (h : n.isValidChar) : (Char.ofNat n).toNat = n := by
  rw [Char.ofNat, dif_pos h]
  rfl

theorem isLetter_of_image? {run : UppercaseRun} (h : run.LeadsToLetter) {code image : Nat}
    (himage : run.image? code = some image) : IsLetter (Char.ofNat image) := by
  unfold UppercaseRun.image? at himage
  split at himage
  · obtain ⟨hfirst, hlast, -⟩ := ‹_ ∧ _›
    obtain rfl := Option.some.inj himage
    -- either bound keeps the image clear of the surrogates, where no character has its code
    rcases h with h | h | ⟨hone, h⟩
    · refine .inr (.inr ?_)
      rw [toNat_ofNat (.inl (by omega))]
      omega
    · refine .inr (.inr ?_)
      rw [toNat_ofNat (.inr (by omega))]
      omega
    · have hnone : code - run.first = 0 := by omega
      rw [hnone]
      rcases h with h | h <;> rw [h] <;> decide
  · cases himage

theorem uppercase_ne_nil (c : Char) : uppercase c ≠ [] := by
  have hsequences : ∀ row ∈ uppercaseSequences, row.2 ≠ [] := by decide +kernel
  unfold uppercase
  split
  · exact List.cons_ne_nil _ _
  · split
    · rename_i codes hcodes
      obtain ⟨_, _, hrows, -⟩ := List.lookup_eq_some_iff.mp hcodes
      have hne := hsequences (c.toNat, codes) (hrows ▸ List.mem_append_right _ List.mem_cons_self)
      simpa using hne
    · split <;> exact List.cons_ne_nil _ _

/-- The capital of a word character is made of letters, unless the
character is a digit of ASCII. -/
theorem isLetter_of_mem_uppercase {c d : Char} (h : isWordCharacter c = true)
    (hdigit : c.isDigit = false) (hd : d ∈ uppercase c) : IsLetter d := by
  have hsequences : ∀ row ∈ uppercaseSequences, ∀ code ∈ row.2, IsLetter (Char.ofNat code) := by
    decide +kernel
  have hruns : ∀ run ∈ uppercaseRuns, run.LeadsToLetter := by decide +kernel
  -- the tables are followed in their order: ASCII, capitals of several
  -- characters, runs, and no capital
  unfold uppercase at hd
  split at hd
  · rename_i hascii
    obtain rfl := List.mem_singleton.mp hd
    rw [isWordCharacter_of_lt hascii, Char.isAlphanum, hdigit, Bool.or_false, Bool.or_eq_true,
      beq_iff_eq] at h
    rcases h with h | rfl
    · exact .inl ((Text.isAlpha_toUpper c).trans h)
    · decide
  · split at hd
    · rename_i codes hcodes
      obtain ⟨code, hcode, rfl⟩ := List.mem_map.mp hd
      obtain ⟨_, _, hrows, -⟩ := List.lookup_eq_some_iff.mp hcodes
      exact hsequences _ (hrows ▸ List.mem_append_right _ List.mem_cons_self) code hcode
    · split at hd
      · rename_i code hcode
        obtain rfl := List.mem_singleton.mp hd
        obtain ⟨run, hrun, himage⟩ := List.exists_of_findSome?_eq_some hcode
        exact isLetter_of_image? (hruns run hrun) himage
      · obtain rfl := List.mem_singleton.mp hd
        exact isLetter_of_isWordCharacter h hdigit

end Text

namespace TypeScript

/-- What the guard gives begins with no digit, and is made of word
characters if it was given such. -/
theorem guardDigit_cons {chars : List Char} (h : ∀ c ∈ chars, Text.isWordCharacter c = true)
    {first : Char} {rest : List Char} (hguard : guardDigit chars = first :: rest) :
    first.isDigit = false ∧ ∀ c ∈ first :: rest, Text.isWordCharacter c = true := by
  cases chars with
  | nil => cases hguard
  | cons c chars =>
    rw [guardDigit] at hguard
    split at hguard
    · obtain ⟨rfl, rfl⟩ := List.cons.inj hguard
      exact ⟨by decide, List.forall_mem_cons.mpr ⟨by decide +kernel, h⟩⟩
    · rename_i hdigit
      obtain ⟨rfl, rfl⟩ := List.cons.inj hguard
      refine ⟨?_, h⟩
      rw [Bool.not_eq_true, Text.isDigit, Text.isDecimalDigit] at hdigit
      simp only [Bool.or_eq_false_iff] at hdigit
      exact hdigit.1.1

/-- A type name is empty, or it begins with a letter and is made of letters and digits. -/
theorem typeName_cases (key : String) : typeName key = "" ∨ ∃ first rest,
    (typeName key).toList = first :: rest ∧ Text.IsLetter first ∧
      ∀ c ∈ rest, Text.IsLetter c ∨ c.isDigit = true := by
  have hfilter : ∀ c ∈ key.toList.filter Text.isWordCharacter, Text.isWordCharacter c = true :=
    fun c hc => (List.mem_filter.mp hc).2
  rw [typeName]
  cases hguard : guardDigit (key.toList.filter Text.isWordCharacter) with
  | nil => exact .inl rfl
  | cons c chars =>
    right
    obtain ⟨hdigit, hword⟩ := guardDigit_cons hfilter hguard
    obtain ⟨hfirst, hchars⟩ := List.forall_mem_cons.mp hword
    obtain ⟨first, others, hupper⟩ := List.exists_cons_of_ne_nil (Text.uppercase_ne_nil c)
    have hletters : ∀ d ∈ first :: others, Text.IsLetter d := fun d hd =>
      Text.isLetter_of_mem_uppercase hfirst hdigit (hupper ▸ hd)
    refine ⟨first, others ++ chars, ?_, hletters first List.mem_cons_self, fun d hd => ?_⟩
    · rw [String.toList_ofList, Text.upperFirstChars, hupper, List.cons_append]
    rcases List.mem_append.mp hd with hd | hd
    · exact .inl (hletters d (List.mem_cons_of_mem _ hd))
    · cases hdigit : d.isDigit with
      | true => exact .inr rfl
      | false => exact .inl (Text.isLetter_of_isWordCharacter (hchars d hd) hdigit)

/-- **A type name says nothing to a path,** whatever the key is. -/
theorem isPathFree_of_mem_typeName {key : String} {c : Char} (h : c ∈ (typeName key).toList) :
    Text.IsPathFree c := by
  rcases typeName_cases key with hempty | ⟨first, rest, hname, hfirst, hrest⟩
  · rw [hempty] at h
    cases h
  · rw [hname] at h
    rcases List.mem_cons.mp h with rfl | h
    · exact Text.isPathFree_of_isLetter hfirst
    · rcases hrest c h with h | h
      · exact Text.isPathFree_of_isLetter h
      · exact Text.isPathFree_of_isAlphanum (by rw [Char.isAlphanum, h, Bool.or_true])

end TypeScript

end ApiClient
