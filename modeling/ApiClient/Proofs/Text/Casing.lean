import ApiClient.Text.Casing
import Mathlib.Data.List.SplitBy
import Mathlib.Data.Set.Function

/-!
# What camel case leaves of a text

Camel case keeps the letters and digits of a text and nothing else, and it begins with
no capital. So giving a name in camel case a capital loses nothing: the first character
can be read off again, as the same letter in lower case. A text with a letter or a
digit is not lost as a whole.
-/

namespace ApiClient.Text

/-! ## Characters -/

/-- Letters and digits are ASCII. -/
theorem toNat_lt_of_isAlphanum {c : Char} (h : c.isAlphanum = true) : c.toNat < 128 := by
  unfold Char.isAlphanum Char.isAlpha Char.isUpper Char.isLower Char.isDigit at h
  simp only [Bool.or_eq_true, Bool.and_eq_true, decide_eq_true_eq] at h
  rcases h with (⟨-, h⟩ | ⟨-, h⟩) | ⟨-, h⟩
  all_goals exact Nat.lt_of_le_of_lt (UInt32.le_iff_toNat_le.mp h) (by decide)

theorem isAlpha_of_isLower {c : Char} (h : c.isLower = true) : c.isAlpha = true := by
  unfold Char.isAlpha
  rw [h, Bool.or_true]

theorem isAlphanum_of_isAlpha {c : Char} (h : c.isAlpha = true) : c.isAlphanum = true := by
  rw [Char.isAlphanum, h, Bool.true_or]

theorem isAlphanum_of_isDigit {c : Char} (h : c.isDigit = true) : c.isAlphanum = true := by
  rw [Char.isAlphanum, h, Bool.or_true]

/-- No letter is a digit. -/
theorem isDigit_of_isAlpha {c : Char} (h : c.isAlpha = true) : c.isDigit = false := by
  have hletter : 'A'.val ≤ c.val := by
    unfold Char.isAlpha Char.isUpper Char.isLower at h
    simp only [Bool.or_eq_true, Bool.and_eq_true, decide_eq_true_eq] at h
    rcases h with ⟨h, -⟩ | ⟨h, -⟩
    · exact h
    · exact UInt32.le_trans (by decide) h
  rw [Char.isDigit, Bool.and_eq_false_iff]
  exact .inr (decide_eq_false (UInt32.not_le.mpr (UInt32.lt_of_lt_of_le (by decide) hletter)))

/-- What is true of the characters of ASCII, and of those that neither have another case nor are
letters or digits, is true of every character. -/
theorem forall_char {P : Char → Prop} (hascii : ∀ n < 128, P (Char.ofNat n))
    (hother : ∀ c : Char, c.toLower = c → c.toUpper = c → c.isAlphanum = false → P c)
    (c : Char) : P c := by
  by_cases h : c.toNat < 128
  · rw [← Char.ofNat_toNat c]
    exact hascii _ h
  · have hbeyond : ∀ d : Char, d.toNat < 128 → ¬ c.val ≤ d.val := fun d hd hle =>
      h (Nat.lt_of_le_of_lt (UInt32.le_iff_toNat_le.mp hle) hd)
    have hnone : ¬ c.isAlphanum = true := fun halpha => h (toNat_lt_of_isAlphanum halpha)
    exact hother c (dif_neg fun hle => hbeyond 'Z' (by decide) hle.2)
      (dif_neg fun hle => hbeyond 'z' (by decide) hle.2) (Bool.eq_false_iff.mpr hnone)

theorem isDigit_toLower : ∀ c : Char, c.toLower.isDigit = c.isDigit :=
  forall_char (by decide +kernel) fun c hlower _ _ => by rw [hlower]

theorem isAlphanum_toLower {c : Char} : c.isAlphanum = true → c.toLower.isAlphanum = true :=
  forall_char (P := fun c => c.isAlphanum = true → c.toLower.isAlphanum = true) (by decide +kernel)
    (fun c hlower _ _ => by rw [hlower]; exact id) c

theorem isAlphanum_toUpper {c : Char} : c.isAlphanum = true → c.toUpper.isAlphanum = true :=
  forall_char (P := fun c => c.isAlphanum = true → c.toUpper.isAlphanum = true) (by decide +kernel)
    (fun c _ hupper _ => by rw [hupper]; exact id) c

theorem isAlpha_toUpper : ∀ c : Char, c.toUpper.isAlpha = c.isAlpha :=
  forall_char (by decide +kernel) fun c _ hupper _ => by rw [hupper]

theorem isUpper_of_isAlphanum {c : Char} (h : c.isAlphanum = false) : c.isUpper = false := by
  unfold Char.isAlphanum Char.isAlpha at h
  simp only [Bool.or_eq_false_iff] at h
  exact h.1.1

theorem isUpper_toLower : ∀ c : Char, c.toLower.isUpper = false :=
  forall_char (by decide +kernel) fun c hlower _ hnone => by
    rw [hlower, isUpper_of_isAlphanum hnone]

theorem isUpper_of_isLower : ∀ c : Char, c.isLower = true → c.isUpper = false :=
  forall_char (by decide +kernel) fun _ _ _ hnone _ => isUpper_of_isAlphanum hnone

theorem toUpper_toLower : ∀ c : Char, c.toLower.toUpper = c.toUpper :=
  forall_char (by decide +kernel) fun c hlower _ _ => by rw [hlower]

theorem toLower_toUpper : ∀ c : Char, c.isUpper = false → c.toUpper.toLower = c :=
  forall_char (by decide +kernel) fun c hlower hupper _ _ => by rw [hupper, hlower]

/-- Characters that are no capitals have different capitals. -/
theorem toUpper_injOn : Set.InjOn Char.toUpper {c | c.isUpper = false} := by
  intro c hc d hd h
  rw [← toLower_toUpper c hc, ← toLower_toUpper d hd, h]

/-! ## Words -/

theorem isAlphanum_of_mem_words {text word : List Char} (h : word ∈ words text) :
    ∀ c ∈ word, c.isAlphanum = true :=
  List.all_eq_true.mp (List.mem_filter.mp h).2

theorem ne_nil_of_mem_words {text word : List Char} (h : word ∈ words text) : word ≠ [] :=
  List.ne_nil_of_mem_splitBy (List.mem_filter.mp h).1

/-- In a run of more than one character that belong to one word, all are letters and digits. -/
theorem isAlphanum_of_chain {c : Char} {rest : List Char}
    (h : (c :: rest).IsChain fun left right => inOneWord left right = true)
    (hc : c.isAlphanum = true) : ∀ d ∈ c :: rest, d.isAlphanum = true := by
  induction rest generalizing c with
  | nil => simpa using hc
  | cons d rest ih =>
    obtain ⟨hword, hrest⟩ := List.isChain_cons_cons.mp h
    have hd : d.isAlphanum = true := by
      simp only [inOneWord, Bool.and_eq_true] at hword
      exact hword.1.2
    intro e he
    rcases List.mem_cons.mp he with rfl | he
    · exact hc
    · exact ih hrest hd e he

/-- A run in which a letter or a digit stands has nothing else. -/
theorem isAlphanum_of_mem_run {text run : List Char}
    (hrun : run ∈ text.splitBy inOneWord) {c : Char}
    (hc : c ∈ run) (h : c.isAlphanum = true) : ∀ d ∈ run, d.isAlphanum = true := by
  have hchain := List.isChain_of_mem_splitBy hrun
  cases run with
  | nil => exact absurd rfl (List.ne_nil_of_mem_splitBy hrun)
  | cons first rest =>
    -- what stands first in the run is a letter or a digit, whether or not it
    -- is the one that is given
    have hfirst : first.isAlphanum = true := by
      cases rest with
      | nil =>
        obtain rfl := List.mem_singleton.mp hc
        exact h
      | cons second rest =>
        have hword := (List.isChain_cons_cons.mp hchain).1
        simp only [inOneWord, Bool.and_eq_true] at hword
        exact hword.1.1
    exact isAlphanum_of_chain hchain hfirst

/-- The words of a text have its letters and digits, in order. -/
theorem flatten_words (text : List Char) : (words text).flatten = text.filter Char.isAlphanum := by
  have hruns : ∀ runs : List (List Char), (∀ run ∈ runs, run ∈ text.splitBy inOneWord) →
      (runs.filter (·.all Char.isAlphanum)).flatten = runs.flatten.filter Char.isAlphanum := by
    intro runs h
    induction runs with
    | nil => rfl
    | cons run runs ih =>
      obtain ⟨hrun, hruns⟩ := List.forall_mem_cons.mp h
      rw [List.flatten_cons, List.filter_append, ← ih hruns, List.filter_cons]
      split
      · rename_i hall
        rw [List.flatten_cons, List.filter_eq_self.mpr (List.all_eq_true.mp hall)]
      · rename_i hall
        have hnone : run.filter Char.isAlphanum = [] := List.filter_eq_nil_iff.mpr fun c hc h =>
          hall (List.all_eq_true.mpr (isAlphanum_of_mem_run hrun hc h))
        rw [hnone, List.nil_append]
  rw [words, hruns _ fun _ h => h, List.flatten_splitBy]

/-- A letter or a digit is in some word. -/
theorem words_ne_nil {text : List Char} {c : Char} (hc : c ∈ text) (h : c.isAlphanum = true) :
    words text ≠ [] := by
  intro hnil
  have hmem : c ∈ (words text).flatten := flatten_words text ▸ List.mem_filter.mpr ⟨hc, h⟩
  rw [hnil] at hmem
  cases hmem

/-! ## Camel case -/

/-- Letters and digits of which the first is no capital. -/
structure IsCamel (name : List Char) : Prop where
  alphanum : ∀ c ∈ name, c.isAlphanum = true
  head : ∀ c, name.head? = some c → c.isUpper = false

theorem isAlphanum_lowerWord {word : List Char} (h : ∀ c ∈ word, c.isAlphanum = true) :
    ∀ c ∈ lowerWord word, c.isAlphanum = true := by
  intro c hc
  obtain ⟨d, hd, rfl⟩ := List.mem_map.mp hc
  exact isAlphanum_toLower (h d hd)

theorem isAlphanum_capitalize {word : List Char} (h : ∀ c ∈ word, c.isAlphanum = true) :
    ∀ c ∈ capitalize word, c.isAlphanum = true := by
  cases word with
  | nil => exact h
  | cons first rest =>
    intro c hc
    rcases List.mem_cons.mp hc with rfl | hc
    · exact isAlphanum_toUpper (h first List.mem_cons_self)
    · exact h c (List.mem_cons_of_mem _ hc)

theorem isCamel_joinCamel {parts : List (List Char)} (hne : ∀ part ∈ parts, part ≠ [])
    (h : ∀ part ∈ parts, ∀ c ∈ part, c.isAlphanum = true) : IsCamel (joinCamel parts) := by
  cases parts with
  | nil => exact ⟨by simp [joinCamel], by simp [joinCamel]⟩
  | cons first rest =>
    constructor
    · intro c hc
      rcases List.mem_append.mp hc with hc | hc
      · exact isAlphanum_lowerWord (h first List.mem_cons_self) c hc
      · obtain ⟨word, hword, hc⟩ := List.mem_flatten.mp hc
        obtain ⟨part, hpart, rfl⟩ := List.mem_map.mp hword
        have hlower := isAlphanum_lowerWord (h part (List.mem_cons_of_mem _ hpart))
        exact isAlphanum_capitalize hlower c hc
    · obtain ⟨d, word, rfl⟩ := List.exists_cons_of_ne_nil (hne first List.mem_cons_self)
      intro c hc
      obtain rfl := Option.some.inj hc
      exact isUpper_toLower d

/-- **Camel case leaves letters and digits, and no capital in front.** -/
theorem isCamel_camelCase (text : String) : IsCamel (camelCase text).toList := by
  rw [camelCase, String.toList_ofList]
  exact isCamel_joinCamel (fun _ => ne_nil_of_mem_words) fun _ => isAlphanum_of_mem_words

/-- Something is left of a text that has a letter or a digit. -/
theorem camelCase_ne_empty {text : String} {c : Char} (hc : c ∈ text.toList)
    (h : c.isAlphanum = true) : (camelCase text).toList ≠ [] := by
  obtain ⟨word, rest, hwords⟩ := List.exists_cons_of_ne_nil (words_ne_nil hc h)
  have hne : word ≠ [] := ne_nil_of_mem_words (hwords ▸ List.mem_cons_self)
  rw [camelCase, String.toList_ofList, hwords, joinCamel]
  intro hnil
  exact hne (List.map_eq_nil_iff.mp (List.append_eq_nil_iff.mp hnil).1)

/-- The first letter or digit of a text begins it in camel case, and a
letter does so in lower case. -/
theorem head?_camelCase (text : String) :
    (camelCase text).toList.head? = (text.toList.find? Char.isAlphanum).map Char.toLower := by
  rw [← List.head?_filter, ← flatten_words, camelCase, String.toList_ofList]
  cases hwords : words text.toList with
  | nil => rfl
  | cons word rest =>
    obtain ⟨c, chars, rfl⟩ :=
      List.exists_cons_of_ne_nil (ne_nil_of_mem_words (hwords ▸ List.mem_cons_self))
    rfl

/-- The first letter or digit of a text begins it in Pascal case, as a capital. -/
theorem head?_pascalCase (text : String) :
    (pascalCase text).toList.head? = (text.toList.find? Char.isAlphanum).map Char.toUpper := by
  have hcapital : ∀ name : List Char, (capitalize name).head? = name.head?.map Char.toUpper := by
    intro name
    cases name <;> rfl
  have hcamel := head?_camelCase text
  rw [camelCase, String.toList_ofList] at hcamel
  rw [pascalCase, String.toList_ofList, hcapital, hcamel, Option.map_map]
  exact congrArg (Option.map · _) (funext toUpper_toLower)

/-! ## A capital in front -/

/-- A capital in front is put before what follows. -/
theorem upperFirst_append {suffix : String} (h : upperFirst suffix = suffix) (text : String) :
    upperFirst (text ++ suffix) = upperFirst text ++ suffix := by
  apply String.toList_injective
  cases htext : text.toList with
  | nil =>
    obtain rfl := String.toList_eq_nil_iff.mp htext
    rw [String.empty_append, h]
    rfl
  | cons c rest => simp [upperFirst, htext, upperFirstChars]

/-- Names that begin with no capital are different with a capital in front. -/
theorem upperFirst_injOn :
    Set.InjOn upperFirst {name | ∃ c rest, name.toList = c :: rest ∧ c.toNat < 128 ∧
      c.isUpper = false} := by
  rintro name ⟨c, rest, hname, hascii, hupper⟩ name' ⟨d, rest', hname', hascii', hupper'⟩ h
  have hchars := congrArg String.toList h
  simp only [upperFirst, String.toList_ofList, hname, hname', upperFirstChars,
    uppercase_of_lt hascii, uppercase_of_lt hascii', List.cons_append, List.nil_append] at hchars
  obtain ⟨hfirst, rfl⟩ := List.cons.inj hchars
  apply String.toList_injective
  rw [hname, hname', toUpper_injOn hupper hupper' hfirst]

end ApiClient.Text
