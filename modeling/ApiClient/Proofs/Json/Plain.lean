import Mathlib.Data.List.TakeWhile
import ApiClient.Json.Reader
import ApiClient.Proofs.Text.Occurrence

/-!
# Words and numerals among other text

A word or a numeral is read up to where it ends, and it ends where a blank, a comma or a closing
bracket stands. What follows from there on has no part in the reading: reading a text and then
appending to what is left is the same as appending first.
-/

namespace ApiClient.Json

/-- A character that can follow a value. -/
def endsValue (c : Char) : Bool := isJsonBlank c || c == ',' || c == ']' || c == '\x7d'

/-- A text before which a value can end. -/
def Ended (rest : List Char) : Prop := ∀ c, rest.head? = some c → endsValue c = true

theorem ended_nil : Ended [] := by
  intro c h
  cases h

theorem ended_cons {c : Char} {rest : List Char} (h : endsValue c = true) : Ended (c :: rest) := by
  intro c' hc
  obtain rfl := Option.some.inj hc
  exact h

/-- Blanks before a text do not keep a value from ending there. -/
theorem ended_append {blanks rest : List Char} (hblanks : ∀ c ∈ blanks, isJsonBlank c = true)
    (h : Ended rest) : Ended (blanks ++ rest) := by
  cases blanks with
  | nil => exact h
  | cons c blanks =>
    refine ended_cons ?_
    rw [endsValue, hblanks c List.mem_cons_self]
    rfl

theorem isJsonBlank_iff {c : Char} :
    isJsonBlank c = true ↔ c = ' ' ∨ c = '\t' ∨ c = '\n' ∨ c = '\r' := by
  simp [isJsonBlank, or_assoc]

/-- A character of a class without blanks is no blank. -/
theorem not_isJsonBlank {p : Char → Bool} {c : Char} (h : p c = true)
    (hp : [' ', '\t', '\n', '\r'].any p = false) : isJsonBlank c = false := by
  cases hc : isJsonBlank c with
  | false => rfl
  | true => exact absurd h (List.any_eq_false.mp hp c (by simpa using isJsonBlank_iff.mp hc))

theorem endsValue_iff {c : Char} : endsValue c = true ↔
    c = ' ' ∨ c = '\t' ∨ c = '\n' ∨ c = '\r' ∨ c = ',' ∨ c = ']' ∨ c = '\x7d' := by
  simp [endsValue, isJsonBlank, or_assoc]

/-! ## What words and numerals are made of -/

/-- A character of words and numerals. -/
def isPlain (c : Char) : Bool := c.isAlphanum || c == '+' || c == '-' || c == '.'

/-- `rest` is left of `text` without some characters of words and numerals. -/
def Leaves (text rest : List Char) : Prop :=
  ∃ chars, text = chars ++ rest ∧ ∀ c ∈ chars, isPlain c = true

theorem Leaves.refl (text : List Char) : Leaves text text :=
  ⟨[], rfl, fun _ h => absurd h List.not_mem_nil⟩

theorem Leaves.trans {text rest rest' : List Char} (h : Leaves text rest)
    (h' : Leaves rest rest') : Leaves text rest' := by
  obtain ⟨chars, rfl, hchars⟩ := h
  obtain ⟨chars', rfl, hchars'⟩ := h'
  refine ⟨chars ++ chars', (List.append_assoc _ _ _).symm, fun c hc => ?_⟩
  rcases List.mem_append.mp hc with hc | hc
  · exact hchars c hc
  · exact hchars' c hc

theorem leaves_cons {c : Char} (hc : isPlain c = true) (rest : List Char) :
    Leaves (c :: rest) rest :=
  ⟨[c], rfl, fun _ h => List.mem_singleton.mp h ▸ hc⟩

theorem isPlain_of_isDigit {c : Char} (h : c.isDigit = true) : isPlain c = true := by
  simp [isPlain, Char.isAlphanum, h]

theorem leaves_dropWhile (text : List Char) : Leaves text (text.dropWhile Char.isDigit) :=
  ⟨text.takeWhile Char.isDigit, List.takeWhile_append_dropWhile.symm, fun _ hc =>
    isPlain_of_isDigit (List.mem_takeWhile_imp hc)⟩

theorem leaves_of_readWord? {text rest : List Char} {value : Json}
    (h : readWord? text = some (value, rest)) : Leaves text rest := by
  obtain ⟨⟨word, found⟩, hmem, hword⟩ := List.exists_of_findSome?_eq_some h
  obtain ⟨rest', hafter, he⟩ := Option.map_eq_some_iff.mp hword
  obtain ⟨_, rfl⟩ := Prod.mk.inj he
  have hchars : ∀ word ∈ wordValues.map (·.1), ∀ c ∈ word.toList, isPlain c = true := by decide
  exact ⟨word.toList, Text.after?_eq_some.mp hafter,
    hchars word (List.mem_map.mpr ⟨_, hmem, rfl⟩)⟩

theorem leaves_of_readWhole? {text whole rest : List Char}
    (h : readWhole? text = some (whole, rest)) : Leaves text rest := by
  unfold readWhole? at h
  split at h
  · cases h
  · rename_i c tail
    split at h
    · rename_i hzero
      obtain ⟨_, rfl⟩ := Prod.mk.inj (Option.some.inj h)
      exact leaves_cons (hzero ▸ by decide) _
    · split at h
      · rename_i hdigit
        obtain ⟨_, rfl⟩ := Prod.mk.inj (Option.some.inj h)
        exact (leaves_cons (isPlain_of_isDigit hdigit) _).trans (leaves_dropWhile _)
      · cases h

theorem leaves_readFraction (text : List Char) : Leaves text (readFraction text).2 := by
  unfold readFraction
  split
  · split
    · exact .refl _
    · exact (leaves_cons (by decide) _).trans (leaves_dropWhile _)
  · exact .refl _

theorem leaves_of_readPower {text rest : List Char} {power : Int}
    (h : readPower text = some (power, rest)) : Leaves text rest := by
  unfold readPower at h
  split at h
  rename_i negative body hbody
  have hsign : Leaves text body := by
    split at hbody
    · obtain ⟨_, rfl⟩ := Prod.mk.inj hbody
      exact leaves_cons (by decide) _
    · obtain ⟨_, rfl⟩ := Prod.mk.inj hbody
      exact leaves_cons (by decide) _
    · obtain ⟨_, rfl⟩ := Prod.mk.inj hbody
      exact .refl _
  split at h
  · cases h
  · obtain ⟨_, rfl⟩ := Prod.mk.inj (Option.some.inj h)
    exact hsign.trans (leaves_dropWhile _)

theorem leaves_readExponent (text : List Char) : Leaves text (readExponent text).2 := by
  unfold readExponent
  split
  · rename_i c rest
    split
    · rename_i he
      split
      · rename_i power after h
        have hc : isPlain c = true := by
          rcases he with rfl | rfl <;> decide
        exact (leaves_cons hc _).trans (leaves_of_readPower h)
      · exact .refl _
    · exact .refl _
  · exact .refl _

theorem leaves_of_readNumeral? {text rest : List Char} {numeral : Numeral}
    (h : readNumeral? text = some (numeral, rest)) : Leaves text rest := by
  unfold readNumeral? at h
  split at h
  rename_i negative body hbody
  have hsign : Leaves text body := by
    split at hbody
    · obtain ⟨_, rfl⟩ := Prod.mk.inj hbody
      exact leaves_cons (by decide) _
    · obtain ⟨_, rfl⟩ := Prod.mk.inj hbody
      exact .refl _
  obtain ⟨⟨whole, afterWhole⟩, hwhole, he⟩ := Option.map_eq_some_iff.mp h
  obtain ⟨_, rfl⟩ := Prod.mk.inj he
  exact hsign.trans ((leaves_of_readWhole? hwhole).trans
    ((leaves_readFraction _).trans (leaves_readExponent _)))

/-- A word or a numeral is made of letters, digits, signs and points. -/
theorem leaves_of_readPlain {text : List Char} {reading : Reading Json text}
    (h : readPlain text = .ok reading) : Leaves text reading.rest := by
  unfold readPlain at h
  split at h
  · rename_i hword
    rw [← Except.ok.inj h]
    exact leaves_of_readWord? hword
  · split at h
    · rename_i hnumeral
      split at h
      · cases h
      · rw [← Except.ok.inj h]
        exact leaves_of_readNumeral? hnumeral
    · cases h

/-! ## What stands after them -/

/-- A text with which no word and no numeral goes on. -/
def Detached (rest : List Char) : Prop := ∀ c, rest.head? = some c → isPlain c = false

theorem Ended.detached {rest : List Char} (h : Ended rest) : Detached rest := by
  intro c hc
  rcases endsValue_iff.mp (h c hc) with rfl | rfl | rfl | rfl | rfl | rfl | rfl <;> decide

theorem Detached.not_digit {rest : List Char} (h : Detached rest) :
    ∀ c, rest.head? = some c → c.isDigit = false := by
  intro c hc
  cases hdigit : c.isDigit with
  | false => rfl
  | true => exact absurd (isPlain_of_isDigit hdigit) (by simp [h c hc])

/-- Such a text begins with none of the characters of words and numerals. -/
theorem Detached.ne {c d : Char} {rest : List Char} (h : Detached (c :: rest))
    (hd : isPlain d = true) : c ≠ d := by
  rintro rfl
  rw [h c rfl] at hd
  cases hd

section

variable {p : Char → Bool} {rest : List Char} (hrest : ∀ c, rest.head? = some c → p c = false)

include hrest

theorem takeWhile_append_of_head (text : List Char) :
    (text ++ rest).takeWhile p = text.takeWhile p := by
  induction text with
  | nil =>
    cases rest with
    | nil => rfl
    | cons c rest => rw [List.nil_append, List.takeWhile_cons_of_neg (by simp [hrest c rfl])]; rfl
  | cons c text ih =>
    rw [List.cons_append, List.takeWhile_cons, List.takeWhile_cons, ih]

theorem dropWhile_append_of_head (text : List Char) :
    (text ++ rest).dropWhile p = text.dropWhile p ++ rest := by
  induction text with
  | nil =>
    cases rest with
    | nil => rfl
    | cons c rest => rw [List.nil_append, List.dropWhile_cons_of_neg (by simp [hrest c rfl])]; rfl
  | cons c text ih =>
    rw [List.cons_append, List.dropWhile_cons, List.dropWhile_cons]
    split
    · exact ih
    · rfl

variable {run : List Char} (hrun : ∀ c ∈ run, p c = true)

include hrun

/-- A run of characters of a kind ends where none of them stands. -/
theorem takeWhile_run : (run ++ rest).takeWhile p = run := by
  rw [takeWhile_append_of_head hrest, List.takeWhile_eq_self_iff.mpr hrun]

theorem dropWhile_run : (run ++ rest).dropWhile p = rest := by
  rw [dropWhile_append_of_head hrest, List.dropWhile_eq_nil_iff.mpr hrun, List.nil_append]

end

/-! ## Marks that are not there -/

/-- What is read of a power of ten behind its sign. -/
def finishPower (negative : Bool) (body : List Char) : Option (Int × List Char) :=
  if (body.takeWhile Char.isDigit).isEmpty then none
  else
    let power : Int := decimalValue (body.takeWhile Char.isDigit)
    some (if negative then -power else power, body.dropWhile Char.isDigit)

/-- What is read of a numeral once its whole digits are. -/
def finishNumeral (negative : Bool) (read : List Char × List Char) : Numeral × List Char :=
  let fraction := readFraction read.2
  let power := readExponent fraction.2
  (⟨negative, read.1, fraction.1, power.1⟩, power.2)

section

variable {c : Char} (text : List Char)

theorem readFraction_pointless (hpoint : c ≠ '.') :
    readFraction (c :: text) = (none, c :: text) := by
  unfold readFraction
  split
  · rename_i h
    exact absurd (List.cons.inj h).1 hpoint
  · rfl

theorem readPower_unsigned (hminus : c ≠ '-') (hplus : c ≠ '+') :
    readPower (c :: text) = finishPower false (c :: text) := by
  unfold readPower
  split
  rename_i negative body h
  split at h
  · rename_i h'
    exact absurd (List.cons.inj h').1 hminus
  · rename_i h'
    exact absurd (List.cons.inj h').1 hplus
  · obtain ⟨rfl, rfl⟩ := Prod.mk.inj h
    rfl

theorem readNumeral?_unsigned (hminus : c ≠ '-') :
    readNumeral? (c :: text) = (readWhole? (c :: text)).map (finishNumeral false) := by
  unfold readNumeral?
  split
  rename_i negative body h
  split at h
  · rename_i h'
    exact absurd (List.cons.inj h').1 hminus
  · obtain ⟨rfl, rfl⟩ := Prod.mk.inj h
    rfl

end

variable {rest : List Char} (hrest : Detached rest)

include hrest

/-! ## Words -/

theorem after?_append {word : List Char} (hword : ∀ c ∈ word, isPlain c = true)
    (text : List Char) :
    Text.after? word (text ++ rest) = (Text.after? word text).map (· ++ rest) := by
  induction word generalizing text with
  | nil => simp [Text.after?]
  | cons w word ih =>
    have hw := hword w List.mem_cons_self
    cases text with
    | nil =>
      -- the text is at its end, and what follows begins with no character of a word
      cases rest with
      | nil => rfl
      | cons c rest =>
        have hne : w ≠ c := (hrest.ne hw).symm
        simp only [List.nil_append, Text.after?, if_neg hne, Option.map_none]
    | cons c text =>
      rw [List.cons_append, Text.after?, Text.after?,
        ih (fun c' hc' => hword c' (List.mem_cons_of_mem _ hc'))]
      split <;> rfl

theorem readWord?_append (text : List Char) :
    readWord? (text ++ rest) = (readWord? text).map fun (value, after) =>
    (value, after ++ rest) := by
  have hwords : ∀ entry ∈ wordValues, ∀ c ∈ entry.1.toList, isPlain c = true := by
    have hchars : ∀ word ∈ wordValues.map (·.1), ∀ c ∈ word.toList, isPlain c = true := by
      decide
    exact fun entry he => hchars _ (List.mem_map_of_mem he)
  unfold readWord?
  -- over any table of words, for the induction
  generalize wordValues = entries at hwords
  induction entries with
  | nil => rfl
  | cons entry entries ih =>
    obtain ⟨word, value⟩ := entry
    rw [List.findSome?_cons, List.findSome?_cons]
    simp only [after?_append hrest (hwords _ List.mem_cons_self)]
    cases Text.after? word.toList text with
    | none => exact ih fun entry' he => hwords entry' (List.mem_cons_of_mem _ he)
    | some after => rfl

/-! ## Numerals -/

theorem readWhole?_append (text : List Char) :
    readWhole? (text ++ rest) =
      (readWhole? text).map fun (whole, after) => (whole, after ++ rest) := by
  have hdigit := hrest.not_digit
  cases text with
  | nil =>
    cases rest with
    | nil => rfl
    | cons c rest =>
      have hc := hdigit c rfl
      have hzero : c ≠ '0' := hrest.ne (by decide)
      have hnot : ¬ c.isDigit = true := by rw [hc]; decide
      simp only [List.nil_append, readWhole?, if_neg hzero, if_neg hnot, Option.map_none]
  | cons c text =>
    rw [List.cons_append, readWhole?, readWhole?, takeWhile_append_of_head hdigit,
      dropWhile_append_of_head hdigit]
    split
    · rfl
    · split <;> rfl

theorem readFraction_append (text : List Char) :
    readFraction (text ++ rest) = ((readFraction text).1, (readFraction text).2 ++ rest) := by
  have hdigit := hrest.not_digit
  cases text with
  | nil =>
    cases rest with
    | nil => rfl
    | cons c rest =>
      rw [List.nil_append, readFraction_pointless rest (hrest.ne (by decide))]
      rfl
  | cons c text =>
    by_cases hpoint : c = '.'
    · subst hpoint
      simp only [List.cons_append, readFraction, takeWhile_append_of_head hdigit,
        dropWhile_append_of_head hdigit]
      split <;> rfl
    · rw [List.cons_append, readFraction_pointless _ hpoint, readFraction_pointless _ hpoint]
      rfl

theorem finishPower_append (negative : Bool) (body : List Char) :
    finishPower negative (body ++ rest) =
    (finishPower negative body).map fun (power, after) => (power, after ++ rest) := by
  have hdigit := hrest.not_digit
  unfold finishPower
  rw [takeWhile_append_of_head hdigit, dropWhile_append_of_head hdigit]
  split <;> rfl

theorem readPower_append (text : List Char) :
    readPower (text ++ rest) = (readPower text).map fun (power, after) =>
    (power, after ++ rest) := by
  cases text with
  | nil =>
    -- behind the end stands neither a sign nor a digit
    cases rest with
    | nil => rfl
    | cons c rest =>
      rw [List.nil_append, readPower_unsigned rest (hrest.ne (by decide)) (hrest.ne (by decide))]
      exact finishPower_append hrest false []
  | cons c text =>
    by_cases hminus : c = '-'
    · subst hminus
      exact finishPower_append hrest true text
    · by_cases hplus : c = '+'
      · subst hplus
        exact finishPower_append hrest false text
      · rw [List.cons_append, readPower_unsigned _ hminus hplus, readPower_unsigned _ hminus hplus]
        exact finishPower_append hrest false (c :: text)

theorem readExponent_append (text : List Char) :
    readExponent (text ++ rest) = ((readExponent text).1, (readExponent text).2 ++ rest) := by
  cases text with
  | nil =>
    cases rest with
    | nil => rfl
    | cons c rest =>
      have hc : ¬ (c = 'e' ∨ c = 'E') := not_or.mpr ⟨hrest.ne (by decide), hrest.ne (by decide)⟩
      rw [List.nil_append, readExponent, if_neg hc]
      rfl
  | cons c text =>
    rw [List.cons_append, readExponent, readExponent, readPower_append hrest]
    split
    · cases readPower text with
      | none => rfl
      | some read => rfl
    · rfl

theorem finishNumeral_append (negative : Bool) (body : List Char) :
    (readWhole? (body ++ rest)).map (finishNumeral negative) =
      ((readWhole? body).map (finishNumeral negative)).map
        fun (numeral, after) => (numeral, after ++ rest) := by
  rw [readWhole?_append hrest]
  cases readWhole? body with
  | none => rfl
  | some read =>
    obtain ⟨whole, afterWhole⟩ := read
    simp only [Option.map_some, finishNumeral, readFraction_append hrest,
      readExponent_append hrest]

theorem readNumeral?_append (text : List Char) :
    readNumeral? (text ++ rest) =
      (readNumeral? text).map fun (numeral, after) => (numeral, after ++ rest) := by
  cases text with
  | nil =>
    cases rest with
    | nil => rfl
    | cons c rest =>
      rw [List.nil_append, readNumeral?_unsigned rest (hrest.ne (by decide))]
      exact finishNumeral_append hrest false []
  | cons c text =>
    by_cases hminus : c = '-'
    · subst hminus
      exact finishNumeral_append hrest true text
    · rw [List.cons_append, readNumeral?_unsigned _ hminus, readNumeral?_unsigned _ hminus]
      exact finishNumeral_append hrest false (c :: text)

/-- A word or a numeral is read from the front of a text as it is read alone. -/
theorem readPlain_append {text after : List Char} {value : Json} {h : after.length < text.length}
    (hread : readPlain text = .ok ⟨value, after, h⟩) :
    ∃ h', readPlain (text ++ rest) = .ok ⟨value, after ++ rest, h'⟩ := by
  have hshorter : (after ++ rest).length < (text ++ rest).length := by
    rw [List.length_append, List.length_append]
    omega
  refine ⟨hshorter, ?_⟩
  unfold readPlain at hread ⊢
  -- a word that is read is read with more behind it; and where none is, none is either
  split at hread
  · rename_i value' after' hword
    obtain ⟨rfl, rfl⟩ := Reading.mk.inj (Except.ok.inj hread)
    have hword' := (readWord?_append hrest text).trans (congrArg _ hword)
    split
    · rename_i hword''
      rw [hword'] at hword''
      obtain ⟨rfl, rfl⟩ := Prod.mk.inj (Option.some.inj hword'')
      rfl
    · rename_i hword''
      rw [hword'] at hword''
      cases hword''
  · rename_i hword
    have hword' := (readWord?_append hrest text).trans (congrArg _ hword)
    split at hread
    · rename_i numeral after' hnumeral
      split at hread
      · cases hread
      · rename_i hlong
        obtain ⟨rfl, rfl⟩ := Reading.mk.inj (Except.ok.inj hread)
        have hnumeral' := (readNumeral?_append hrest text).trans (congrArg _ hnumeral)
        split
        · rename_i hword''
          rw [hword'] at hword''
          cases hword''
        · split
          · rename_i hnumeral''
            rw [hnumeral'] at hnumeral''
            obtain ⟨rfl, rfl⟩ := Prod.mk.inj (Option.some.inj hnumeral'')
            rw [if_neg hlong]
          · rename_i hnumeral''
            rw [hnumeral'] at hnumeral''
            cases hnumeral''
    · cases hread

end ApiClient.Json
