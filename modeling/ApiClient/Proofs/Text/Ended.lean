import ApiClient.Proofs.Text.Indented
import Mathlib.Data.List.DropRight
import Mathlib.Data.List.TakeWhile

/-!
# Lines and their ends

A text is taken apart at every kind of line break, and a break stands in none of its
lines. So lines that are put under one another, each with a line feed behind it, are the
lines of the text that they make. They can be moved right one by one, and what stands in
that text stands in one of them.
-/

namespace ApiClient.Text

/-! ## Lines of a text -/

/-- A text begins with its first line. -/
theorem prefix_of_head?_lines {text first : List Char} (h : (lines text).head? = some first) :
    first <+: text := by
  fun_induction lines text generalizing first with
  | case1 => cases h
  | case2 rest ih =>
    obtain rfl := Option.some.inj h
    exact List.nil_prefix
  | case3 c rest _ _ ih =>
    obtain rfl := Option.some.inj h
    exact List.nil_prefix
  | case4 c rest _ _ hrest ih =>
    obtain rfl := Option.some.inj h
    exact List.prefix_append [c] rest
  | case5 c rest _ _ line more hrest ih =>
    obtain rfl := Option.some.inj h
    exact List.cons_prefix_cons.mpr ⟨rfl, ih (by rw [hrest]; rfl)⟩

/-- Every line stands in its text. -/
theorem infix_of_mem_lines {text line : List Char} (h : line ∈ lines text) : line <:+: text := by
  fun_induction lines text with
  | case1 => cases h
  | case2 rest ih =>
    rcases List.mem_cons.mp h with rfl | h
    · exact List.nil_infix
    · exact (ih h).trans (List.suffix_append ['\r', '\n'] rest).isInfix
  | case3 c rest _ _ ih =>
    rcases List.mem_cons.mp h with rfl | h
    · exact List.nil_infix
    · exact (ih h).trans (List.suffix_cons c rest).isInfix
  | case4 c rest _ _ hrest ih =>
    obtain rfl := List.mem_singleton.mp h
    exact (List.prefix_append [c] rest).isInfix
  | case5 c rest _ _ first more hrest ih =>
    rcases List.mem_cons.mp h with rfl | h
    · -- the first line has grown by a character, and only as a prefix does it grow with its text
      have hfirst : first <+: rest := prefix_of_head?_lines (by rw [hrest]; rfl)
      exact (List.cons_prefix_cons.mpr ⟨rfl, hfirst⟩).isInfix
    · exact (ih (hrest ▸ List.mem_cons_of_mem _ h)).trans (List.suffix_cons c rest).isInfix

/-- No line holds a break. -/
theorem not_isLineBreak_of_mem_lines {text line : List Char} (h : line ∈ lines text) :
    ∀ c ∈ line, isLineBreak c = false := by
  -- the last two cases are the characters of a line; the others break it
  fun_induction lines text generalizing line with
  | case1 => cases h
  | case2 rest ih =>
    rcases List.mem_cons.mp h with rfl | h
    · exact fun c hc => absurd hc List.not_mem_nil
    · exact ih h
  | case3 c rest _ _ ih =>
    rcases List.mem_cons.mp h with rfl | h
    · exact fun c hc => absurd hc List.not_mem_nil
    · exact ih h
  | case4 c rest _ hbreak hrest ih =>
    obtain rfl := List.mem_singleton.mp h
    intro d hd
    obtain rfl := List.mem_singleton.mp hd
    exact Bool.eq_false_iff.mpr hbreak
  | case5 c rest _ hbreak first more hrest ih =>
    rcases List.mem_cons.mp h with rfl | h
    · intro d hd
      rcases List.mem_cons.mp hd with rfl | hd
      · exact Bool.eq_false_iff.mpr hbreak
      · exact ih (hrest ▸ List.mem_cons_self) d hd
    · exact ih (hrest ▸ List.mem_cons_of_mem _ h)

/-- Only the empty text has no lines. -/
theorem lines_eq_nil_iff {text : List Char} : lines text = [] ↔ text = [] := by
  constructor
  · intro h
    fun_induction lines text with
    | case1 => rfl
    | case2 | case3 | case4 | case5 => cases h
  · rintro rfl
    rfl

/-- A character that is no break stands in the first line. -/
theorem lines_cons {c : Char} (h : isLineBreak c = false) (text : List Char) :
    lines (c :: text) = match lines text with
      | [] => [[c]]
      | line :: more => (c :: line) :: more := by
  have hreturn : c ≠ '\r' := by
    rintro rfl
    exact absurd h (by decide)
  rw [lines.eq_3 c text fun _ hc _ => hreturn hc, h]
  rfl

/-! ## Trimming -/

/-- What is left of a text whose end is trimmed is its front. -/
theorem trimEnd_prefix (text : List Char) : trimEnd text <+: text :=
  List.rdropWhile_prefix isBlank text

/-- Nothing is left of a text just if it shows nothing. -/
theorem trim_eq_nil_iff {text : List Char} : trim text = [] ↔ ∀ c ∈ text, isBlank c = true := by
  have hend : trim text = [] ↔ ∀ c ∈ text.dropWhile isBlank, isBlank c = true :=
    List.rdropWhile_eq_nil_iff
  rw [hend]
  constructor
  · intro h
    rw [← List.takeWhile_append_dropWhile (p := isBlank) (l := text)]
    intro c hc
    rcases List.mem_append.mp hc with hc | hc
    · exact List.mem_takeWhile_imp hc
    · exact h c hc
  · intro h c hc
    exact h c ((List.dropWhile_suffix isBlank).subset hc)

/-! ## Ended lines -/

/-- Lines under one another, with a line feed behind each. -/
def ended (lines : List (List Char)) : List Char := lines.flatMap fun line => line ++ ['\n']

theorem ended_cons (line : List Char) (rest : List (List Char)) :
    ended (line :: rest) = line ++ '\n' :: ended rest := by
  simp [ended]

theorem ended_append (above below : List (List Char)) :
    ended (above ++ below) = ended above ++ ended below :=
  List.flatMap_append

/-- A line without breaks is the first line of a text that goes on with a line feed. -/
theorem lines_append_newline {line : List Char} (h : ∀ c ∈ line, isLineBreak c = false)
    (rest : List Char) : lines (line ++ '\n' :: rest) = line :: lines rest := by
  induction line with
  | nil => exact lines.eq_3 _ _ fun _ hc _ => absurd hc (by decide)
  | cons c line ih =>
    obtain ⟨hc, hline⟩ := List.forall_mem_cons.mp h
    rw [List.cons_append, lines_cons hc, ih hline]

/-- Lines without breaks are the lines of what they make. -/
theorem lines_ended {all : List (List Char)}
    (h : ∀ line ∈ all, ∀ c ∈ line, isLineBreak c = false) : lines (ended all) = all := by
  induction all with
  | nil => rfl
  | cons line all ih =>
    obtain ⟨hline, hall⟩ := List.forall_mem_cons.mp h
    rw [ended_cons, lines_append_newline hline, ih hall]

/-- What is part of a line stands in ended lines and what follows them only if it stands in one
of the lines, or in what follows. -/
theorem infix_of_infix_ended {pattern rest : List Char} {all : List (List Char)}
    (hline : '\n' ∉ pattern)
    (h : pattern <:+: ended all ++ rest) :
    (∃ line ∈ all, pattern <:+: line) ∨ pattern <:+: rest := by
  induction all with
  | nil => exact .inr h
  | cons line all ih =>
    rw [ended_cons, List.append_assoc, List.cons_append] at h
    rcases infix_of_infix_append_cons hline h with h | h
    · exact .inl ⟨line, List.mem_cons_self, h⟩
    · rcases ih h with ⟨other, hother, h⟩ | h
      · exact .inl ⟨other, List.mem_cons_of_mem _ hother, h⟩
      · exact .inr h

theorem joinLines_concat_nil (all : List (List Char)) : joinLines (all ++ [[]]) = ended all := by
  induction all with
  | nil => rfl
  | cons line all ih =>
    have hne : all ++ [[]] ≠ [] := List.append_ne_nil_of_right_ne_nil all (List.cons_ne_nil [] [])
    obtain ⟨next, others, hnext⟩ := List.exists_cons_of_ne_nil hne
    rw [ended_cons, List.cons_append, hnext, joinLines_cons_cons, ← hnext, ih]

theorem splitLines_ended {all : List (List Char)} (h : ∀ line ∈ all, '\n' ∉ line) :
    splitLines (ended all) = all ++ [[]] := by
  rw [← joinLines_concat_nil]
  refine splitLines_joinLines (List.append_ne_nil_of_right_ne_nil all (List.cons_ne_nil [] [])) ?_
  exact List.forall_mem_append.mpr ⟨h, List.forall_mem_singleton.mpr List.not_mem_nil⟩

/-- Ended lines are moved right one by one. -/
theorem indentChars_ended (level : Nat) {all : List (List Char)} (h : ∀ line ∈ all, '\n' ∉ line) :
    indentChars level (ended all) = ended (all.map (indentLine level)) := by
  rw [indentChars, splitLines_ended h, List.map_append, ← joinLines_concat_nil]
  rfl

end ApiClient.Text
