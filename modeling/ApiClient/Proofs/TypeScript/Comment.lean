import ApiClient.Proofs.Text.Ended
import ApiClient.TypeScript.Comment

/-!
# Comments that stay closed

A comment says what a document gives for a title or a description, whatever that is. Main
statement: the mark that ends a comment stands in it once, as its last line, and still does when
the comment is moved right. The mark is broken up in each value before the value is taken apart
into lines; taking apart and trimming leave only parts of what was there, and what is put before
each line ends with a blank, so the mark does not come about again.
-/

namespace ApiClient.TypeScript.Comment

/-- The mark that ends a comment. -/
def terminator : List Char := ['*', '/']

/-! ## Where the mark stands -/

/-- The mark stands in a text just once: at the end of the last line, which is ended. -/
def ClosesOnce (text : List Char) : Prop :=
  ∃ front, text = front ++ terminator ++ ['\n'] ∧ ∀ before, before ++ terminator <+: text ↔
    before = front

/-- The mark stands nowhere else if it does not stand before its place. -/
theorem closesOnce_of_not_infix {front : List Char} (h : ¬ terminator <:+: front) :
    ClosesOnce (front ++ terminator ++ ['\n']) := by
  refine ⟨front, rfl, fun before => ⟨fun ⟨after, hafter⟩ => ?_, ?_⟩⟩
  · have hsplit : before ++ ('*' :: '/' :: after) = front ++ ['*', '/', '\n'] := by
      simpa [terminator] using hafter
    -- another place would be before the last one, overlap with it, or be behind it
    rcases List.append_eq_append_iff.mp hsplit with ⟨gap, rfl, hgap⟩ | ⟨gap, rfl, hgap⟩
    · rcases gap with - | ⟨c, - | ⟨d, gap⟩⟩
      · exact (List.append_nil before).symm
      · simp at hgap
      · simp only [List.cons_append, List.cons.injEq] at hgap
        obtain ⟨rfl, rfl, -⟩ := hgap
        exact absurd ⟨before, gap, by simp [terminator]⟩ h
    · rcases gap with - | ⟨c, - | ⟨d, - | ⟨e, gap⟩⟩⟩
      · exact List.append_nil front
      · simp at hgap
      · simp at hgap
      · simp at hgap
  · rintro rfl
    exact List.prefix_append _ _

/-- Ended lines close once if the last is the mark behind what does not hold it,
and no line before holds it. -/
theorem closesOnce_ended {above : List (List Char)} {lead : List Char}
    (habove : ∀ line ∈ above, ¬ terminator <:+: line) (hlead : ¬ terminator <:+: lead) :
    ClosesOnce (Text.ended (above ++ [lead ++ terminator])) := by
  have htext : Text.ended (above ++ [lead ++ terminator]) =
      (Text.ended above ++ lead) ++ terminator ++ ['\n'] := by
    simp [Text.ended]
  rw [htext]
  refine closesOnce_of_not_infix fun h => ?_
  rcases Text.infix_of_infix_ended (by decide) h with ⟨line, hline, h⟩ | h
  · exact habove line hline h
  · exact hlead h

/-- Blanks in front of a line make no mark. -/
theorem not_infix_indentLine {line : List Char} (level : Nat) (h : ¬ terminator <:+: line) :
    ¬ terminator <:+: Text.indentLine level line := by
  unfold Text.indentLine
  split
  · exact h
  · intro hmark
    refine h (Text.infix_of_infix_append_right (fun c hc => ?_) hmark)
    obtain rfl := List.eq_of_mem_replicate hc
    decide

/-! ## The lines of a comment -/

/-- What the mark is broken up into. -/
def broken : List Char := ['*', '\\', '/']

/-- Breaking up leaves the first character of a text as it is. -/
theorem head?_replaceAll (text : List Char) :
    (Text.replaceAll terminator broken text).head? = text.head? := by
  have hne : terminator ≠ [] := List.cons_ne_nil _ _
  by_cases h : terminator <+: text
  · obtain ⟨rest, rfl⟩ := h
    rw [Text.replaceAll_append hne]
    rfl
  · cases text with
    | nil => rw [Text.replaceAll_nil]
    | cons c rest =>
      rw [Text.replaceAll_cons hne h]
      rfl

theorem replaceAll_eq_nil_iff {text : List Char} :
    Text.replaceAll terminator broken text = [] ↔ text = [] := by
  rw [← List.head?_eq_none_iff, head?_replaceAll, List.head?_eq_none_iff]

/-- A text in which the mark is broken up does not hold it. -/
theorem not_infix_replaceAll (text : List Char) :
    ¬ terminator <:+: Text.replaceAll terminator broken text := by
  have hne : terminator ≠ [] := List.cons_ne_nil _ _
  induction hlength : text.length using Nat.strong_induction_on generalizing text with
  | _ length ih =>
    subst hlength
    by_cases h : terminator <+: text
    · obtain ⟨rest, rfl⟩ := h
      have hshorter : rest.length < (terminator ++ rest).length := by
        rw [List.length_append]
        exact Nat.lt_add_of_pos_left (by decide)
      have hrest := ih rest.length hshorter rest rfl
      rw [Text.replaceAll_append hne]
      simpa [broken, terminator, List.infix_cons_iff, List.cons_prefix_cons] using hrest
    · cases text with
      | nil => simp [Text.replaceAll_nil, terminator]
      | cons c rest =>
        have hrest := ih rest.length (Nat.lt_succ_self _) rest rfl
        rw [Text.replaceAll_cons hne h, List.infix_cons_iff, not_or]
        refine ⟨fun hprefix => h ?_, hrest⟩
        -- the text goes on with the same character as what it is turned into
        obtain ⟨rfl, hslash⟩ := List.cons_prefix_cons.mp hprefix
        have hhead : rest.head? = some '/' := by
          rw [← head?_replaceAll rest]
          exact List.singleton_prefix_iff_head?_eq_some.mp hslash
        obtain ⟨others, rfl⟩ := List.head?_eq_some_iff.mp hhead
        exact ⟨others, rfl⟩

/-- What may stand behind the star of a line: no break, and no mark. -/
structure IsHarmless (line : List Char) : Prop where
  unbroken : ∀ c ∈ line, Text.isLineBreak c = false
  unmarked : ¬ terminator <:+: line

/-- A value adds lines that are harmless. -/
theorem isHarmless_of_mem_valueLines {value : Json} {line : List Char}
    (h : line ∈ valueLines value) : IsHarmless line := by
  unfold valueLines at h
  split at h
  · cases h
  · obtain ⟨whole, hwhole, rfl⟩ := List.mem_map.mp h
    have hfront := Text.trimEnd_prefix whole
    exact {
      unbroken := fun c hc => Text.not_isLineBreak_of_mem_lines hwhole c (hfront.subset hc)
      unmarked := fun hmark => not_infix_replaceAll _
        ((hmark.trans hfront.isInfix).trans (Text.infix_of_mem_lines hwhole)) }

/-- A value that says nothing: one that stands for nothing given, or is shown as blanks only. -/
def SaysNothing (value : Json) : Prop :=
  value.isBlank = true ∨ ∀ c ∈ value.shown.toList, Text.isBlank c = true

theorem valueLines_eq_nil_iff {value : Json} : valueLines value = [] ↔ SaysNothing value := by
  unfold valueLines SaysNothing
  by_cases hblank : value.isBlank = true
  · rw [if_pos hblank]
    exact iff_of_true rfl (.inl hblank)
  · rw [if_neg hblank, or_iff_right hblank]
    calc
      _ ↔ Text.replaceAll terminator broken (Text.trim value.shown.toList) = [] := by
        rw [List.map_eq_nil_iff, Text.lines_eq_nil_iff]
        rfl
      _ ↔ Text.trim value.shown.toList = [] := replaceAll_eq_nil_iff
      _ ↔ ∀ c ∈ value.shown.toList, Text.isBlank c = true := Text.trim_eq_nil_iff

/-! ## The block -/

/-- One line inside the block, without its end. -/
def starred (line : List Char) : List Char :=
  if line.isEmpty then [' ', '*'] else ' ' :: '*' :: ' ' :: line

theorem bodyLine_eq (line : List Char) : bodyLine line = starred line ++ ['\n'] := by
  unfold bodyLine starred
  split <;> rfl

theorem prefix_starred (line : List Char) : [' ', '*'] <+: starred line := by
  unfold starred
  split
  · exact List.prefix_rfl
  · exact List.prefix_append [' ', '*'] (' ' :: line)

theorem IsHarmless.starred {line : List Char} (h : IsHarmless line) :
    IsHarmless (starred line) := by
  unfold Comment.starred
  split
  · exact ⟨by decide, by decide⟩
  · refine ⟨?_, ?_⟩
    · simp only [List.forall_mem_cons]
      exact ⟨by decide, by decide, by decide, h.unbroken⟩
    · have hopen := h.unmarked
      simpa [terminator, List.infix_cons_iff, List.cons_prefix_cons] using hopen

/-- The lines above the last line of a block. -/
def above (lines : List (List Char)) : List (List Char) := ['/', '*', '*'] :: lines.map starred

/-- The last line of a block, without the mark. -/
def lead : List Char := [' ']

theorem block_eq {lines : List (List Char)} (hne : lines ≠ []) :
    block lines = Text.ended (above lines ++ [lead ++ terminator]) := by
  have hlines : (lines.map bodyLine).flatten = Text.ended (lines.map starred) := by
    rw [Text.ended, List.flatMap_map, List.flatMap_def]
    exact congrArg List.flatten (List.map_congr_left fun line _ => bodyLine_eq line)
  rw [block, if_neg (by simpa using hne), hlines, above, Text.ended_append, Text.ended_cons]
  simp [Text.ended, lead, terminator]

theorem isHarmless_of_mem_above {lines : List (List Char)} (h : ∀ line ∈ lines, IsHarmless line) :
    ∀ line ∈ above lines, IsHarmless line := by
  intro line hline
  rcases List.mem_cons.mp hline with rfl | hline
  · exact ⟨by decide, by decide⟩
  · obtain ⟨inner, hinner, rfl⟩ := List.mem_map.mp hline
    exact (h inner hinner).starred

/-- A block that its own text does not close. -/
structure IsBlock (text : List Char) : Prop where
  /-- It begins with a line of its own. -/
  opening : "/**\n".toList <+: text
  /-- Whichever breaks end lines, every further line begins with a star, and the last is the
  mark. -/
  starred : ∃ body, Text.lines text = "/**".toList :: body ∧
    (∀ line ∈ body, " *".toList <+: line) ∧ body.getLast? = some " */".toList
  closing : ClosesOnce text

theorem isBlock_block {lines : List (List Char)} (hne : lines ≠ [])
    (h : ∀ line ∈ lines, IsHarmless line) : IsBlock (block lines) := by
  have habove := isHarmless_of_mem_above h
  rw [block_eq hne]
  refine ⟨?_, ⟨lines.map starred ++ [lead ++ terminator], ?_, ?_, ?_⟩, ?_⟩
  · rw [above, List.cons_append, Text.ended_cons]
    exact List.prefix_append "/**\n".toList _
  · refine Text.lines_ended fun line hline => ?_
    rcases List.mem_append.mp hline with hline | hline
    · exact (habove line hline).unbroken
    · obtain rfl := List.mem_singleton.mp hline
      decide
  · intro line hline
    rcases List.mem_append.mp hline with hline | hline
    · obtain ⟨inner, -, rfl⟩ := List.mem_map.mp hline
      exact prefix_starred inner
    · obtain rfl := List.mem_singleton.mp hline
      decide
  · exact List.getLast?_concat
  · exact closesOnce_ended (fun line hline => (habove line hline).unmarked) (by decide)

/-- A block that is moved right closes once, too. -/
theorem closesOnce_indentChars (level : Nat) {lines : List (List Char)} (hne : lines ≠ [])
    (h : ∀ line ∈ lines, IsHarmless line) : ClosesOnce (Text.indentChars level (block lines)) := by
  have habove := isHarmless_of_mem_above h
  have hnewline : ∀ line ∈ above lines ++ [lead ++ terminator], '\n' ∉ line := by
    intro line hline hmem
    rcases List.mem_append.mp hline with hline | hline
    · exact absurd ((habove line hline).unbroken '\n' hmem) (by decide)
    · obtain rfl := List.mem_singleton.mp hline
      exact absurd hmem (by decide)
  -- the last line shows its mark, so the blanks go before it
  have hlast : Text.indentLine level (lead ++ terminator) =
      (Text.margin level ++ lead) ++ terminator := by
    rw [Text.indentLine, if_neg (by decide), List.append_assoc]
  have hlead : ¬ terminator <:+: Text.margin level ++ lead := by
    intro hmark
    have hstar : '*' ∈ Text.margin level ++ lead := hmark.subset List.mem_cons_self
    simp [Text.margin, lead] at hstar
  rw [block_eq hne, Text.indentChars_ended level hnewline, List.map_append,
    List.map_singleton, hlast]
  refine closesOnce_ended (fun line hline => ?_) hlead
  obtain ⟨inner, hinner, rfl⟩ := List.mem_map.mp hline
  exact not_infix_indentLine level (habove inner hinner).unmarked

/-! ## Comments -/

/-- What the comment made of some values is. -/
structure StaysClosed (values : List Json) (comment : String) : Prop where
  empty_iff : comment = "" ↔ ∀ value ∈ values, SaysNothing value
  block : comment = "" ∨ IsBlock comment.toList
  /-- It can be moved right by any level. -/
  indented (level : Nat) : comment = "" ∨ ClosesOnce (Text.indent comment level).toList

/-- **No value closes its own comment,** and there is one unless all values say nothing. -/
theorem staysClosed_ofValues (values : List Json) : StaysClosed values (ofValues values) := by
  have hharmless : ∀ line ∈ values.flatMap valueLines, IsHarmless line := by
    intro line hline
    obtain ⟨value, -, hline⟩ := List.mem_flatMap.mp hline
    exact isHarmless_of_mem_valueLines hline
  have hempty : values.flatMap valueLines = [] ↔ ∀ value ∈ values, SaysNothing value := by
    simp only [List.flatMap_eq_nil_iff, valueLines_eq_nil_iff]
  -- no line at all gives no comment; otherwise the text is one block
  by_cases hne : values.flatMap valueLines = []
  · have hnone : ofValues values = "" := by
      rw [ofValues, hne]
      rfl
    exact ⟨iff_of_true hnone (hempty.mp hne), .inl hnone, fun _ => .inl hnone⟩
  · have htext : (ofValues values).toList = block (values.flatMap valueLines) := by
      rw [ofValues, String.toList_ofList]
    have hblock := isBlock_block hne hharmless
    have hsome : ofValues values ≠ "" := by
      intro hnone
      rw [hnone] at htext
      rw [← htext] at hblock
      exact absurd hblock.opening (by decide)
    refine ⟨iff_of_false hsome fun h => hne (hempty.mpr h), .inr (htext ▸ hblock),
      fun level => .inr ?_⟩
    rw [Text.toList_indent, htext]
    exact closesOnce_indentChars level hne hharmless

end ApiClient.TypeScript.Comment
