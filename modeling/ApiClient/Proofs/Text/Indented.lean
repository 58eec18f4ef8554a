import ApiClient.Proofs.Text.Lines

/-!
# Texts that are moved right

Moving a text right acts on each of its lines alone: the lines of the text that comes about
are the lines of the text that was given, each moved right. A text is told by its lines, so
whatever moving right does is read off from one line. It goes through line feeds, it adds
up, and it can be taken back.
-/

namespace ApiClient.Text

/-! ## Lines between line feeds -/

/-- Texts with the same lines are the same. -/
theorem splitLines_injective : Function.Injective splitLines :=
  Function.LeftInverse.injective joinLines_splitLines

/-- No line holds the mark that ends it. -/
theorem newline_notMem_of_mem_splitLines {text line : List Char} (h : line ∈ splitLines text) :
    '\n' ∉ line := by
  unfold splitLines at h
  induction text generalizing line with
  | nil =>
    obtain rfl := List.mem_singleton.mp h
    exact List.not_mem_nil
  | cons c rest ih =>
    rw [List.splitOn_cons_eq_if_modifyHead] at h
    split at h
    · rcases List.mem_cons.mp h with rfl | h
      · exact List.not_mem_nil
      · exact ih h
    · -- the character goes to the front of the first line
      rename_i hc
      obtain ⟨first, more, hlines⟩ := List.exists_cons_of_ne_nil (List.splitOn_ne_nil '\n' rest)
      rw [hlines] at h ih
      rcases List.mem_cons.mp h with rfl | h
      · rw [List.mem_cons, not_or]
        exact ⟨fun he => hc (beq_iff_eq.mpr he.symm), ih List.mem_cons_self⟩
      · exact ih (List.mem_cons_of_mem _ h)

/-- Lines that are put under one another are the lines of what they make. -/
theorem splitLines_joinLines {lines : List (List Char)} (hne : lines ≠ [])
    (h : ∀ line ∈ lines, '\n' ∉ line) : splitLines (joinLines lines) = lines :=
  List.splitOn_intercalate '\n' h hne

/-- The lines of two texts under one another are those of the one and then those of the other. -/
theorem splitLines_append (above below : List Char) :
    splitLines (above ++ '\n' :: below) = splitLines above ++ splitLines below :=
  List.splitOn_append_cons_self above below

/-- A text is changed line by line if no line is broken by it. -/
theorem splitLines_joinLines_map {move : List Char → List Char}
    (h : ∀ line, '\n' ∉ line → '\n' ∉ move line) (text : List Char) :
    splitLines (joinLines ((splitLines text).map move)) = (splitLines text).map move := by
  refine splitLines_joinLines ?_ (List.forall_mem_map.mpr fun line hline => ?_)
  · exact fun hnil => List.splitOn_ne_nil '\n' text (List.map_eq_nil_iff.mp hnil)
  · exact h line (newline_notMem_of_mem_splitLines hline)

/-! ## One line -/

theorem margin_add (level more : Nat) : margin (level + more) = margin more ++ margin level := by
  rw [margin, margin, margin, List.replicate_append_replicate, Nat.mul_add, Nat.add_comm]

theorem newline_notMem_margin (level : Nat) : '\n' ∉ margin level := by
  intro h
  exact absurd (List.eq_of_mem_replicate h) (by decide)

theorem newline_notMem_indentLine (level : Nat) {line : List Char} (h : '\n' ∉ line) :
    '\n' ∉ indentLine level line := by
  unfold indentLine
  split
  · exact h
  · rw [List.mem_append, not_or]
    exact ⟨newline_notMem_margin level, h⟩

/-- A line that is moved right shows something just if it did before. -/
theorem all_isBlank_indentLine (level : Nat) (line : List Char) :
    (indentLine level line).all isBlank = line.all isBlank := by
  unfold indentLine
  split
  · rfl
  · have hmargin : (margin level).all isBlank = true := by
      refine List.all_eq_true.mpr fun c hc => ?_
      obtain rfl := List.eq_of_mem_replicate hc
      decide
    rw [List.all_append, hmargin, Bool.true_and]

theorem indentLine_zero (line : List Char) : indentLine 0 line = line := by
  unfold indentLine
  split <;> rfl

theorem indentLine_indentLine (level more : Nat) (line : List Char) :
    indentLine more (indentLine level line) = indentLine (level + more) line := by
  rw [indentLine, all_isBlank_indentLine]
  unfold indentLine
  split
  · rfl
  · rw [margin_add, List.append_assoc]

/-- A line moved back: without the margin in front of it, unless it shows nothing. -/
def outdentLine (level : Nat) (line : List Char) : List Char :=
  if line.all isBlank then line else line.drop (margin level).length

/-- A line that shows something has the margin in front once it is moved right. -/
theorem margin_prefix_indentLine (level : Nat) {line : List Char} (h : line.all isBlank = false) :
    margin level <+: indentLine level line := by
  rw [indentLine, h]
  exact List.prefix_append _ _

theorem outdentLine_indentLine (level : Nat) (line : List Char) :
    outdentLine level (indentLine level line) = line := by
  rw [outdentLine, all_isBlank_indentLine]
  unfold indentLine
  split
  · rfl
  · exact List.drop_left

/-! ## All lines -/

/-- The lines of a text that is moved right. -/
theorem splitLines_indentChars (level : Nat) (text : List Char) :
    splitLines (indentChars level text) = (splitLines text).map (indentLine level) :=
  splitLines_joinLines_map (fun _ => newline_notMem_indentLine level) text

theorem indentChars_append (level : Nat) (above below : List Char) :
    indentChars level (above ++ '\n' :: below) = indentChars level above ++ '\n' ::
    indentChars level below := by
  apply splitLines_injective
  rw [splitLines_append, splitLines_indentChars, splitLines_indentChars, splitLines_indentChars,
    splitLines_append, List.map_append]

theorem indentChars_joinLines (level : Nat) (texts : List (List Char)) :
    indentChars level (joinLines texts) = joinLines (texts.map (indentChars level)) := by
  induction texts with
  | nil => rfl
  | cons first rest ih =>
    cases rest with
    | nil => simp [joinLines]
    | cons second rest =>
      rw [joinLines_cons_cons, indentChars_append, ih]
      exact (joinLines_cons_cons _ _ _).symm

theorem indentChars_zero (text : List Char) : indentChars 0 text = text := by
  apply splitLines_injective
  rw [splitLines_indentChars, funext indentLine_zero, List.map_id']

theorem indentChars_indentChars (level more : Nat) (text : List Char) :
    indentChars more (indentChars level text) = indentChars (level + more) text := by
  apply splitLines_injective
  rw [splitLines_indentChars, splitLines_indentChars, splitLines_indentChars, List.map_map]
  exact List.map_congr_left fun line _ => indentLine_indentLine level more line

/-- A text with every line that shows something moved back. -/
def outdentChars (level : Nat) (text : List Char) : List Char :=
  joinLines ((splitLines text).map (outdentLine level))

/-- A text with every line that shows something moved back by `level` levels. -/
def outdent (text : String) (level : Nat) : String :=
  String.ofList (outdentChars level text.toList)

theorem outdentChars_indentChars (level : Nat) (text : List Char) :
    outdentChars level (indentChars level text) = text := by
  rw [outdentChars, splitLines_indentChars, List.map_map, ← joinLines_splitLines text]
  congr 1
  rw [joinLines_splitLines]
  exact List.map_id'' (outdentLine_indentLine level) _

/-- Every line of a text that is moved right shows nothing, or it has the margin in front. -/
theorem blank_or_margin_of_mem_splitLines {level : Nat} {text line : List Char}
    (h : line ∈ splitLines (indentChars level text)) :
    line.all isBlank = true ∨ margin level <+: line := by
  rw [splitLines_indentChars] at h
  obtain ⟨before, -, rfl⟩ := List.mem_map.mp h
  cases hblank : before.all isBlank with
  | true => exact .inl ((all_isBlank_indentLine level before).trans hblank)
  | false => exact .inr (margin_prefix_indentLine level hblank)

/-! ## Texts -/

/--
**Moving right acts on each line alone.** A line feed between two texts, or between any
number of them, stays where it is; no level changes nothing, and two levels after one another
are their sum; and once the margin is taken from every line that shows something, where it
does stand, the text is back.
-/
theorem indent_lineByLine (level more : Nat) (above below : String) (texts : List String) :
    indent (above ++ "\n" ++ below) level = indent above level ++ "\n" ++ indent below level ∧
    indentAll texts level = "\n".intercalate (texts.map (indent · level)) ∧
    indent above 0 = above ∧
    indent (indent above level) more = indent above (level + more) ∧
    (∀ line ∈ splitLines (indent above level).toList,
      line.all isBlank = true ∨ margin level <+: line) ∧
    outdent (indent above level) level = above := by
  refine ⟨?under, ?all, ?none, ?twice, ?margin, ?back⟩
  case under =>
    apply String.toList_injective
    simp only [toList_indent, String.toList_append, List.append_assoc]
    exact indentChars_append level above.toList below.toList
  case all =>
    have htexts : texts.map (String.toList ∘ (indent · level)) =
        (texts.map String.toList).map (indentChars level) := by
      rw [List.map_map]
      exact List.map_congr_left fun text _ => toList_indent text level
    apply String.toList_injective
    rw [indentAll, toList_indent, String.toList_intercalate, String.toList_intercalate,
      List.map_map, htexts]
    exact indentChars_joinLines level _
  case none =>
    apply String.toList_injective
    rw [toList_indent, indentChars_zero]
  case twice =>
    apply String.toList_injective
    rw [toList_indent, toList_indent, toList_indent, indentChars_indentChars]
  case margin =>
    intro line hline
    rw [toList_indent] at hline
    exact blank_or_margin_of_mem_splitLines hline
  case back =>
    rw [outdent, toList_indent, outdentChars_indentChars, String.ofList_toList]

end ApiClient.Text
