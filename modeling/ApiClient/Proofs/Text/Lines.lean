import ApiClient.Proofs.Text.Occurrence
import ApiClient.Text.Indentation

/-!
# What stands in a line

A block is moved right line by line, and each line keeps its characters. So what stands in a
text without going over the end of a line still stands in it when the text is moved right.
-/

namespace ApiClient.Text

/-- Texts that are split at a mark which is not in the first parts are split in one way. -/
theorem eq_of_append_cons_eq {left left' right right' : List Char} {c : Char} (h : c ∉ left)
    (h' : c ∉ left') (he : left ++ c :: right = left' ++ c :: right') :
    left = left' ∧ right = right' := by
  induction left generalizing left' with
  | nil =>
    cases left' with
    | nil => exact ⟨rfl, (List.cons.inj he).2⟩
    | cons d left' => exact absurd ((List.cons.inj he).1 ▸ List.mem_cons_self) h'
  | cons d left ih =>
    cases left' with
    | nil => exact absurd ((List.cons.inj he).1 ▸ List.mem_cons_self) h
    | cons d' left' =>
      obtain ⟨rfl, hrest⟩ := List.cons.inj he
      obtain ⟨rfl, rfl⟩ :=
        ih (List.not_mem_of_not_mem_cons h) (List.not_mem_of_not_mem_cons h') hrest
      exact ⟨rfl, rfl⟩

/-- What has no separator in it ends before the first. -/
theorem prefix_of_prefix_append_cons {pattern left right : List Char} {c : Char} (hc : c ∉ pattern)
    (h : pattern <+: left ++ c :: right) : pattern <+: left := by
  rcases List.prefix_or_prefix_of_prefix h (List.prefix_append left _) with h' | ⟨rest, rfl⟩
  · exact h'
  · cases rest with
    | nil => exact (List.append_nil left).symm ▸ List.prefix_rfl
    | cons d rest =>
      have hd := (List.cons_prefix_cons.mp ((List.prefix_append_right_inj left).mp h)).1
      exact absurd (List.mem_append_right _ (hd ▸ List.mem_cons_self)) hc

/-- What has no separator in it does not stand across one. -/
theorem infix_of_infix_append_cons {pattern left right : List Char} {c : Char} (hc : c ∉ pattern)
    (h : pattern <:+: left ++ c :: right) : pattern <:+: left ∨ pattern <:+: right := by
  induction left with
  | nil =>
    rcases List.infix_cons_iff.mp h with h | h
    · exact .inl (prefix_of_prefix_append_cons hc h).isInfix
    · exact .inr h
  | cons d left ih =>
    rcases List.infix_cons_iff.mp h with h | h
    · exact .inl (prefix_of_prefix_append_cons hc h).isInfix
    · exact (ih h).imp_left fun h => h.trans (List.suffix_cons d left).isInfix

/-- What has no separator in it begins after the last. -/
theorem suffix_of_suffix_append_cons {pattern left right : List Char} {c : Char} (hc : c ∉ pattern)
    (h : pattern <:+ left ++ c :: right) : pattern <:+ right := by
  have hreversed : pattern.reverse <+: right.reverse ++ c :: left.reverse := by
    simpa using List.reverse_prefix.mpr h
  rw [← List.reverse_prefix]
  exact prefix_of_prefix_append_cons (by simpa using hc) hreversed

/-- Two words with a separator between them stand on one side of such a separator, or around it. -/
theorem infix_of_infix_around {first second left right : List Char} {c : Char}
    (hfirst : c ∉ first) (hsecond : c ∉ second)
    (h : first ++ c :: second <:+: left ++ c :: right) :
    first ++ c :: second <:+: left ∨ first ++ c :: second <:+: right ∨
      first <:+ left ∧ second <+: right := by
  obtain ⟨before, after, h⟩ := h
  have hsplit : (before ++ first) ++ c :: (second ++ after) = left ++ c :: right := by
    rw [← h]
    simp
  -- the separator between the words is before the other one, behind it, or the same
  rcases List.append_eq_append_iff.mp hsplit with ⟨gap, rfl, hgap⟩ | ⟨gap, hleft, hgap⟩
  · cases gap with
    | nil =>
      obtain ⟨-, rfl⟩ := List.cons.inj hgap
      exact .inr (.inr ⟨by simp, List.prefix_append _ _⟩)
    | cons d gap =>
      obtain ⟨rfl, hrest⟩ := List.cons.inj hgap
      have hprefix : second <+: gap ++ c :: right := ⟨after, hrest⟩
      obtain ⟨rest, rfl⟩ := prefix_of_prefix_append_cons hsecond hprefix
      exact .inl ⟨before, rest, by simp⟩
  · cases gap with
    | nil =>
      obtain ⟨-, rfl⟩ := List.cons.inj hgap
      exact .inr (.inr ⟨⟨before, by simpa using hleft⟩, List.prefix_append _ _⟩)
    | cons d gap =>
      obtain ⟨rfl, rfl⟩ := List.cons.inj hgap
      have hsuffix : first <:+ left ++ c :: gap := ⟨before, hleft⟩
      obtain ⟨rest, rfl⟩ := suffix_of_suffix_append_cons hfirst hsuffix
      exact .inr (.inl ⟨rest, after, by simp⟩)

/-- What does not begin like the front of a text stands behind it. -/
theorem infix_of_infix_append_right {pattern left right : List Char}
    (hhead : ∀ c ∈ left, pattern.head? ≠ some c) (h : pattern <:+: left ++ right) :
    pattern <:+: right := by
  induction left with
  | nil => exact h
  | cons d left ih =>
    rcases List.infix_cons_iff.mp h with h | h
    · cases pattern with
      | nil => exact List.nil_infix
      | cons c rest =>
        exact absurd (congrArg some (List.cons_prefix_cons.mp h).1) (hhead d List.mem_cons_self)
    · exact ih (fun c hc => hhead c (List.mem_cons_of_mem _ hc)) h

/-- What does not end like the end of a text stands before it. -/
theorem infix_of_infix_append_left {pattern left right : List Char}
    (hlast : ∀ c ∈ right, pattern.getLast? ≠ some c) (h : pattern <:+: left ++ right) :
    pattern <:+: left := by
  rw [← List.reverse_infix] at h ⊢
  rw [List.reverse_append] at h
  refine infix_of_infix_append_right (fun c hc => ?_) h
  rw [List.head?_reverse]
  exact hlast c (List.mem_reverse.mp hc)

/-- A text is foreign to a mark if it lacks a character of the mark, and neither
begins nor ends like a part of it. -/
def IsForeign (mark pattern : List Char) : Prop :=
  (∃ c ∈ mark, c ∉ pattern) ∧ ∀ c ∈ mark, pattern.head? ≠ some c ∧ pattern.getLast? ≠ some c

instance (mark pattern : List Char) : Decidable (IsForeign mark pattern) :=
  decidable_of_iff ((mark.any fun c => !pattern.contains c) = true ∧
      (mark.all fun c => pattern.head? != some c && pattern.getLast? != some c) = true) (by
    simp [IsForeign])

/-- What is foreign to a mark does not reach into one at the end. -/
theorem infix_of_infix_append_last {mark pattern left : List Char} (hmark : IsForeign mark pattern)
    (h : pattern <:+: left ++ mark) : pattern <:+: left :=
  infix_of_infix_append_left (fun c hc => (hmark.2 c hc).2) h

/-- What is foreign to a mark stands before it or behind it. -/
theorem infix_of_infix_append_mark {mark pattern left right : List Char}
    (hmark : IsForeign mark pattern)
    (h : pattern <:+: left ++ (mark ++ right)) : pattern <:+: left ∨ pattern <:+: right := by
  obtain ⟨⟨c, hc, hforeign⟩, hends⟩ := hmark
  obtain ⟨before, after, rfl⟩ := List.append_of_mem hc
  have hsplit : pattern <:+: (left ++ before) ++ c :: (after ++ right) := by simpa using h
  refine (infix_of_infix_append_cons hforeign hsplit).imp
    (infix_of_infix_append_left fun d hd => ?_) (infix_of_infix_append_right fun d hd => ?_)
  · exact (hends d (List.mem_append_left _ hd)).2
  · exact (hends d (List.mem_append_right _ (List.mem_cons_of_mem _ hd))).1

/-- What is foreign to a mark stands in one of the texts that the mark joins. -/
theorem infix_of_infix_intercalate {separator : String} {pattern : List Char} {parts : List String}
    (hne : pattern ≠ []) (hmark : IsForeign separator.toList pattern)
    (h : pattern <:+: (separator.intercalate parts).toList) :
    ∃ part ∈ parts, pattern <:+: part.toList := by
  induction parts with
  | nil => exact absurd (List.infix_nil.mp h) hne
  | cons first rest ih =>
    cases rest with
    | nil => exact ⟨first, List.mem_cons_self, by simpa using h⟩
    | cons second rest =>
      rw [String.intercalate_cons_cons, String.toList_append, String.toList_append,
        List.append_assoc] at h
      rcases infix_of_infix_append_mark hmark h with h | h
      · exact ⟨first, List.mem_cons_self, h⟩
      · obtain ⟨part, hpart, h⟩ := ih h
        exact ⟨part, List.mem_cons_of_mem _ hpart, h⟩

theorem joinLines_cons_cons (first second : List Char) (rest : List (List Char)) :
    joinLines (first :: second :: rest) = first ++ '\n' :: joinLines (second :: rest) := by
  simp [joinLines]

/-- What stands in the lines that are joined stands in one of them, if it is part of a line. -/
theorem infix_of_infix_joinLines {pattern : List Char} {lines : List (List Char)}
    (hne : pattern ≠ [])
    (hline : '\n' ∉ pattern) (h : pattern <:+: joinLines lines) :
    ∃ line ∈ lines, pattern <:+: line := by
  induction lines with
  | nil => exact absurd (List.infix_nil.mp h) hne
  | cons first rest ih =>
    cases rest with
    | nil => exact ⟨first, List.mem_cons_self, by simpa [joinLines] using h⟩
    | cons second rest =>
      rw [joinLines_cons_cons] at h
      rcases infix_of_infix_append_cons hline h with h | h
      · exact ⟨first, List.mem_cons_self, h⟩
      · obtain ⟨line, hmem, h⟩ := ih h
        exact ⟨line, List.mem_cons_of_mem _ hmem, h⟩

theorem infix_joinLines {line : List Char} {lines : List (List Char)} (h : line ∈ lines) :
    line <:+: joinLines lines := by
  induction lines with
  | nil => exact absurd h List.not_mem_nil
  | cons first rest ih =>
    cases rest with
    | nil =>
      obtain rfl := List.mem_singleton.mp h
      simp [joinLines]
    | cons second rest =>
      rw [joinLines_cons_cons]
      rcases List.mem_cons.mp h with rfl | h
      · exact (List.prefix_append _ _).isInfix
      · exact ((ih h).trans (List.suffix_cons _ _).isInfix).trans (List.suffix_append _ _).isInfix

/-- A part of a line is still there when the lines are moved right. -/
theorem contains_indent {text pattern : String} (level : Nat) (hne : pattern ≠ "")
    (hline : '\n' ∉ pattern.toList) (h : contains text pattern = true) :
    contains (indent text level) pattern = true := by
  refine occursIn_iff.mpr ?_
  have h := occursIn_iff.mp h
  rw [← joinLines_splitLines text.toList] at h
  obtain ⟨line, hmem, h⟩ := infix_of_infix_joinLines (by simpa using hne) hline h
  rw [toList_indent]
  refine (h.trans ?_).trans (infix_joinLines (List.mem_map_of_mem hmem))
  unfold indentLine
  split
  · exact List.infix_rfl
  · exact (List.suffix_append _ _).isInfix

end ApiClient.Text
