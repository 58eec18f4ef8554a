import ApiClient.Text.Occurrence

/-!
# What searching and replacing do

A search for a text answers whether it is an infix. Replacing is described by its two steps: an
occurrence at the front is replaced, and any other character is kept.
-/

namespace ApiClient.Text

/-- A property of the characters of a text is decided on the text, not
on all characters there are. -/
instance decidableForallMem {p : Char → Prop} [DecidablePred p] (text : List Char) :
    Decidable (∀ c ∈ text, p c) :=
  List.decidableBAll p text

/-- A text occurs in another if it is an infix of it. -/
theorem occursIn_iff {pattern text : List Char} :
    occursIn pattern text = true ↔ pattern <:+: text := by
  induction text with
  | nil => simp [occursIn, List.isEmpty_iff]
  | cons c rest ih =>
    rw [occursIn, Bool.or_eq_true, ih, List.isPrefixOf_iff_prefix, List.infix_cons_iff]

theorem contains_self (text : String) : contains text text = true :=
  occursIn_iff.mpr List.infix_rfl

theorem contains_append_left {text after pattern : String} (h : contains text pattern = true) :
    contains (text ++ after) pattern = true := by
  refine occursIn_iff.mpr ?_
  rw [String.toList_append]
  exact (occursIn_iff.mp h).trans (List.prefix_append _ _).isInfix

theorem contains_append_right {before text pattern : String} (h : contains text pattern = true) :
    contains (before ++ text) pattern = true := by
  refine occursIn_iff.mpr ?_
  rw [String.toList_append]
  exact (occursIn_iff.mp h).trans (List.suffix_append _ _).isInfix

theorem contains_trans {text middle pattern : String} (h : contains text middle = true)
    (h' : contains middle pattern = true) : contains text pattern = true :=
  occursIn_iff.mpr ((occursIn_iff.mp h').trans (occursIn_iff.mp h))

/-- Each of some texts is in what they are joined to. -/
theorem contains_intercalate {separator part : String} {parts : List String} (h : part ∈ parts) :
    contains (separator.intercalate parts) part = true := by
  induction parts with
  | nil => exact absurd h List.not_mem_nil
  | cons first rest ih =>
    cases rest with
    | nil =>
      rw [String.intercalate_singleton, List.mem_singleton.mp h]
      exact contains_self _
    | cons second rest =>
      rw [String.intercalate_cons_cons]
      rcases List.mem_cons.mp h with rfl | h
      · exact contains_append_left (contains_append_left (contains_self _))
      · exact contains_append_right (ih h)

theorem contains_join {part : String} {parts : List String} (h : part ∈ parts) :
    contains (String.join parts) part = true := by
  obtain ⟨before, after, rfl⟩ := List.append_of_mem h
  rw [String.join_append, String.join_cons]
  exact contains_append_right (contains_append_left (contains_self _))

/-- The first of some texts stands at the front of what they are joined to. -/
theorem prefix_intercalate (separator first : String) (rest : List String) :
    first.toList <+: (separator.intercalate (first :: rest)).toList := by
  cases rest with
  | nil => simp only [String.intercalate_singleton, List.prefix_rfl]
  | cons second rest =>
    rw [String.intercalate_cons_cons, String.append_assoc, String.toList_append]
    exact List.prefix_append _ _

/-- What follows a word at the front of a text is what is left of the text without it. -/
theorem after?_eq_some {word text rest : List Char} :
    after? word text = some rest ↔ text = word ++ rest := by
  induction word generalizing text with
  | nil =>
    simp only [after?, List.nil_append]
    exact ⟨Option.some.inj, congrArg some⟩
  | cons w word ih =>
    cases text with
    | nil => simp [after?]
    | cons c text =>
      rw [after?, List.cons_append]
      by_cases hwc : w = c
      · rw [if_pos hwc, ih, hwc]
        exact ⟨congrArg _, fun h => (List.cons.inj h).2⟩
      · rw [if_neg hwc]
        exact ⟨fun h => absurd h (by simp), fun h => absurd (List.cons.inj h).1.symm hwc⟩

/-! ## Replacing -/

section

variable {pattern replacement : List Char} (hne : pattern ≠ [])

include hne

theorem replaceAll_eq (text : List Char) :
    replaceAll pattern replacement text = replaceAfter pattern replacement 0 text := by
  rw [replaceAll, if_neg (by simpa using hne)]

/-- A character with which no occurrence starts is kept. -/
theorem replaceAll_cons {c : Char} {rest : List Char} (h : ¬ pattern <+: c :: rest) :
    replaceAll pattern replacement (c :: rest) = c :: replaceAll pattern replacement rest := by
  rw [replaceAll_eq hne, replaceAll_eq hne, replaceAfter, if_neg]
  rw [List.isPrefixOf_iff_prefix]
  exact h

omit hne in
theorem replaceAfter_append (passed rest : List Char) :
    replaceAfter pattern replacement passed.length (passed ++ rest) =
      replaceAfter pattern replacement 0 rest := by
  induction passed with
  | nil => rfl
  | cons c passed ih =>
    rw [List.cons_append, List.length_cons, replaceAfter, ih]

/-- An occurrence at the front is replaced. -/
theorem replaceAll_append (rest : List Char) :
    replaceAll pattern replacement (pattern ++ rest) =
      replacement ++ replaceAll pattern replacement rest := by
  rw [replaceAll_eq hne, replaceAll_eq hne]
  obtain ⟨c, tail, rfl⟩ := List.exists_cons_of_ne_nil hne
  have hprefix : (c :: tail).isPrefixOf (c :: (tail ++ rest)) = true :=
    List.isPrefixOf_iff_prefix.mpr ⟨rest, rfl⟩
  rw [List.cons_append, replaceAfter, if_pos hprefix, List.length_cons, Nat.add_sub_cancel,
    replaceAfter_append]

/-- Where a text does not occur, nothing is replaced. -/
theorem replaceAll_of_not_infix {text : List Char} (h : ¬ pattern <:+: text) :
    replaceAll pattern replacement text = text := by
  induction text with
  | nil => exact replaceAll_nil _ _
  | cons c rest ih =>
    rw [List.infix_cons_iff, not_or] at h
    rw [replaceAll_cons hne h.1, ih h.2]

end

theorem length_replaceAfter_le {pattern replacement : List Char}
    (hle : replacement.length ≤ pattern.length) (text : List Char) (skip : Nat) :
    (replaceAfter pattern replacement skip text).length ≤ text.length - skip := by
  induction text generalizing skip with
  | nil => simp [replaceAfter]
  | cons c rest ih =>
    cases skip with
    | succ skip =>
      rw [replaceAfter, List.length_cons, Nat.add_sub_add_right]
      exact ih skip
    | zero =>
      rw [replaceAfter]
      split
      · -- the replacement is no longer than the occurrence, whose rest is skipped
        rename_i hahead
        have hfits := (List.isPrefixOf_iff_prefix.mp hahead).length_le
        have hrest := ih (pattern.length - 1)
        rw [List.length_append, List.length_cons]
        rw [List.length_cons] at hfits
        omega
      · have hrest := ih 0
        simp only [List.length_cons]
        omega

/-- A text that is replaced by a shorter one makes what it occurs in shorter. -/
theorem length_replaceAll_lt {pattern replacement text : List Char}
    (hlt : replacement.length < pattern.length) (h : pattern <:+: text) :
    (replaceAll pattern replacement text).length < text.length := by
  have hne : pattern ≠ [] := by
    rintro rfl
    exact absurd hlt (Nat.not_lt_zero _)
  induction text with
  | nil => exact absurd (List.infix_nil.mp h) hne
  | cons c rest ih =>
    by_cases hahead : pattern <+: c :: rest
    · obtain ⟨after, hafter⟩ := hahead
      have hle := length_replaceAfter_le (Nat.le_of_lt hlt) after 0
      rw [← hafter, replaceAll_append hne, List.length_append, List.length_append,
        replaceAll_eq hne]
      omega
    · rw [replaceAll_cons hne hahead]
      exact Nat.succ_lt_succ (ih ((List.infix_cons_iff.mp h).resolve_left hahead))

end ApiClient.Text
