import ApiClient.Proofs.Json.Doubles
import ApiClient.TypeScript.Literal
import ApiClient.TypeScript.Scalar

/-!
# Inside and outside of quotes

The automaton for unions knows of no escapes. A quote within a text is printed behind a
backslash, but it ends the literal for the automaton all the same, and from there on inside and
outside of quotes are exchanged. It never finds back, since a backslash can stand nowhere but
inside of quotes: a text that has a quote leaves the automaton inside of quotes, or makes it
give up. Texts without one are recognised, and so are whole numbers and truth values.
-/

namespace ApiClient

/-- Below 128 the ranges of decimal digits are not consulted. -/
theorem Text.isDecimalDigit_of_lt {c : Char} (h : c.toNat < 128) :
    isDecimalDigit c = c.isDigit := by
  have hranges : ∀ range ∈ decimalRanges, 128 ≤ range.1 := by decide
  have hnone :
      decimalRanges.any (fun range => range.1 ≤ c.toNat && c.toNat ≤ range.2) = false := by
    refine List.any_eq_false.mpr fun range hrange => ?_
    have hfirst := hranges range hrange
    rw [Bool.and_eq_true, decide_eq_true_eq, decide_eq_true_eq]
    omega
  rw [isDecimalDigit, hnone, Bool.or_false]

namespace TypeScript

namespace UnionState

/-! ## Runs -/

/-- The state behind a text, unless the automaton gives up in it. -/
def after (state : UnionState) (text : List Char) : Option UnionState := text.foldlM step state

variable {state next last : UnionState} {c : Char} {text rest : List Char}

theorem after_cons (state : UnionState) (c : Char) (rest : List Char) :
    state.after (c :: rest) = (state.step c).bind (·.after rest) :=
  List.foldlM_cons

theorem after_append (state : UnionState) (text rest : List Char) :
    state.after (text ++ rest) = (state.after text).bind (·.after rest) :=
  List.foldlM_append

theorem after_concat (h : state.after (text ++ [c]) = some last) :
    ∃ middle, state.after text = some middle ∧ middle.step c = some last := by
  rw [after_append] at h
  obtain ⟨middle, hmiddle, h⟩ := Option.bind_eq_some_iff.mp h
  rw [after_cons] at h
  obtain ⟨next, hstep, hnext⟩ := Option.bind_eq_some_iff.mp h
  obtain rfl := Option.some.inj hnext
  exact ⟨middle, hmiddle, hstep⟩

theorem run_append : state.run (text ++ rest) = (state.after text).any (·.run rest) := by
  induction text generalizing state with
  | nil => rfl
  | cons c text ih =>
    rw [List.cons_append, run, after_cons]
    cases state.step c with
    | none => rfl
    | some next => exact ih

theorem run_eq : state.run text = (state.after text).any accepts := by
  calc state.run text = state.run (text ++ []) := by rw [List.append_nil]
    _ = (state.after text).any accepts := run_append

/-- Inside of quotes no union ends. -/
theorem run_eq_false (h : ∀ last, state.after text = some last → last = quoted) :
    state.run text = false := by
  rw [run_eq]
  cases hafter : state.after text with
  | none => rfl
  | some last => rw [h last hafter]; rfl

/-! ## Inside and outside of quotes -/

/-- A state outside of quotes. Of a word or a separator something is left to come. -/
def Outside : UnionState → Prop
  | quoted => False
  | word rest => rest ≠ [] ∧ rest ⊆ ['r', 'u', 'e', 'a', 'l', 's']
  | separator rest => rest = ['|', ' '] ∨ rest = [' ']
  | start | separated | ended | sign | digits | point | fraction => True

theorem outside_start : Outside start := trivial

theorem outside_ended : Outside ended := trivial

/-- The characters that a union has outside of quotes, but for digits. -/
def outsideMarks : List Char := ['-', 't', 'f', 'r', 'u', 'e', 'a', 'l', 's', '|', ' ', '.']

/-- A character that a union has outside of quotes. -/
def IsOutside (c : Char) : Prop := c ∈ outsideMarks ∨ Text.isDecimalDigit c = true

/-- What a step from outside of quotes leads to. -/
inductive Leads : Char → UnionState → Prop where
  | quote : Leads '\'' quoted
  | outside {c : Char} {next : UnionState} (hc : IsOutside c) (hnext : Outside next)
      (hseparated : next = separated → c = ' ') : Leads c next

theorem begin_cases (h : begin? c = some next) : Leads c next := by
  unfold begin? at h
  split at h
  · obtain rfl := Option.some.inj h
    exact ‹c = _› ▸ .quote
  split at h
  · obtain rfl := Option.some.inj h
    exact .outside (.inl (by rw [‹c = _›]; decide)) trivial nofun
  split at h
  · obtain rfl := Option.some.inj h
    exact .outside (.inl (by rw [‹c = _›]; decide)) ⟨by decide, by decide⟩ nofun
  split at h
  · obtain rfl := Option.some.inj h
    exact .outside (.inl (by rw [‹c = _›]; decide)) ⟨by decide, by decide⟩ nofun
  split at h
  · rename_i hdigit
    obtain rfl := Option.some.inj h
    exact .outside (.inr hdigit) trivial nofun
  · cases h

theorem next_cases (h : next? c = some next) : Leads c next := by
  unfold next? at h
  split at h
  · obtain rfl := Option.some.inj h
    exact .outside (.inl (by rw [‹c = _›]; decide)) (.inl rfl) nofun
  · exact begin_cases h

theorem step_word (c head : Char) (rest : List Char) : (word (head :: rest)).step c =
    if c = head then some (if rest = [] then ended else word rest) else none := by
  cases rest <;> rfl

theorem step_separator (c head : Char) (rest : List Char) : (separator (head :: rest)).step c =
    if c = head then some (if rest = [] then separated else separator rest) else none := by
  cases rest <;> rfl

/-- **One character outside of quotes:** a quote leads into quotes, and no other character does. -/
theorem Outside.step_cases (h : Outside state)
    (hstep : state.step c = some next) : Leads c next := by
  cases state with
  | start | separated => exact begin_cases hstep
  | ended => exact next_cases hstep
  | quoted => exact h.elim
  | word rest =>
    obtain ⟨head, rest, rfl⟩ := List.exists_cons_of_ne_nil h.1
    obtain ⟨hhead, hrest⟩ := List.cons_subset.mp h.2
    have hmarks : ['r', 'u', 'e', 'a', 'l', 's'] ⊆ outsideMarks := by decide
    rw [step_word] at hstep
    split at hstep
    · rename_i hc
      obtain rfl := Option.some.inj hstep
      -- the word has ended, or what is left of it is among the same letters
      refine .outside (.inl (hc ▸ hmarks hhead)) ?_ ?_
      · split
        · trivial
        · exact ⟨‹_›, hrest⟩
      · split <;> nofun
    · cases hstep
  | separator rest =>
    rcases h with rfl | rfl
    all_goals
      rw [step_separator] at hstep
      split at hstep
      · rename_i hc
        obtain rfl := Option.some.inj hstep
        subst hc
        exact .outside (.inl (by decide)) (by simp [Outside]) (by simp)
      · cases hstep
  | sign | point =>
    rw [step] at hstep
    split at hstep
    · rename_i hdigit
      obtain rfl := Option.some.inj hstep
      exact .outside (.inr hdigit) trivial nofun
    · cases hstep
  | digits =>
    rw [step] at hstep
    split at hstep
    · obtain rfl := Option.some.inj hstep
      exact .outside (.inl (by rw [‹c = _›]; decide)) trivial nofun
    · exact next_cases hstep
  | fraction =>
    rw [step] at hstep
    split at hstep
    · rename_i hdigit
      obtain rfl := Option.some.inj hstep
      exact .outside (.inr hdigit) trivial nofun
    · exact next_cases hstep

/-- The characters of printed types that a union has only inside of quotes. -/
def barred : List Char := ['\\', '&', ']', '\x7d']

theorem not_outside_barred (hc : c ∈ '\'' :: barred) : ¬ IsOutside c := by
  have hall :
      ('\'' :: barred).all (fun d => !outsideMarks.contains d && d.toNat < 128 && !d.isDigit) =
      true := by decide
  have hthis := List.all_eq_true.mp hall c hc
  simp only [Bool.and_eq_true, Bool.not_eq_true', decide_eq_true_eq, List.contains_eq_mem,
    decide_eq_false_iff_not] at hthis
  obtain ⟨⟨hmark, hascii⟩, hdigit⟩ := hthis
  rw [← Text.isDecimalDigit_of_lt hascii] at hdigit
  exact fun houtside => houtside.elim hmark fun h => Bool.false_ne_true (hdigit.symm.trans h)

theorem Outside.step_quote (h : Outside state)
    (hstep : state.step '\'' = some next) : next = quoted := by
  cases h.step_cases hstep with
  | quote => rfl
  | outside hc => exact absurd hc (not_outside_barred List.mem_cons_self)

theorem Outside.step_barred (h : Outside state) (hc : c ∈ barred) : state.step c = none := by
  cases hstep : state.step c with
  | none => rfl
  | some next =>
    cases h.step_cases hstep with
    | quote => exact absurd hc (by decide)
    | outside houtside => exact absurd houtside (not_outside_barred (List.mem_cons_of_mem _ hc))

theorem step_quoted (h : c ≠ '\'') : quoted.step c = some quoted := by
  rw [step, if_neg h]

/-- Without a quote the automaton stays inside of quotes, -/
theorem after_quoted (h : '\'' ∉ text) : quoted.after text = some quoted := by
  induction text with
  | nil => rfl
  | cons c rest ih =>
    rw [List.mem_cons, not_or] at h
    rw [after_cons, step_quoted (Ne.symm h.1), Option.bind_some, ih h.2]

/-- and it stays outside of them. -/
theorem Outside.after (h : Outside state) (hquote : '\'' ∉ text)
    (hafter : state.after text = some last) : Outside last := by
  induction text generalizing state with
  | nil => exact Option.some.inj hafter ▸ h
  | cons c rest ih =>
    rw [List.mem_cons, not_or] at hquote
    rw [after_cons] at hafter
    obtain ⟨next, hstep, hafter⟩ := Option.bind_eq_some_iff.mp hafter
    cases h.step_cases hstep with
    | quote => exact absurd rfl hquote.1
    | outside _ hnext => exact ih hnext hquote.2 hafter

/-- A run is inside or outside of quotes at all times. -/
theorem quoted_or_outside (h : state = quoted ∨ Outside state)
    (hafter : state.after text = some last) : last = quoted ∨ Outside last := by
  induction text generalizing state with
  | nil => exact Option.some.inj hafter ▸ h
  | cons c rest ih =>
    rw [after_cons] at hafter
    obtain ⟨next, hstep, hafter⟩ := Option.bind_eq_some_iff.mp hafter
    refine ih ?_ hafter
    rcases h with rfl | h
    · rw [step] at hstep
      obtain rfl := Option.some.inj hstep
      split
      · exact .inr trivial
      · exact .inl rfl
    · cases h.step_cases hstep with
      | quote => exact .inl rfl
      | outside _ hnext => exact .inr hnext

/-- A character that is only inside of quotes leaves the automaton there. -/
theorem eq_quoted_of_barred (h : state = quoted ∨ Outside state) (hc : c ∈ barred)
    (hafter : state.after (text ++ [c]) = some last) : last = quoted := by
  obtain ⟨middle, hmiddle, hstep⟩ := after_concat hafter
  rcases quoted_or_outside h hmiddle with rfl | houtside
  · have hquote : c ≠ '\'' := by
      rintro rfl
      exact absurd hc (by decide)
    rw [step_quoted hquote] at hstep
    exact (Option.some.inj hstep).symm
  · rw [houtside.step_barred hc] at hstep
    cases hstep

/-- A quote at the end leads into quotes where the text in front of it leads out of them. -/
theorem eq_quoted_of_closing (h : ∀ middle, state.after text = some middle → Outside middle)
    (hafter : state.after (text ++ ['\'']) = some last) : last = quoted := by
  obtain ⟨middle, hmiddle, hstep⟩ := after_concat hafter
  exact (h middle hmiddle).step_quote hstep

/-! ## Texts that are taken in -/

/-- A text out of which a quote in front of it does not lead. -/
def Captive (text : List Char) : Prop := ∀ state, quoted.after text = some state → state = quoted

theorem captive_of_notMem (h : '\'' ∉ text) : Captive text := by
  intro state hafter
  rw [after_quoted h] at hafter
  exact (Option.some.inj hafter).symm

theorem captive_of_barred (hc : c ∈ barred) : Captive (text ++ [c]) :=
  fun _ => eq_quoted_of_barred (.inl rfl) hc

theorem Captive.append (h : Captive text) (hrest : Captive rest) : Captive (text ++ rest) := by
  intro state hafter
  rw [after_append] at hafter
  obtain ⟨middle, hmiddle, hafter⟩ := Option.bind_eq_some_iff.mp hafter
  obtain rfl := h middle hmiddle
  exact hrest state hafter

theorem Captive.intercalate {separator : String} {texts : List String}
    (hseparator : Captive separator.toList)
    (h : ∀ text ∈ texts, Captive text.toList) : Captive (separator.intercalate texts).toList := by
  induction texts with
  | nil => exact captive_of_notMem List.not_mem_nil
  | cons text texts ih =>
    obtain ⟨htext, htexts⟩ := List.forall_mem_cons.mp h
    cases texts with
    | nil => rwa [String.intercalate_singleton]
    | cons second others =>
      rw [String.intercalate_cons_cons, String.toList_append, String.toList_append]
      exact (htext.append hseparator).append (ih htexts)

/-! ## Literals of texts -/

/-- The quotes of a literal stand around its escaped text. -/
theorem toList_textLiteral (text : String) :
    (textLiteral text).toList = '\'' :: (text.toList.flatMap escapeLiteral ++ ['\'']) := by
  simp [textLiteral, singleQuoted]

theorem notMem_escapeLiteral (h : c ≠ '\'') : '\'' ∉ escapeLiteral c := by
  rw [escapeLiteral]
  split <;> simp [h.symm]

/-- An escaped text leads from outside of quotes into none: an escape begins with a backslash. -/
theorem Outside.after_escaped (h : Outside state)
    (hafter : state.after (text.flatMap escapeLiteral) = some last) : Outside last := by
  induction text generalizing state with
  | nil => exact Option.some.inj hafter ▸ h
  | cons c rest ih =>
    rw [List.flatMap_cons, after_append] at hafter
    obtain ⟨next, hnext, hafter⟩ := Option.bind_eq_some_iff.mp hafter
    refine ih ?_ hafter
    by_cases hescape : c = '\\' ∨ c = '\''
    · rw [escapeLiteral, if_pos hescape, after_cons, h.step_barred (by decide)] at hnext
      cases hnext
    · exact h.after (notMem_escapeLiteral fun hc => hescape (.inr hc)) hnext

/-- The first quote of a text leads out of the quotes around it. -/
theorem outside_of_mem (h : '\'' ∈ text)
    (hafter : quoted.after (text.flatMap escapeLiteral) = some last) : Outside last := by
  induction text with
  | nil => cases h
  | cons c rest ih =>
    rw [List.flatMap_cons, after_append] at hafter
    by_cases hc : c = '\''
    · -- the backslash in front of the quote is inside, and the quote ends the literal
      subst hc
      exact outside_ended.after_escaped hafter
    · rw [after_quoted (notMem_escapeLiteral hc), Option.bind_some] at hafter
      exact ih (List.mem_of_ne_of_mem (Ne.symm hc) h) hafter

theorem notMem_escaped (h : '\'' ∉ text) : '\'' ∉ text.flatMap escapeLiteral := by
  rw [List.mem_flatMap]
  rintro ⟨c, hc, hquote⟩
  exact notMem_escapeLiteral (fun h' => h (h' ▸ hc)) hquote

theorem captive_textLiteral (text : String) : Captive (textLiteral text).toList := by
  intro state hafter
  -- the quote in front ends what was open, so that the text lies outside
  -- and the last quote opens again
  rw [toList_textLiteral, after_cons, show quoted.step '\'' = some ended from rfl,
    Option.bind_some] at hafter
  exact eq_quoted_of_closing (fun _ => outside_ended.after_escaped) hafter

theorem after_textLiteral_of_notMem {text : String} (h : '\'' ∉ text.toList) :
    start.after (textLiteral text).toList = some ended := by
  rw [toList_textLiteral, after_cons, show start.step '\'' = some quoted from rfl,
    Option.bind_some, after_append, after_quoted (notMem_escaped h)]
  rfl

theorem eq_quoted_of_mem {text : String} (h : '\'' ∈ text.toList)
    (hafter : start.after (textLiteral text).toList = some last) : last = quoted := by
  rw [toList_textLiteral, after_cons, show start.step '\'' = some quoted from rfl,
    Option.bind_some] at hafter
  exact eq_quoted_of_closing (fun _ => outside_of_mem h) hafter

/-- The literal of a text is recognised just if the text has no quote. -/
theorem run_textLiteral_iff {text : String} :
    start.run (textLiteral text).toList = true ↔ '\'' ∉ text.toList := by
  constructor
  · intro h hquote
    rw [run_eq_false fun _ => eq_quoted_of_mem hquote] at h
    cases h
  · intro h
    rw [run_eq, after_textLiteral_of_notMem h]
    rfl

/-! ## Literals of numbers and words -/

/-- A digit begins a number, behind a sign or without one, and goes on in it. -/
theorem step_digit (hstate : state = start ∨ state = sign ∨ state = digits)
    (hc : c.isDigit = true) : state.step c = some digits := by
  have hothers : c ∉ ['\'', '-', 't', 'f', '.', ' '] := by
    have hall : ['\'', '-', 't', 'f', '.', ' '].any Char.isDigit = false := by decide
    exact fun hmem => List.any_eq_false.mp hall c hmem hc
  simp only [List.mem_cons, List.not_mem_nil, or_false, not_or] at hothers
  rcases hstate with rfl | rfl | rfl <;>
    simp [step, begin?, next?, hothers, Text.isDecimalDigit_of_isDigit hc]

theorem after_digits (hdigits : ∀ c ∈ text, c.isDigit = true) :
    digits.after text = some digits := by
  induction text with
  | nil => rfl
  | cons c rest ih =>
    obtain ⟨hc, hrest⟩ := List.forall_mem_cons.mp hdigits
    rw [after_cons, step_digit (.inr (.inr rfl)) hc, Option.bind_some, ih hrest]

theorem run_int (value : Int) : start.run (toString value).toList = true := by
  obtain ⟨c, rest, hcons⟩ := List.exists_cons_of_ne_nil (Json.digits_toDigits value.natAbs).ne_nil
  have hdigits : ∀ d ∈ c :: rest, d.isDigit = true := hcons ▸ Json.digit_of_mem_toDigits
  obtain ⟨hc, hrest⟩ := List.forall_mem_cons.mp hdigits
  have hafter : start.after (toString value).toList = some digits := by
    rw [Json.toList_toString_int, hcons]
    cases decide (value < 0) with
    | true =>
      show start.after ('-' :: c :: (rest ++ [])) = some digits
      rw [List.append_nil, after_cons, show start.step '-' = some sign from rfl,
        Option.bind_some, after_cons,
        step_digit (.inr (.inl rfl)) hc, Option.bind_some, after_digits hrest]
    | false =>
      show start.after (c :: (rest ++ [])) = some digits
      rw [List.append_nil, after_cons, step_digit (.inl rfl) hc, Option.bind_some,
        after_digits hrest]
  rw [run_eq, hafter]
  rfl

theorem run_bool (value : Bool) : start.run (Json.bool value).render.toList = true := by
  cases value <;> rfl

end UnionState

end TypeScript

end ApiClient
