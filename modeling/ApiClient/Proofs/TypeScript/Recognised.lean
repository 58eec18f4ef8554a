import ApiClient.Proofs.Json.Figures
import ApiClient.Proofs.TypeScript.Pieces
import ApiClient.Proofs.TypeScript.UnionState

/-!
# Types that are recognised

Which printed types are told to be scalar. A union is just if each of its literals is: none of
them leads out of quotes that another has left open. What ends in a bracket is not, and neither
is an intersection, for these marks stand only inside of quotes.
-/

namespace ApiClient.TypeScript

/-! ## Texts that end in no blank -/

/-- A text that ends, and neither in a blank nor in a line feed. -/
def IsTrim (text : List Char) : Prop := ∃ front c, text = front ++ [c] ∧ c ≠ ' ' ∧ c ≠ '\n'

theorem IsTrim.of_forall {text : List Char} (hne : text ≠ [])
    (h : ∀ c ∈ text, c ≠ ' ' ∧ c ≠ '\n') : IsTrim text := by
  obtain ⟨front, c, rfl⟩ := (List.eq_nil_or_concat' text).resolve_left hne
  exact ⟨front, c, rfl, h c List.mem_concat_self⟩

theorem IsTrim.ne_nil {text : List Char} (h : IsTrim text) : text ≠ [] := by
  obtain ⟨front, c, rfl, -⟩ := h
  exact List.concat_ne_nil c front

theorem IsTrim.prepend {text rest : List Char} (h : IsTrim rest) : IsTrim (text ++ rest) := by
  obtain ⟨front, c, rfl, hc⟩ := h
  exact ⟨text ++ front, c, (List.append_assoc ..).symm, hc⟩

theorem IsTrim.intercalate {separator : String} {texts : List String} (hne : texts ≠ [])
    (h : ∀ text ∈ texts, IsTrim text.toList) : IsTrim (separator.intercalate texts).toList := by
  induction texts with
  | nil => exact absurd rfl hne
  | cons text texts ih =>
    obtain ⟨htext, htexts⟩ := List.forall_mem_cons.mp h
    cases texts with
    | nil => rwa [String.intercalate_singleton]
    | cons second others =>
      rw [String.intercalate_cons_cons, String.toList_append]
      exact (ih (List.cons_ne_nil _ _) htexts).prepend

theorem dropFinalNewline_of_isTrim {text : List Char} (h : IsTrim text) :
    Text.dropFinalNewline text = text := by
  obtain ⟨front, c, rfl, -, hc⟩ := h
  obtain ⟨newline, htext, rfl | rfl⟩ := eq_dropFinalNewline_append (front ++ [c])
  · rw [List.append_nil] at htext
    exact htext.symm
  · exact absurd (List.singleton_inj.mp (List.append_inj' htext rfl).2) hc

/-- The final line feed that is let pass is in none of these texts. -/
theorem isScalar_of_isTrim {text : String} (h : IsTrim text.toList) :
    isScalar text = (basicTypes.contains text || UnionState.start.run text.toList) := by
  rw [isScalar, dropFinalNewline_of_isTrim h, String.ofList_toList]

open UnionState

/-! ## Sealed texts -/

/-- A text out of which no quote leads that stands before it, and that ends in
neither a blank nor a line feed. -/
structure IsSealed (text : String) : Prop where
  captive : Captive text.toList
  trim : IsTrim text.toList

section

variable {printed : String} {front : List Char} {c : Char}

/-- A text is sealed by a class of characters without quotes, blanks and line feeds. -/
theorem isSealed_of_all {p : Char → Bool} (hothers : ['\'', ' ', '\n'].any p = false)
    (hne : printed.toList ≠ []) (h : ∀ d ∈ printed.toList, p d = true) : IsSealed printed := by
  have hnone := List.any_eq_false.mp hothers
  have hnot : ∀ d ∈ ['\'', ' ', '\n'], d ∉ printed.toList := fun d hd hmem => hnone d hd (h d hmem)
  refine ⟨captive_of_notMem (hnot _ (by decide)), .of_forall hne fun d hd => ⟨?_, ?_⟩⟩
  · exact fun hblank => hnot ' ' (by decide) (hblank ▸ hd)
  · exact fun hnewline => hnot '\n' (by decide) (hnewline ▸ hd)

theorem isSealed_of_plain (hplain : printed.toList.all Json.isPlain = true)
    (hne : printed.toList ≠ []) : IsSealed printed :=
  isSealed_of_all (by decide) hne (List.all_eq_true.mp hplain)

/-- A text is sealed by a last character that stands only inside of quotes. -/
theorem isSealed_of_barred (htext : printed.toList = front ++ [c]) (hc : c ∈ barred) :
    IsSealed printed where
  captive := htext ▸ captive_of_barred hc
  trim := by
    refine ⟨front, c, htext, ?_, ?_⟩ <;>
    · rintro rfl
      exact absurd hc (by decide)

theorem isSealed_textLiteral (text : String) : IsSealed (textLiteral text) :=
  ⟨captive_textLiteral text, '\'' :: text.toList.flatMap escapeLiteral, '\'',
    toList_textLiteral text, by decide, by decide⟩

theorem IsSealed.intercalate {separator : String} {texts : List String}
    (hseparator : '\'' ∉ separator.toList)
    (hne : texts ≠ []) (h : ∀ text ∈ texts, IsSealed text) :
    IsSealed (separator.intercalate texts) where
  captive := .intercalate (captive_of_notMem hseparator) fun text htext => (h text htext).captive
  trim := .intercalate hne fun text htext => (h text htext).trim

/-! ## All literals -/

/-- The basic types are words. -/
theorem notMem_basicTypes (hmem : c ∈ printed.toList) (hc : c.isAlpha = false) :
    printed ∉ basicTypes := by
  have hall : basicTypes.all (fun type => type.toList.all Char.isAlpha) = true := by decide
  intro h
  have halpha := List.all_eq_true.mp (List.all_eq_true.mp hall printed h) c hmem
  exact Bool.false_ne_true (hc.symm.trans halpha)

theorem notMem_basicTypes_of_barred (htext : printed.toList = front ++ [c]) (hc : c ∈ barred) :
    printed ∉ basicTypes := by
  have hall : barred.any Char.isAlpha = false := by decide
  have halpha := Bool.not_eq_true _ ▸ List.any_eq_false.mp hall c hc
  exact notMem_basicTypes (htext ▸ List.mem_concat_self) halpha

/-- A sealed text that is no basic type, as a literal is. -/
structure IsLiteral (text : String) : Prop extends IsSealed text where
  other : text ∉ basicTypes

theorem isLiteral_of_isFigures (h : Json.IsFigures printed.toList) : IsLiteral printed := by
  obtain ⟨c, hmem, hc⟩ := List.any_eq_true.mp h.2
  have halpha : c.isAlpha = false := by
    cases halpha : c.isAlpha with
    | false => rfl
    | true => exact absurd hc (Bool.not_eq_true _ ▸ isDigit_of_isLetter (.inl halpha))
  exact ⟨isSealed_of_plain h.1 (List.ne_nil_of_mem hmem), notMem_basicTypes hmem halpha⟩

theorem isLiteral_of_barred (htext : printed.toList = front ++ [c]) (hc : c ∈ barred) :
    IsLiteral printed :=
  ⟨isSealed_of_barred htext hc, notMem_basicTypes_of_barred htext hc⟩

theorem isLiteral_literal (value : Json) : IsLiteral (literal value) := by
  cases value with
  | null => exact ⟨isSealed_of_plain (by decide) (by decide), by decide⟩
  | bool value => cases value <;> exact ⟨isSealed_of_plain (by decide) (by decide), by decide⟩
  | int value => exact isLiteral_of_isFigures (Json.isFigures_int value)
  | double value =>
    cases value with
    | nan => exact ⟨isSealed_of_plain (by decide) (by decide), by decide⟩
    | infinity negative => cases negative <;>
        exact ⟨isSealed_of_plain (by decide) (by decide), by decide⟩
    | finite negative mantissa exponent =>
      exact isLiteral_of_isFigures
        (Json.isFigures_finite Json.renderedDoubles negative mantissa exponent)
  | string text =>
    have hquote : '\'' ∈ (textLiteral text).toList := toList_textLiteral text ▸ List.mem_cons_self
    exact ⟨isSealed_textLiteral text, notMem_basicTypes hquote (by decide)⟩
  | array items =>
    have htext : (literal (.array items)).toList =
        ("[" ++ ", ".intercalate (Json.renderItems items)).toList ++ [']'] := String.toList_append
    exact isLiteral_of_barred htext (by decide)
  | object members =>
    have htext : (literal (.object members)).toList =
        ("\x7b" ++ ", ".intercalate (Json.renderMembers members)).toList ++ ['\x7d'] :=
        String.toList_append
    exact isLiteral_of_barred htext (by decide)

theorem isLiteral_intercalate {texts : List String} (hne : texts ≠ [])
    (h : ∀ text ∈ texts, IsLiteral text) : IsLiteral (" | ".intercalate texts) where
  toIsSealed := .intercalate (by decide) hne fun text htext => (h text htext).toIsSealed
  other := by
    obtain ⟨text, texts, rfl⟩ := List.exists_cons_of_ne_nil hne
    cases texts with
    | nil =>
      rw [String.intercalate_singleton]
      exact (h text List.mem_cons_self).other
    | cons second others =>
      rw [String.intercalate_cons_cons]
      exact notMem_basicTypes (c := ' ') (by simp) (by decide)

end

/-! ## Unions -/

namespace UnionState

variable {state last : UnionState} {c : Char} {text : List Char}

/-- Only a blank ends a separator. -/
theorem ne_separated (h : state = quoted ∨ Outside state) (hc : c ≠ ' ')
    (hafter : state.after (text ++ [c]) = some last) : last ≠ separated := by
  obtain ⟨middle, hmiddle, hstep⟩ := after_concat hafter
  rcases quoted_or_outside h hmiddle with rfl | houtside
  · rw [step] at hstep
    obtain rfl := Option.some.inj hstep
    split <;> rintro ⟨⟩
  · cases houtside.step_cases hstep with
    | quote => rintro ⟨⟩
    | outside _ _ hseparated => exact fun h => hc (hseparated h)

/-- A separator may follow where a union may end. -/
theorem after_separator (h : Outside state) (hseparated : state ≠ separated) :
    state.after " | ".toList = if state.accepts then some separated else none := by
  cases state with
  | quoted => exact h.elim
  | separated => exact absurd rfl hseparated
  | start | ended | sign | digits | point | fraction => decide
  | separator rest => rcases h with rfl | rfl <;> decide
  | word rest =>
    -- no word has a blank, so it cannot be left before it has ended
    obtain ⟨head, rest, rfl⟩ := List.exists_cons_of_ne_nil h.1
    have hhead : ' ' ≠ head := by
      rintro rfl
      exact absurd (h.2 List.mem_cons_self) (by decide)
    show ((word (head :: rest)).step ' ').bind _ = _
    rw [step_word, if_neg hhead]
    rfl

theorem run_separated (h : text ≠ []) : separated.run text = start.run text := by
  obtain ⟨c, rest, rfl⟩ := List.exists_cons_of_ne_nil h
  rfl

/-- **A union is recognised just if each of its literals is:** a literal that leaves
the automaton inside of quotes does so for good, for the separator and the literals
behind it do not lead out of them. -/
theorem run_intercalate {texts : List String} (hne : texts ≠ [])
    (h : ∀ text ∈ texts, IsLiteral text) :
    start.run (" | ".intercalate texts).toList = texts.all fun text => start.run text.toList := by
  induction texts with
  | nil => exact absurd rfl hne
  | cons text texts ih =>
    obtain ⟨htext, htexts⟩ := List.forall_mem_cons.mp h
    cases texts with
    | nil => simp
    | cons second others =>
      have hrest := isLiteral_intercalate (List.cons_ne_nil second others) htexts
      have hseparator : Captive " | ".toList := captive_of_notMem (by decide)
      have hcaptive := hseparator.append hrest.captive
      have hrun : start.run text.toList = (start.after text.toList).any accepts := run_eq
      rw [String.intercalate_cons_cons, String.toList_append, String.toList_append,
        List.append_assoc, List.all_cons, ← ih (List.cons_ne_nil _ _) htexts, run_append, hrun]
      cases hafter : start.after text.toList with
      | none => rfl
      | some last =>
        show last.run _ = (last.accepts && _)
        obtain ⟨front, c, hend, hc, -⟩ := htext.trim
        have hseparated := ne_separated (.inr outside_start) hc (hend ▸ hafter)
        rcases quoted_or_outside (.inr outside_start) hafter with rfl | houtside
        · -- the literal has left quotes open, and what follows does not close them
          exact run_eq_false hcaptive
        · rw [run_append, after_separator houtside hseparated]
          cases last.accepts with
          | false => rfl
          | true => exact run_separated hrest.trim.ne_nil

end UnionState

/-! ## Scalars -/

theorem isScalar_of_isLiteral {text : String} (h : IsLiteral text) :
    isScalar text = start.run text.toList := by
  have hother : basicTypes.contains text = false := by
    rw [List.contains_eq_mem, decide_eq_false_iff_not]
    exact h.other
  rw [isScalar_of_isTrim h.trim, hother, Bool.false_or]

theorem isScalar_literal (value : Json) :
    isScalar (literal value) = start.run (literal value).toList :=
  isScalar_of_isLiteral (isLiteral_literal value)

theorem isLiteral_of_mem_map {values : List Json} : ∀ text ∈ values.map literal, IsLiteral text :=
  List.forall_mem_map.mpr fun value _ => isLiteral_literal value

theorem isLiteral_literalUnion {values : List Json} (hne : values ≠ []) :
    IsLiteral (literalUnion values) :=
  isLiteral_intercalate (List.map_eq_nil_iff.not.mpr hne) isLiteral_of_mem_map

/-- A union is scalar just if each of its literals is. -/
theorem isScalar_literalUnion {values : List Json} (hne : values ≠ []) :
    isScalar (literalUnion values) = values.all fun value => isScalar (literal value) := by
  rw [isScalar_of_isLiteral (isLiteral_literalUnion hne), literalUnion,
    run_intercalate (List.map_eq_nil_iff.not.mpr hne) isLiteral_of_mem_map, List.all_map]
  simp only [isScalar_literal]
  rfl

/-- A text is scalar just if it has no quote. -/
theorem isScalar_textLiteral {text : String} : isScalar (literal (.string text)) = true ↔
    '\'' ∉ text.toList := by
  rw [isScalar_literal]
  exact run_textLiteral_iff

/-- A text is not scalar if all that the automaton can come to is to be inside of quotes. -/
theorem isScalar_of_lost {text : String} (h : IsLiteral text)
    (hlost : ∀ last, start.after text.toList = some last → last = quoted) :
    isScalar text = false := by
  rw [isScalar_of_isLiteral h, run_eq_false hlost]

theorem isScalar_of_barred {text : String} {front : List Char} {c : Char}
    (htext : text.toList = front ++ [c]) (hc : c ∈ barred) : isScalar text = false :=
  isScalar_of_lost (isLiteral_of_barred htext hc) fun _ hafter =>
    eq_quoted_of_barred (.inr outside_start) hc (htext ▸ hafter)

/-- Where the first part of an intersection ends, the automaton is inside
of quotes, if it comes so far. -/
theorem isScalar_intercalate {first second : String} {others : List String}
    (h : ∀ text ∈ first :: second :: others, IsSealed text) :
    isScalar (" & ".intercalate (first :: second :: others)) = false := by
  obtain ⟨hfirst, hrest⟩ := List.forall_mem_cons.mp h
  have hsealed : IsSealed (" & ".intercalate (second :: others)) :=
    .intercalate (by decide) (List.cons_ne_nil second others) hrest
  have hblank : Captive [' '] := captive_of_notMem (by decide)
  have htext : (" & ".intercalate (first :: second :: others)).toList =
      (first.toList ++ [' ']) ++ ['&'] ++
      ([' '] ++ (" & ".intercalate (second :: others)).toList) := by
    rw [String.intercalate_cons_cons, String.toList_append, String.toList_append]
    simp
  have hother : " & ".intercalate (first :: second :: others) ∉ basicTypes :=
    notMem_basicTypes (c := '&') (by simp) (by decide)
  refine isScalar_of_lost ⟨.intercalate (by decide) (List.cons_ne_nil _ _) h,
    hother⟩ fun last hafter => ?_
  -- the mark between the parts is passed only inside of quotes, and no part
  -- behind it leads out of them
  rw [htext, after_append] at hafter
  obtain ⟨middle, hmiddle, hafter⟩ := Option.bind_eq_some_iff.mp hafter
  obtain rfl := eq_quoted_of_barred (.inr outside_start) (by decide) hmiddle
  exact hblank.append hsealed.captive last hafter

end ApiClient.TypeScript
