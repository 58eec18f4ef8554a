import ApiClient.Proofs.Schema.Denotes

/-!
# Unions taken apart

A union of listed values is taken apart by the simplest scanner there is. A quote opens a text,
in which a backslash takes the next character as it is, and the next bare quote closes it; any
other literal goes on to the next space; and a bar between spaces separates two literals. Main
statement: whatever the listed texts hold, bars and quotes and backslashes in any order, the
scanner finds the listed values, all and in order.
-/

namespace ApiClient.TypeScript

/-! ## The scanner -/

/-- Scans a text from behind its opening quote. -/
def scanQuoted : List Char → Option (List Char × List Char)
  | [] => none
  | c :: rest =>
    if c = '\'' then some ([], rest)
    else if c = '\\' then
      match rest with
      | [] => none
      | taken :: after => (scanQuoted after).map fun (chars, after) => (taken :: chars, after)
    else (scanQuoted rest).map fun (chars, after) => (c :: chars, after)

/-- The value of a literal without quotes: a numeral or a word. -/
def bareValue? (chars : List Char) : Option Json :=
  match Json.readNumeral? chars with
  | some (numeral, []) => some numeral.value
  | _ => Tree.wordLiterals.lookup (String.ofList chars)

/-- Scans one literal. -/
def scanLiteral : List Char → Option (Json × List Char)
  | [] => none
  | c :: rest =>
    if c = '\'' then (scanQuoted rest).map fun (chars, after) =>
      (.string (String.ofList chars), after)
    else (bareValue? ((c :: rest).takeWhile (· ≠ ' '))).map fun value =>
      (value, (c :: rest).dropWhile (· ≠ ' '))

section

variable (rest : List Char)

theorem scanQuoted_quote : scanQuoted ('\'' :: rest) = some ([], rest) := by
  rw [scanQuoted.eq_def]
  rfl

theorem scanQuoted_backslash (taken : Char) : scanQuoted ('\\' :: taken :: rest) =
    (scanQuoted rest).map fun (chars, after) => (taken :: chars, after) := by
  rw [scanQuoted.eq_def]
  rfl

theorem scanQuoted_plain {c : Char} (hquote : c ≠ '\'') (hbackslash : c ≠ '\\') :
    scanQuoted (c :: rest) = (scanQuoted rest).map fun (chars, after) => (c :: chars, after) := by
  rw [scanQuoted.eq_def]
  simp only [if_neg hquote, if_neg hbackslash]

end

theorem length_of_scanQuoted {text chars after : List Char}
    (h : scanQuoted text = some (chars, after)) : after.length ≤ text.length := by
  fun_induction scanQuoted text generalizing chars with
  | case1 => cases h
  | case2 rest =>
    obtain ⟨-, rfl⟩ := Prod.mk.inj (Option.some.inj h)
    exact Nat.le_succ _
  | case3 => cases h
  | case4 taken rest _ ih =>
    obtain ⟨⟨chars', after'⟩, hscan, he⟩ := Option.map_eq_some_iff.mp h
    obtain ⟨-, rfl⟩ := Prod.mk.inj he
    exact Nat.le_succ_of_le (Nat.le_succ_of_le (ih hscan))
  | case5 c rest _ _ ih =>
    obtain ⟨⟨chars', after'⟩, hscan, he⟩ := Option.map_eq_some_iff.mp h
    obtain ⟨-, rfl⟩ := Prod.mk.inj he
    exact Nat.le_succ_of_le (ih hscan)

theorem length_of_scanLiteral {text after : List Char} {value : Json}
    (h : scanLiteral text = some (value, after)) : after.length ≤ text.length := by
  cases text with
  | nil => cases h
  | cons c rest =>
    rw [scanLiteral] at h
    split at h
    · obtain ⟨⟨chars, after'⟩, hscan, he⟩ := Option.map_eq_some_iff.mp h
      obtain ⟨-, rfl⟩ := Prod.mk.inj he
      exact Nat.le_succ_of_le (length_of_scanQuoted hscan)
    · obtain ⟨value', -, he⟩ := Option.map_eq_some_iff.mp h
      obtain ⟨-, rfl⟩ := Prod.mk.inj he
      exact Json.length_dropWhile_le _ _

/-- Scans a union: a literal, and another behind every separator. -/
def scanUnion (text : List Char) : Option (List Json) :=
  match hliteral : scanLiteral text with
  | none => none
  | some (value, []) => some [value]
  | some (value, after) =>
    match hseparator : Text.after? " | ".toList after with
    | none => none
    | some rest =>
      have : rest.length < text.length := by
        have hlength := Text.length_of_after? hseparator
        have hle := length_of_scanLiteral hliteral
        have hthree : " | ".toList.length = 3 := rfl
        omega
      (scanUnion rest).map (value :: ·)
termination_by text.length

theorem scanUnion_last {text : List Char} {value : Json}
    (h : scanLiteral text = some (value, [])) : scanUnion text = some [value] := by
  rw [scanUnion]
  split
  · rename_i hnone
    cases hnone.symm.trans h
  · rename_i hsome
    obtain ⟨rfl, -⟩ := Prod.mk.inj (Option.some.inj (hsome.symm.trans h))
    rfl
  · rename_i after hne hsome
    obtain ⟨-, rfl⟩ := Prod.mk.inj (Option.some.inj (hsome.symm.trans h))
    cases hne rfl

theorem scanUnion_more {text rest : List Char} {value : Json}
    (h : scanLiteral text = some (value, " | ".toList ++ rest)) :
    scanUnion text = (scanUnion rest).map (value :: ·) := by
  rw [scanUnion]
  split
  · rename_i hnone
    cases hnone.symm.trans h
  · rename_i hsome
    obtain ⟨-, hnil⟩ := Prod.mk.inj (Option.some.inj (hsome.symm.trans h))
    cases hnil
  · rename_i after hne hsome
    obtain ⟨rfl, rfl⟩ := Prod.mk.inj (Option.some.inj (hsome.symm.trans h))
    split
    · rename_i hnone
      cases hnone.symm.trans (Text.after?_eq_some.mpr rfl)
    · rename_i hrest
      obtain rfl := List.append_cancel_left (Text.after?_eq_some.mp hrest)
      rfl

/-! ## Printed literals -/

/-- An escaped text is scanned through its own quote, whatever it holds. -/
theorem scanQuoted_escaped (chars rest : List Char) :
    scanQuoted (chars.flatMap escapeLiteral ++ '\'' :: rest) = some (chars, rest) := by
  induction chars with
  | nil => exact scanQuoted_quote rest
  | cons c chars ih =>
    rw [List.flatMap_cons, List.append_assoc, escapeLiteral]
    by_cases hescape : c = '\\' ∨ c = '\''
    · rw [if_pos hescape, List.cons_append, List.singleton_append, scanQuoted_backslash, ih,
        Option.map_some]
    · obtain ⟨hbackslash, hquote⟩ := not_or.mp hescape
      rw [if_neg hescape, List.singleton_append, scanQuoted_plain _ hquote hbackslash, ih,
        Option.map_some]

/-- A text behind which a bare literal ends. -/
def Spaced (rest : List Char) : Prop := ∀ c, rest.head? = some c → c = ' '

theorem spaced_nil : Spaced [] := fun _ h => nomatch h

/-- A literal without quotes is scanned up to the space behind it. -/
theorem scanLiteral_bare {c : Char} {chars rest : List Char} {value : Json} (hquote : c ≠ '\'')
    (hspace : ' ' ∉ c :: chars) (hvalue : bareValue? (c :: chars) = some value)
    (hrest : Spaced rest) : scanLiteral (c :: chars ++ rest) = some (value, rest) := by
  have hend : ∀ d, rest.head? = some d → decide (d ≠ ' ') = false := by
    intro d hd
    obtain rfl := hrest d hd
    rfl
  have hchars : ∀ d ∈ c :: chars, decide (d ≠ ' ') = true := by
    intro d hd
    exact decide_eq_true fun he => hspace (he ▸ hd)
  rw [List.cons_append, scanLiteral, if_neg hquote, ← List.cons_append,
    Json.takeWhile_run hend hchars, Json.dropWhile_run hend hchars, hvalue, Option.map_some]

/-- The text of a whole number has digits, and perhaps a sign. -/
theorem digit_or_sign_of_mem {value : Int} {c : Char} (h : c ∈ (toString value).toList) :
    c.isDigit = true ∨ c = '-' := by
  rw [Json.toList_toString_int] at h
  rcases List.mem_append.mp h with h | h
  · unfold Json.signed at h
    split at h
    · exact .inr (List.mem_singleton.mp h)
    · cases h
  · have hdigit : c ∈ Nat.toDigits 10 value.natAbs := by
      simpa [Json.pointed, Json.powered] using h
    exact .inl (Json.digit_of_mem_toDigits c hdigit)

/-- The literal of a basic value is scanned as the value. -/
theorem scanLiteral_literal {value : Json} {rest : List Char} (h : isBasic value = true)
    (hrest : Spaced rest) :
    scanLiteral ((literal value).toList ++ rest) = some (value, rest) := by
  cases value with
  | null => exact scanLiteral_bare (by decide) (by decide) rfl hrest
  | bool value =>
    cases value with
    | true => exact scanLiteral_bare (by decide) (by decide) rfl hrest
    | false => exact scanLiteral_bare (by decide) (by decide) rfl hrest
  | int value =>
    obtain ⟨c, chars, htext, hc⟩ := exists_toString_int value
    obtain ⟨numeral, hread, hvalue⟩ := Json.readNumeral?_int value
    have hquote : c ≠ '\'' := by
      rintro rfl
      exact absurd hc (by decide)
    have hspace : ' ' ∉ c :: chars := by
      intro hmem
      rw [← htext] at hmem
      exact absurd (digit_or_sign_of_mem hmem) (by decide)
    have hbare : bareValue? (c :: chars) = some (.int value) := by
      rw [← htext, bareValue?, hread]
      exact congrArg some hvalue
    show scanLiteral ((toString value).toList ++ rest) = _
    rw [htext]
    exact scanLiteral_bare hquote hspace hbare hrest
  | string text =>
    have htext : (literal (.string text)).toList ++ rest =
        '\'' :: (text.toList.flatMap escapeLiteral ++ '\'' :: rest) := by
      simp [literal, textLiteral, singleQuoted]
    rw [htext, scanLiteral, if_pos rfl, scanQuoted_escaped, Option.map_some]
    dsimp only
    rw [String.ofList_toList]
  | double | array | object => cases h

/-! ## Printed unions -/

/-- A printed union is scanned as its values. -/
theorem scanUnion_literalUnion {values : List Json} (hne : values ≠ [])
    (h : ∀ value ∈ values, isBasic value = true) :
    scanUnion (literalUnion values).toList = some values := by
  induction values with
  | nil => exact absurd rfl hne
  | cons value rest ih =>
    obtain ⟨hvalue, hrest⟩ := List.forall_mem_cons.mp h
    cases rest with
    | nil =>
      have hscan := scanLiteral_literal hvalue spaced_nil
      rw [List.append_nil] at hscan
      exact scanUnion_last (by simpa [literalUnion] using hscan)
    | cons next rest =>
      have htext : (literalUnion (value :: next :: rest)).toList =
          (literal value).toList ++ (" | ".toList ++ (literalUnion (next :: rest)).toList) := by
        simp [literalUnion, List.map_cons, String.intercalate_cons_cons]
      have hspaced : Spaced (" | ".toList ++ (literalUnion (next :: rest)).toList) := by
        intro c hc
        exact (Option.some.inj hc).symm
      rw [htext, scanUnion_more (scanLiteral_literal hvalue hspaced),
        ih (List.cons_ne_nil _ _) hrest, Option.map_some]

/-- Some values can be read back wherever they are printed as a union. -/
structure ReadsBack (values : List Json) : Prop where
  /-- The type of a schema that lists the values. -/
  schema : ∃ type, Schema.resolve (.object [("enum", .array values)]) = .ok type ∧
    scanUnion type.text.toList = some values
  /-- The declaration of the values under any name, when one of them is no text. -/
  declaration (name : String) (h : ∃ value ∈ values, value.text? = none) :
    ∃ union, Enumeration.declaration name values = "export type " ++ name ++ " = " ++
    union ++ ";" ∧
      scanUnion union.toList = some values

/-- **A union of listed values can be read back.** -/
theorem readsBack_of_isBasic {values : List Json} (hne : values ≠ [])
    (h : ∀ value ∈ values, isBasic value = true) : ReadsBack values where
  schema := ⟨.union values, Schema.resolve_values rfl rfl rfl hne, scanUnion_literalUnion hne h⟩
  declaration name hother := by
    obtain ⟨value, hmem, hvalue⟩ := hother
    have hall : ¬ Enumeration.allTexts values = true := by
      intro htexts
      have htext := List.all_eq_true.mp htexts value hmem
      rw [hvalue] at htext
      cases htext
    exact ⟨literalUnion values, if_neg hall, scanUnion_literalUnion hne h⟩

/-- Values of every kind, the first of which has a quote, a backslash and a separator. -/
def mixedValues : List Json := [.string "it's' | 'a\\", .int (-5), .bool true, .null, .string ""]

/-- Quotes, backslashes and separators in a text are no ends of it. -/
theorem readsBack_mixedValues :
    mixedValues ≠ [] ∧ (∀ value ∈ mixedValues, isBasic value = true) ∧ ReadsBack mixedValues := by
  have hne : mixedValues ≠ [] := List.cons_ne_nil _ _
  have hbasic : ∀ value ∈ mixedValues, isBasic value = true := by simp [mixedValues, isBasic]
  exact ⟨hne, hbasic, readsBack_of_isBasic hne hbasic⟩

end ApiClient.TypeScript
