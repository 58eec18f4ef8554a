import ApiClient.Proofs.Text.Casing
import ApiClient.Proofs.TypeScript.PropertyName

/-!
# Names of variables

A class body is strict code, in which more words are reserved than elsewhere. The test for
names of variables does not know these words, it overlooks a line feed at the end of a name,
and it takes word characters that are for no name: these are the three ways for a name to pass
the test that cannot be declared.
-/

namespace ApiClient.TypeScript

/-- Words that are reserved everywhere. -/
def keywords : List String := [
  "break", "case", "catch", "class", "const", "continue", "debugger", "default", "delete", "do",
  "else", "enum", "export", "extends", "false", "finally", "for", "function", "if", "import", "in",
  "instanceof", "new", "null", "return", "super", "switch", "this", "throw", "true", "try",
  "typeof", "var", "void", "while", "with"]

/-- Words that are reserved in strict code only. -/
def strictWords : List String := [
  "arguments", "eval", "implements", "interface", "let", "package", "private", "protected",
  "public", "static", "yield"]

/-- Whether a whole text is the name of an identifier. -/
def isWholeName : List Char → Bool
  | [] => false
  | c :: rest => isNameStart c && rest.all isNamePart

/-- A name that can be declared in the body of a class, and stand there for itself. -/
structure IsBindable (name : String) : Prop where
  whole : isWholeName name.toList = true
  free : name ∉ keywords ++ strictWords

/-- A word character that cannot stand in a name. -/
def isStray (c : Char) : Bool :=
  strayRanges.any fun range => range.1 ≤ c.toNat && c.toNat ≤ range.2

/-- What a name that passes the test needs besides. -/
structure IsSafe (name : String) : Prop where
  ended : name.toList.getLast? ≠ some '\n'
  pure : ∀ c ∈ name.toList, isStray c = false
  free : name ∉ strictWords

theorem isNamePart_iff {c : Char} :
    isNamePart c = true ↔ isIdentifierPart c = true ∧ isStray c = false := by
  rw [isNamePart, Bool.and_eq_true, Bool.not_eq_true', isStray]

theorem isNamePart_of_isAlphanum {c : Char} (h : c.isAlphanum = true) : isNamePart c = true :=
  isNamePart_of_lt (by rw [isIdentifierPart, Text.isWordCharacter_of_isAlphanum h, Bool.true_or])
    (Nat.lt_of_lt_of_le (Text.toNat_lt_of_isAlphanum h) (by decide))

/-- A letter or a digit begins a name just if it is a letter. -/
theorem isNameStart_of_isAlphanum {c : Char} (h : c.isAlphanum = true) :
    isNameStart c = c.isAlpha := by
  have hothers : ∀ {d : Char}, d.isAlphanum = false → (c == d) = false := by
    intro d hd
    rw [beq_eq_false_iff_ne]
    rintro rfl
    exact Bool.false_ne_true (hd.symm.trans h)
  have hascii : decide (0x80 ≤ c.toNat) = false :=
    decide_eq_false (Nat.not_le.mpr (Text.toNat_lt_of_isAlphanum h))
  rw [isNameStart, hascii, isIdentifierStart, hothers (by decide), hothers (by decide)]
  simp

section

variable {name : String}

/-- A bare name has the characters that are tested for, and it may have a line feed behind them. -/
theorem exists_parts (hbare : isPropertyName name = true) : ∃ chars newline,
    name.toList = chars ++ newline ∧ (∀ c ∈ chars, isIdentifierPart c = true) ∧
      (newline = [] ∨ newline = ['\n']) := by
  obtain ⟨c, chars, hname, hstart, hparts⟩ := exists_identifier hbare
  obtain ⟨newline, htext, hnewline⟩ := eq_dropFinalNewline_append name.toList
  have hc := (isNamePart_iff.mp (isNamePart_of_isIdentifierStart hstart)).1
  exact ⟨c :: chars, newline, hname ▸ htext, List.forall_mem_cons.mpr ⟨hc, hparts⟩, hnewline⟩

theorem isWholeName_iff_forall (hbare : isPropertyName name = true) :
    isWholeName name.toList = true ↔ ∀ c ∈ name.toList, isNamePart c = true := by
  obtain ⟨c, chars, hname, hstart⟩ := exists_cons_of_isPropertyName hbare
  have hnameStart : isNameStart c = true := by rw [isNameStart, hstart, Bool.true_or]
  rw [hname, isWholeName, hnameStart, Bool.true_and, List.all_eq_true, List.forall_mem_cons]
  exact ⟨fun h => ⟨isNamePart_of_isIdentifierStart hstart, h⟩, (·.2)⟩

/-- A bare name is whole just if it ends in no line feed and has only characters of names. -/
theorem isWholeName_iff (hbare : isPropertyName name = true) : isWholeName name.toList = true ↔
    name.toList.getLast? ≠ some '\n' ∧ ∀ c ∈ name.toList, isStray c = false := by
  rw [isWholeName_iff_forall hbare]
  constructor
  · intro h
    refine ⟨fun hlast => ?_, fun c hc => (isNamePart_iff.mp (h c hc)).2⟩
    exact absurd (h '\n' (List.mem_of_getLast? hlast)) (by decide)
  · rintro ⟨hlast, hpure⟩ c hc
    obtain ⟨chars, newline, htext, hparts, rfl | rfl⟩ := exists_parts hbare
    · rw [List.append_nil] at htext
      exact isNamePart_iff.mpr ⟨hparts c (htext ▸ hc), hpure c hc⟩
    · rw [htext, List.getLast?_concat] at hlast
      exact absurd rfl hlast

/-- **Which names that pass the test can be declared:** those that end in no line feed, have
none of the characters that are for no name, and are not reserved in strict code. -/
theorem isBindable_iff_isSafe (h : isVariableName name = true) :
    IsBindable name ↔ IsSafe name := by
  rw [isVariableName, Bool.and_eq_true, Bool.not_eq_true'] at h
  have hkeyword : name ∉ keywords := by
    show name ∉ reservedWords
    simpa using h.2
  constructor
  · rintro ⟨hwhole, hfree⟩
    obtain ⟨hended, hpure⟩ := (isWholeName_iff h.1).mp hwhole
    exact ⟨hended, hpure, fun hstrict => hfree (List.mem_append_right _ hstrict)⟩
  · rintro ⟨hended, hpure, hfree⟩
    exact ⟨(isWholeName_iff h.1).mpr ⟨hended, hpure⟩, List.not_mem_append hkeyword hfree⟩

end

end ApiClient.TypeScript
