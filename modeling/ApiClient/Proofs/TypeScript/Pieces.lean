import ApiClient.Proofs.Json.Doubles
import ApiClient.Proofs.TypeScript.Lexing
import ApiClient.Proofs.TypeScript.TypeName

/-!
# Names, literals and keys

The smallest parts of a printed type are one token each. A name of the model keeps to the
characters of names, and an escaped text ends with its quote, not before. Two things can
go wrong: a name may be empty, and a text may have a line break, which is not escaped and
ends the line before the quote.
-/

namespace ApiClient.TypeScript

/-! ## One token -/

/-- A name ends where its characters end; a run of them that is no path is no token. -/
theorem nextToken_path {c : Char} {chars rest : List Char} (hdigit : c.isDigit = false)
    (hchars : ∀ d ∈ c :: chars, isPathChar d = true) (hrest : Parted rest) :
    nextToken (c :: chars ++ rest) = (path? (c :: chars)).map fun path => (.name path, rest) := by
  have hothers : ∀ d ∈ ['\'', '"', '-'] ++ marks, d ≠ c := by
    have hall : (['\'', '"', '-'] ++ marks).any isPathChar = false := by decide
    rintro d hd rfl
    exact List.any_eq_false.mp hall d hd (hchars d List.mem_cons_self)
  have hmark : c ∉ marks := fun h => hothers c (List.mem_append_right _ h) rfl
  have hsingle : c ≠ '\'' := (hothers _ (by decide)).symm
  have hdouble : c ≠ '"' := (hothers _ (by decide)).symm
  have hnumber : ¬ (c.isDigit = true ∨ c = '-') := by
    rintro (h | h)
    · exact Bool.false_ne_true (hdigit.symm.trans h)
    · exact hothers _ (by decide) h.symm
  rw [List.cons_append, nextToken, if_neg hmark, if_neg hsingle, if_neg hdouble, if_neg hnumber,
    ← List.cons_append, Json.takeWhile_run hrest.not_isPathChar hchars,
    Json.dropWhile_run hrest.not_isPathChar hchars]

/-- The tokens of a text that begins with a name. -/
theorem tokens_path {c : Char} {chars rest : List Char} (hdigit : c.isDigit = false)
    (hchars : ∀ d ∈ c :: chars, isPathChar d = true) (hrest : Parted rest) :
    tokens (c :: chars ++ rest) =
      (path? (c :: chars)).bind fun path => (tokens rest).map (.name path :: ·) := by
  have hc : Json.isJsonBlank c = false :=
    Json.not_isJsonBlank (hchars c List.mem_cons_self) (by decide)
  rw [List.cons_append, tokens_cons hc, ← List.cons_append, nextToken_path hdigit hchars hrest,
    Option.bind_map]
  rfl

/-- A text without line breaks. -/
def isOneLine (text : String) : Bool := text.toList.all fun c => !(c == '\n' || c == '\r')

/-- An escaped text is read back, unless a line break in it ends the line too soon. -/
theorem readSingle_escaped (chars rest : List Char) :
    readSingle (chars.flatMap escapeLiteral ++ '\'' :: rest) =
      if chars.all fun c => !(c == '\n' || c == '\r') then some (chars, rest) else none := by
  induction chars with
  | nil => exact readSingle_quote _
  | cons c chars ih =>
    rw [List.flatMap_cons, List.append_assoc, escapeLiteral]
    -- a backslash and a quote are escaped, a line break ends the reading, the rest stands
    by_cases hescape : c = '\\' ∨ c = '\''
    · have hline : (c == '\n' || c == '\r') = false := by
        rcases hescape with rfl | rfl <;> decide
      rw [if_pos hescape, List.cons_append, List.singleton_append, readSingle_escape _ hescape, ih,
        List.all_cons, hline]
      split <;> simp_all
    · rw [if_neg hescape, List.singleton_append]
      by_cases hline : c = '\n' ∨ c = '\r'
      · have hbreak : (c == '\n' || c == '\r') = true := by simpa using hline
        rw [readSingle_line _ hline, List.all_cons, hbreak]
        rfl
      · have hbreak : (c == '\n' || c == '\r') = false := by simpa using hline
        rw [readSingle_plain _ (fun h => hescape (.inr h)) hline (fun h => hescape (.inl h)), ih,
          List.all_cons, hbreak]
        split <;> simp_all

/-- A literal is the token of its text, unless the text has a line break. -/
theorem nextToken_textLiteral (text : String) (rest : List Char) :
    nextToken ((textLiteral text).toList ++ rest) =
      if isOneLine text then some (.text text, rest) else none := by
  have htext : (textLiteral text).toList ++ rest =
      '\'' :: (text.toList.flatMap escapeLiteral ++ '\'' :: rest) := by
    simp [textLiteral, singleQuoted]
  rw [htext, nextToken, if_neg (by decide), if_pos rfl, readSingle_escaped, isOneLine]
  split <;> simp

/-- The text of a whole number begins with a digit or with a sign. -/
theorem exists_toString_int (value : Int) :
    ∃ c rest, (toString value).toList = c :: rest ∧ (c.isDigit = true ∨ c = '-') := by
  have hdigits := Json.wholeDigits_toDigits value.natAbs
  obtain ⟨c, digits, hcons⟩ := List.exists_cons_of_ne_nil hdigits.ne_nil
  have hc : c.isDigit = true := hdigits.digit c (hcons ▸ List.mem_cons_self)
  rw [Json.toList_toString_int, hcons]
  cases decide (value < 0) with
  | true => exact ⟨_, _, rfl, .inr rfl⟩
  | false => exact ⟨_, _, rfl, .inl hc⟩

/-- The text of a whole number is the token of the number. -/
theorem nextToken_int (value : Int) :
    nextToken (toString value).toList = some (.number (.int value), []) := by
  obtain ⟨numeral, hread, hvalue⟩ := Json.readNumeral?_int value
  obtain ⟨c, rest, htext, hc⟩ := exists_toString_int value
  have hothers : ∀ d ∈ ['\'', '"'] ++ marks, d ≠ c := by
    have hall : (['\'', '"'] ++ marks).any (fun d => d.isDigit || d == '-') = false := by decide
    rintro d hd rfl
    exact List.any_eq_false.mp hall d hd (by simpa using hc)
  have hmark : c ∉ marks := fun h => hothers c (List.mem_append_right _ h) rfl
  rw [htext] at hread ⊢
  rw [nextToken, if_neg hmark, if_neg (hothers _ (by decide)).symm,
    if_neg (hothers _ (by decide)).symm, if_pos hc, hread, Option.map_some, ← hvalue]

/-! ## Names -/

/-- Whether characters are one name, without points. -/
def isWord : List Char → Bool
  | [] => false
  | c :: rest => !c.isDigit && (c :: rest).all isNameChar

theorem isCut_word {word : String} (h : isWord word.toList = true) :
    IsCut word.toList true [.name [word]] := by
  cases hword : word.toList with
  | nil =>
    rw [hword] at h
    cases h
  | cons c chars =>
    rw [hword, isWord, Bool.and_eq_true, Bool.not_eq_true', List.all_eq_true] at h
    obtain ⟨hdigit, hchars⟩ := h
    have hpoint : '.' ∉ c :: chars := fun hmem => absurd (hchars _ hmem) (by decide)
    have hname : String.ofList (c :: chars) = word := by rw [← hword, String.ofList_toList]
    have hpath : path? (c :: chars) = some [word] := by
      rw [path?, List.splitOn_eq_singleton hpoint]
      simp [isName, hdigit, hname]
    intro rest hrest
    rw [tokens_path hdigit (fun d hd => by rw [isPathChar, hchars d hd]; rfl) hrest, hpath,
      Option.bind_some, if_pos rfl]
    rfl

theorem isNameChar_of_isLetter {c : Char} (h : Text.IsLetter c) : isNameChar c = true := by
  rcases h with h | rfl | h
  · simp [isNameChar, Char.isAlphanum, h]
  · decide
  · have hcode : 0x80 ≤ c.toNat := Nat.le_trans (by decide) h
    simp [isNameChar, hcode]

theorem isDigit_of_isLetter {c : Char} (h : Text.IsLetter c) : c.isDigit = false := by
  rcases h with h | rfl | h
  · exact Text.isDigit_of_isAlpha h
  · decide
  · have hcode : '9'.toNat < c.toNat := Nat.lt_of_lt_of_le (by decide) h
    rw [Bool.eq_false_iff, ne_eq, Char.isDigit_iff_toNat]
    exact fun hdigit => Nat.not_lt.mpr hdigit.2 hcode

theorem isNameChar_of_mem_typeName {key : String} {c : Char} (h : c ∈ (typeName key).toList) :
    isNameChar c = true := by
  rcases typeName_cases key with hempty | ⟨first, rest, hname, hfirst, hrest⟩
  · rw [hempty] at h
    cases h
  · rw [hname] at h
    rcases List.mem_cons.mp h with rfl | h
    · exact isNameChar_of_isLetter hfirst
    · rcases hrest c h with h | h
      · exact isNameChar_of_isLetter h
      · rw [isNameChar, Char.isAlphanum, h, Bool.or_true]
        rfl

/-- The path of a name of the model, unless the name is empty. -/
theorem path?_model (key : String) :
    path? (modelNamespace.toList ++ '.' :: (typeName key).toList) =
    if typeName key != "" then some [modelNamespace, typeName key] else none := by
  have hpoint : '.' ∉ (typeName key).toList := fun h =>
    absurd (isNameChar_of_mem_typeName h) (by decide)
  have hsplit : (modelNamespace.toList ++ '.' :: (typeName key).toList).splitOn '.' =
      [modelNamespace.toList, (typeName key).toList] := by
    rw [List.splitOn_append_cons_self, List.splitOn_eq_singleton hpoint,
      List.splitOn_eq_singleton (by decide), List.singleton_append]
  rw [path?, hsplit]
  -- a key without word characters has the empty name, and a path has no empty part
  rcases typeName_cases key with hempty | ⟨first, rest, hname, hfirst, -⟩
  · rw [hempty]
    rfl
  · have hne : (typeName key != "") = true := by
      rw [bne_iff_ne]
      rintro he
      rw [he] at hname
      cases hname
    have hnames : List.all [modelNamespace.toList, (typeName key).toList] isName = true := by
      rw [hname]
      simp [isName, isDigit_of_isLetter hfirst]
      decide
    rw [if_pos hne, if_pos hnames]
    simp

/-- A name of the model is one path, unless it is empty. -/
theorem isCut_model (key : String) :
    IsCut (modelNamespace ++ "." ++ typeName key).toList (typeName key != "")
      [.name [modelNamespace, typeName key]] := by
  have htext : (modelNamespace ++ "." ++ typeName key).toList =
      modelNamespace.toList ++ '.' :: (typeName key).toList := by
    rw [String.toList_append, String.toList_append, List.append_assoc]
    rfl
  have hnamespace : modelNamespace.toList.all isPathChar = true := by decide
  have hchars : ∀ c ∈ modelNamespace.toList ++ '.' :: (typeName key).toList,
      isPathChar c = true := by
    intro c hc
    rcases List.mem_append.mp hc with hc | hc
    · exact List.all_eq_true.mp hnamespace c hc
    · rcases List.mem_cons.mp hc with rfl | hc
      · decide
      · rw [isPathChar, isNameChar_of_mem_typeName hc]
        rfl
  intro rest hrest
  rw [htext]
  refine (tokens_path (c := '_') (by decide) hchars hrest).trans ?_
  show (path? (modelNamespace.toList ++ '.' :: (typeName key).toList)).bind _ = _
  rw [path?_model]
  cases typeName key != "" <;> rfl

/-! ## Literals and keys -/

/-- A literal is a run of one token, unless its text has a line break. -/
theorem isCut_textLiteral (text : String) :
    IsCut (textLiteral text).toList (isOneLine text) [.text text] := by
  intro rest _
  have hhead : ∃ chars, (textLiteral text).toList ++ rest = '\'' :: chars :=
    ⟨text.toList.flatMap escapeLiteral ++ '\'' :: rest, by simp [textLiteral, singleQuoted]⟩
  obtain ⟨chars, hchars⟩ := hhead
  have hnext := nextToken_textLiteral text rest
  rw [hchars] at hnext ⊢
  rw [tokens_cons (by decide), hnext]
  cases isOneLine text <;> rfl

theorem isCut_int (value : Int) : IsCut (toString value).toList true [.number (.int value)] :=
  .of_tokens (by rw [tokens_of_nextToken (nextToken_int value), tokens_nil]; rfl)

/-- Whether the literal of a value stays on its line. -/
def isLegibleLiteral : Json → Bool
  | .string text => isOneLine text
  | _ => true

/-- A value that a literal can stand for. -/
def isBasic : Json → Bool
  | .null | .bool _ | .int _ | .string _ => true
  | .double _ | .array _ | .object _ => false

/-- The literal of a basic value is a phrase of its own. -/
theorem exists_literal {value : Json} (h : isBasic value = true) :
    ∃ core : Primary, core.tree = .literal value ∧
      IsCut (literal value).toList (isLegibleLiteral value) core.tokens := by
  cases value with
  | null => exact ⟨.name ["null"], rfl, isCut_word (by decide)⟩
  | bool value =>
    cases value with
    | true => exact ⟨.name ["true"], rfl, isCut_word (by decide)⟩
    | false => exact ⟨.name ["false"], rfl, isCut_word (by decide)⟩
  | int value => exact ⟨.number (.int value), rfl, isCut_int value⟩
  | string text => exact ⟨.text text, rfl, isCut_textLiteral text⟩
  | double | array | object => cases h

/-- A name that stands in single quotes as it is. -/
def IsPlainKey (name : String) : Prop :=
  ∀ c ∈ name.toList, c ≠ '\'' ∧ c ≠ '\\' ∧ c ≠ '\n' ∧ c ≠ '\r'

theorem singleQuoted_eq_textLiteral {name : String} (h : IsPlainKey name) :
    singleQuoted name = textLiteral name := by
  have hescape : name.toList.flatMap escapeLiteral = name.toList.flatMap fun c => [c] :=
    List.flatMap_congr fun c hc => if_neg (not_or.mpr ⟨(h c hc).2.1, (h c hc).1⟩)
  rw [textLiteral, hescape, List.flatMap_singleton', String.ofList_toList]

theorem isOneLine_of_isPlainKey {name : String} (h : IsPlainKey name) : isOneLine name = true := by
  rw [isOneLine, List.all_eq_true]
  intro c hc
  simp [(h c hc).2.2.1, (h c hc).2.2.2]

theorem isNameChar_of_isIdentifierPart {c : Char} (h : isIdentifierPart c = true) :
    isNameChar c = true := by
  simp only [isIdentifierPart, Text.isWordCharacter, Bool.or_eq_true, Bool.and_eq_true,
    decide_eq_true_eq] at h
  simp only [isNameChar, Bool.or_eq_true, decide_eq_true_eq]
  rcases h with ((h | h) | ⟨h, -⟩) | h
  · exact .inl (.inl (.inl h))
  · exact .inl (.inl (.inr h))
  · exact .inr h
  · exact .inl (.inr h)

/-- What is left of a text without a final line feed has all its other characters. -/
theorem eq_dropFinalNewline_append (text : List Char) :
    ∃ newline, text = Text.dropFinalNewline text ++ newline ∧
    (newline = [] ∨ newline = ['\n']) := by
  fun_induction Text.dropFinalNewline text with
  | case1 => exact ⟨[], rfl, .inl rfl⟩
  | case2 => exact ⟨['\n'], rfl, .inr rfl⟩
  | case3 c rest _ ih =>
    obtain ⟨newline, htext, hnewline⟩ := ih
    exact ⟨newline, congrArg (c :: ·) htext, hnewline⟩

theorem mem_of_mem_dropFinalNewline {text : List Char} {c : Char}
    (h : c ∈ Text.dropFinalNewline text) : c ∈ text := by
  obtain ⟨newline, htext, -⟩ := eq_dropFinalNewline_append text
  rw [htext]
  exact List.mem_append_left _ h

theorem dropFinalNewline_of_notMem {text : List Char} (h : '\n' ∉ text) :
    Text.dropFinalNewline text = text := by
  fun_induction Text.dropFinalNewline text with
  | case1 => rfl
  | case2 => exact absurd List.mem_cons_self h
  | case3 c rest _ ih => rw [ih (List.not_mem_of_not_mem_cons h)]

/-- An identifier on one line is a word. -/
theorem isWord_of_isPropertyName {name : String} (hplain : IsPlainKey name)
    (h : isPropertyName name = true) : isWord name.toList = true := by
  rw [isPropertyName] at h
  rw [IsPlainKey] at hplain
  cases hname : name.toList with
  | nil =>
    rw [hname] at h
    cases h
  | cons c rest =>
    rw [hname] at h hplain
    -- the test drops a line break at the end; a plain key has none
    have hbreak : '\n' ∉ rest := fun hmem => (hplain _ (List.mem_cons_of_mem _ hmem)).2.2.1 rfl
    rw [isIdentifier, dropFinalNewline_of_notMem hbreak, Bool.and_eq_true, List.all_eq_true] at h
    have hstart : isNameChar c = true ∧ c.isDigit = false := by
      simp only [isIdentifierStart, Bool.or_eq_true, beq_iff_eq] at h
      rcases h.1 with (h | rfl) | rfl
      · exact ⟨isNameChar_of_isLetter (.inl h), isDigit_of_isLetter (.inl h)⟩
      · decide
      · decide
    have hrest : rest.all isNameChar = true :=
      List.all_eq_true.mpr fun d hd => isNameChar_of_isIdentifierPart (h.2 d hd)
    simp [isWord, hstart.1, hstart.2, hrest]

/-- The key of a member is one token. -/
theorem exists_key {name : String} (h : IsPlainKey name) :
    ∃ key : Key, key.name = name ∧ IsCut (propertyKey name).toList true [key.token] := by
  unfold propertyKey
  cases hproperty : isPropertyName name with
  | true =>
    rw [if_pos rfl]
    exact ⟨.bare name, rfl, isCut_word (isWord_of_isPropertyName h hproperty)⟩
  | false =>
    rw [if_neg Bool.false_ne_true, singleQuoted_eq_textLiteral h]
    have hcut := isCut_textLiteral name
    rw [isOneLine_of_isPlainKey h] at hcut
    exact ⟨.quoted name, rfl, hcut⟩

end ApiClient.TypeScript
