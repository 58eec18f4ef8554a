import ApiClient.Proofs.TypeScript.PropertyName

/-!
# Declarations of texts

A declaration of texts has one member for each, with the text as its value and a name made of
it. Main statement: which lists of texts it declares, each with its own name. A member is not
read at all if its text has a line break, or is printed bare and has a character that cannot
stand in a name. And a name in quotes may be any text but that of a number, which the language
takes for the index of a member; what a number is called is told by its shortest digits.
-/

namespace ApiClient.TypeScript

open Json (skipBlanks isJsonBlank)

/-! ## Names of numbers -/

/-- The text of a positive number with certain digits, the first of which has a certain
magnitude. A power of ten is written beyond twenty-one places before the point, and for
more than five zeros behind it. -/
def digitsText (digits : List Char) (magnitude : Int) : List Char :=
  let whole := magnitude.toNat + 1
  if 0 ≤ magnitude ∧ magnitude ≤ 20 then
    if digits.length ≤ whole then digits ++ List.replicate (whole - digits.length) '0'
    else digits.take whole ++ '.' :: digits.drop whole
  else if -6 ≤ magnitude ∧ magnitude < 0 then
    '0' :: '.' :: List.replicate (-magnitude - 1).toNat '0' ++ digits
  else
    digits.take 1 ++ (if digits.length ≤ 1 then [] else '.' :: digits.drop 1) ++
      'e' :: (if magnitude < 0 then '-' else '+') :: Nat.toDigits 10 magnitude.natAbs

example : digitsText ['1', '2'] 21 = "1.2e+21".toList := by decide

/-- The text of a finite number. Zero has no sign. -/
def numberText (negative : Bool) (mantissa : Nat) (exponent : Int) : List Char :=
  if mantissa = 0 then ['0']
  else
    let decimal := Binary64.shortest mantissa exponent
    let digits := Nat.toDigits 10 decimal.digits
    (if negative then ['-'] else []) ++ digitsText digits (digits.length + decimal.exponent - 1)

/-- A name is that of a number: the number is written like it. -/
def IsNumeric (name : List Nat) : Prop :=
  ∃ negative mantissa exponent, Binary64.Canonical (.finite negative mantissa exponent) ∧
    name = units (numberText negative mantissa exponent)

/-! ## Reading -/

/-- A member of an enumeration, as it is read. -/
structure EnumMember where
  name : List Nat
  /-- Whether the name is an identifier, and not a text in quotes. -/
  bare : Bool
  value : List Nat

/-- Reads a member whose value is a text in single quotes. -/
def readEnumMember (text : List Char) : Option (EnumMember × List Char) :=
  (readKey text).bind fun (name, after) =>
    if after.head? = some '=' then
      (readQuotedName (skipBlanks after.tail)).map fun (value, rest) =>
        (⟨name, text.head? != some '\'', value⟩, rest)
    else none

theorem length_of_readEnumMember {text after : List Char} {member : EnumMember}
    (h : readEnumMember text = some (member, after)) : after.length ≤ text.length := by
  obtain ⟨⟨name, behind⟩, hkey, h⟩ := Option.bind_eq_some_iff.mp h
  have hbehind := length_of_readKey hkey
  dsimp only at h
  split at h
  · obtain ⟨⟨value, rest⟩, hvalue, he⟩ := Option.map_eq_some_iff.mp h
    obtain ⟨-, rfl⟩ := Prod.mk.inj he
    calc
      rest.length ≤ (skipBlanks behind.tail).length := length_of_readQuotedName hvalue
      _ ≤ behind.tail.length := Json.length_skipBlanks_le behind.tail
      _ ≤ behind.length := behind.tail_suffix.length_le
      _ ≤ text.length := hbehind
  · cases h

/-- Reads members with commas between them, through the closing brace. One
comma may stand behind the last. -/
def readEnumMembers (text : List Char) : Option (List EnumMember × List Char) :=
  if text.head? = some '\x7d' then some ([], skipBlanks text.tail)
  else
    match hmember : readEnumMember text with
    | none => none
    | some (member, after) =>
      if hcomma : after.head? = some ',' then
        have : (skipBlanks after.tail).length < text.length := by
          obtain ⟨rest, rfl⟩ := List.head?_eq_some_iff.mp hcomma
          have hskip := Json.length_skipBlanks_le rest
          have hafter := length_of_readEnumMember hmember
          rw [List.length_cons] at hafter
          rw [List.tail_cons]
          omega
        (readEnumMembers (skipBlanks after.tail)).map fun (members, rest) =>
        (member :: members, rest)
      else if after.head? = some '\x7d' then some ([member], skipBlanks after.tail)
      else none
termination_by text.length

/-- A text declares an enumeration of a certain name with certain members. -/
def IsEnumeration (text name : String) (members : List EnumMember) : Prop :=
  ∃ body, text = "export enum " ++ name ++ " \x7b" ++ body ∧
    readEnumMembers (skipBlanks body.toList) = some (members, [])

/-- A text declares some texts, in order: it has a member for each, with the text as its value,
and the members have names that are legal and told apart. -/
def DeclaresEach (text name : String) (values : List String) : Prop :=
  ∃ members, IsEnumeration text name members ∧
  members.map (·.value) = values.map (units ·.toList) ∧
    (∀ member ∈ members, member.bare = true ∨ ¬ IsNumeric member.name) ∧
    (members.map (·.name)).Nodup

/-! ## Literals -/

theorem readEscape_self {c : Char} (h : c = '\\' ∨ c = '\'') (rest : List Char) :
    readEscape (c :: rest) = some (pointUnits c.toNat, rest) := by
  rcases h with rfl | rfl <;> rfl

/-- An escaped text is read as itself, unless a line break in it ends the line before the quote. -/
theorem readQuoted_escaped (chars rest : List Char) :
    readQuoted (chars.flatMap escapeLiteral ++ '\'' :: rest) =
      if chars.all fun c => !(c == '\n' || c == '\r') then some (units chars, rest) else none := by
  induction chars with
  | nil => exact readQuoted_quote rest
  | cons c chars ih =>
    rw [List.flatMap_cons, List.append_assoc, escapeLiteral, List.all_cons]
    by_cases hescape : c = '\\' ∨ c = '\''
    · have hline : (c == '\n' || c == '\r') = false := by
        rcases hescape with rfl | rfl <;> decide
      rw [if_pos hescape, List.cons_append, List.singleton_append,
        readQuoted_escape (readEscape_self hescape _), ih, hline, Bool.not_false, Bool.true_and]
      split <;> rfl
    · -- what is not escaped stands as it is, and a line break cannot stand there
      rw [if_neg hescape, List.singleton_append]
      by_cases hline : c = '\n' ∨ c = '\r'
      · have hbreak : (c == '\n' || c == '\r') = true := by simpa using hline
        rw [readQuoted, if_neg (fun h => hescape (.inr h)), if_pos hline, hbreak]
        rfl
      · have hbreak : (c == '\n' || c == '\r') = false := by simpa using hline
        obtain ⟨hbackslash, hquote⟩ := not_or.mp hescape
        rw [readQuoted_plain ⟨hquote, hbackslash, not_or.mp hline⟩, ih, hbreak, Bool.not_false,
          Bool.true_and]
        split <;> rfl

/-- A literal is read as its text, unless the text has a line break. -/
theorem readQuotedName_textLiteral (text : String) (rest : List Char) :
    readQuotedName ((textLiteral text).toList ++ rest) =
      if isOneLine text then some (units text.toList, skipBlanks rest) else none := by
  have htext : (textLiteral text).toList ++ rest =
      '\'' :: (text.toList.flatMap escapeLiteral ++ '\'' :: rest) := by
    simp [textLiteral, singleQuoted]
  rw [htext, readQuotedName, if_pos rfl, readQuoted_escaped, isOneLine]
  split <;> rfl

/-! ## Bare names -/

theorem notMem_of_isOneLine {text : String} (h : isOneLine text = true) : '\n' ∉ text.toList := by
  intro hmem
  have hbreak := List.all_eq_true.mp h '\n' hmem
  exact absurd hbreak (by decide)

section

variable {name : String} (hbare : isPropertyName name = true)

include hbare

/-- A bare name of characters of names is read up to the sign of equality behind it,
with a line feed or without. -/
theorem readName_whole (hwhole : ∀ c ∈ Text.dropFinalNewline name.toList, isNamePart c = true)
    (rest : List Char) : readName (name.toList ++ ' ' :: '=' :: rest) =
      some (units (Text.dropFinalNewline name.toList), '=' :: rest) := by
  obtain ⟨newline, htext, hnewline⟩ := eq_dropFinalNewline_append name.toList
  obtain ⟨c, chars, hname, hstart, -⟩ := exists_identifier hbare
  rw [hname, List.forall_mem_cons] at hwhole
  have hend : ∀ d, (newline ++ ' ' :: '=' :: rest).head? = some d → isNamePart d = false := by
    intro d hd
    rcases hnewline with rfl | rfl
    · obtain rfl := Option.some.inj hd
      decide
    · obtain rfl := Option.some.inj hd
      decide
  have hskip : skipBlanks (newline ++ ' ' :: '=' :: rest) = '=' :: rest := by
    rcases hnewline with rfl | rfl <;> rfl
  have hnameStart : isNameStart c = true := by rw [isNameStart, hstart, Bool.true_or]
  rw [hname] at htext ⊢
  rw [htext, List.append_assoc, List.cons_append, readName, if_pos hnameStart,
    Json.takeWhile_run hend hwhole.2, Json.dropWhile_run hend hwhole.2, hskip]

/-- Any other bare name is read up to a character that is no sign of equality. -/
theorem readName_stray (hstray : ¬ ∀ c ∈ Text.dropFinalNewline name.toList, isNamePart c = true)
    (rest : List Char) :
    ∃ read after, readName (name.toList ++ rest) = some (read, after) ∧
    after.head? ≠ some '=' := by
  obtain ⟨newline, htext, -⟩ := eq_dropFinalNewline_append name.toList
  obtain ⟨c, chars, hname, hstart, hparts⟩ := exists_identifier hbare
  rw [hname, List.forall_mem_cons] at hstray
  have hdrop : chars.dropWhile isNamePart ≠ [] := fun hnil =>
    hstray ⟨isNamePart_of_isIdentifierStart hstart, List.dropWhile_eq_nil_iff.mp hnil⟩
  obtain ⟨d, others, hothers⟩ := List.exists_cons_of_ne_nil hdrop
  have hd : isIdentifierPart d = true :=
    hparts d ((List.dropWhile_suffix isNamePart).subset (hothers ▸ List.mem_cons_self))
  have hblank : isJsonBlank d = false := Json.not_isJsonBlank hd (by decide)
  have hsign : d ≠ '=' := by
    rintro rfl
    exact absurd hd (by decide)
  -- the name breaks off inside, and no sign follows it
  have hbehind : (chars ++ (newline ++ rest)).dropWhile isNamePart =
      d :: (others ++ (newline ++ rest)) := by
    rw [List.dropWhile_append, hothers]
    rfl
  have hnameStart : isNameStart c = true := by rw [isNameStart, hstart, Bool.true_or]
  rw [htext, hname, List.append_assoc, List.cons_append, readName, if_pos hnameStart, hbehind,
    Json.skipBlanks_unpadded (Json.unpadded_cons hblank)]
  exact ⟨_, _, rfl, fun h => hsign (Option.some.inj h)⟩

end

/-! ## Members -/

/-- A text is read back from the line of its member: it has no line break, and where it is
printed bare it has only characters of names. -/
def isReadable (value : String) : Bool :=
  isOneLine value && (!isPropertyName value || value.toList.all isNamePart)

/-- The member that a readable text becomes. -/
def memberOf (value : String) : EnumMember :=
  ⟨units value.toList, isPropertyName value, units value.toList⟩

theorem memberName_bare {value : String} (h : isPropertyName value = true) :
    Enumeration.memberName (.string value) = value := if_pos h

theorem memberName_quoted {value : String} (h : isPropertyName value = false) :
    Enumeration.memberName (.string value) = textLiteral value :=
  if_neg fun hbare => Bool.false_ne_true (h.symm.trans hbare)

/-- What is printed for a text behind the name of its member, with the comma and what follows. -/
def printedValue (value : String) (rest : List Char) : List Char :=
  '=' :: ' ' :: ((textLiteral value).toList ++ ',' :: rest)

/-- What is printed for a text, with the comma and what follows. -/
def printedMember (value : String) (rest : List Char) : List Char :=
  (Enumeration.memberName (.string value)).toList ++ ' ' :: printedValue value rest

/-- Once the name is read, the value is, unless it has a line break. -/
theorem readEnumMember_of_readKey {text rest : List Char} {name : List Nat} {value : String}
    (h : readKey text = some (name, printedValue value rest)) : readEnumMember text =
      if isOneLine value then
        some (⟨name, text.head? != some '\'', units value.toList⟩, ',' :: rest)
      else none := by
  have hblank : skipBlanks (printedValue value rest).tail =
      (textLiteral value).toList ++ ',' :: rest := by
    simp [printedValue, textLiteral, singleQuoted, skipBlanks, isJsonBlank]
  have hsign : (printedValue value rest).head? = some '=' := rfl
  rw [readEnumMember, h, Option.bind_some]
  dsimp only
  rw [if_pos hsign, hblank, readQuotedName_textLiteral]
  split <;> rfl

theorem readEnumMember_bare {value : String} (hbare : isPropertyName value = true)
    (rest : List Char) : readEnumMember (printedMember value rest) =
      if isReadable value then some (memberOf value, ',' :: rest) else none := by
  have htext : printedMember value rest = value.toList ++ ' ' :: printedValue value rest := by
    rw [printedMember, memberName_bare hbare]
  have hhead : (printedMember value rest).head? != some '\'' := by
    obtain ⟨c, chars, hchars, hstart⟩ := exists_cons_of_isPropertyName hbare
    have hquote : c ≠ '\'' := by
      rintro rfl
      exact absurd hstart (by decide)
    rw [htext, hchars]
    simpa using hquote
  have hkey : readKey (printedMember value rest) =
      readName (value.toList ++ ' ' :: printedValue value rest) := by
    rw [htext, readKey_bare hbare]
  by_cases hwhole : ∀ c ∈ Text.dropFinalNewline value.toList, isNamePart c = true
  -- a line feed behind the name is skipped as a blank, so then it is the value that cannot be read
  · have hread := readName_whole hbare hwhole (' ' :: ((textLiteral value).toList ++ ',' :: rest))
    rw [readEnumMember_of_readKey (hkey.trans hread), hhead]
    by_cases hline : isOneLine value = true
    · have hsame := dropFinalNewline_of_notMem (notMem_of_isOneLine hline)
      rw [hsame] at hwhole ⊢
      have hreadable : isReadable value = true := by
        rw [isReadable, hline, Bool.true_and, List.all_eq_true.mpr hwhole, Bool.or_true]
      rw [if_pos hline, if_pos hreadable, memberOf, hbare]
    · have hreadable : ¬ isReadable value = true := fun h => hline (Bool.and_eq_true_iff.mp h).1
      rw [if_neg hline, if_neg hreadable]
  · obtain ⟨read, after, hread, hsign⟩ :=
      readName_stray hbare hwhole (' ' :: printedValue value rest)
    have hreadable : ¬ isReadable value = true := by
      intro h
      rw [isReadable, hbare, Bool.not_true, Bool.false_or, Bool.and_eq_true, List.all_eq_true] at h
      exact hwhole fun c hc => h.2 c (mem_of_mem_dropFinalNewline hc)
    rw [readEnumMember, hkey, hread, Option.bind_some, if_neg hreadable]
    exact if_neg hsign

theorem head?_printedMember_quoted {value : String} (hquoted : isPropertyName value = false)
    (rest : List Char) : (printedMember value rest).head? = some '\'' := by
  rw [printedMember, memberName_quoted hquoted]
  simp [textLiteral, singleQuoted]

theorem readEnumMember_quoted {value : String} (hquoted : isPropertyName value = false)
    (rest : List Char) : readEnumMember (printedMember value rest) =
      if isReadable value then some (memberOf value, ',' :: rest) else none := by
  have htext : printedMember value rest = (textLiteral value).toList ++ ' ' ::
      printedValue value rest := by
    rw [printedMember, memberName_quoted hquoted]
  have hhead := head?_printedMember_quoted hquoted rest
  have hkey : readKey (printedMember value rest) =
      if isOneLine value then some (units value.toList, printedValue value rest) else none := by
    rw [readKey, if_pos hhead, htext, readQuotedName_textLiteral]
    rfl
  have hreadable : isReadable value = isOneLine value := by
    rw [isReadable, hquoted, Bool.not_false, Bool.true_or, Bool.and_true]
  rw [hreadable]
  by_cases hline : isOneLine value = true
  · rw [if_pos hline] at hkey ⊢
    rw [readEnumMember_of_readKey hkey, if_pos hline, hhead, memberOf, hquoted]
    rfl
  · rw [if_neg hline] at hkey ⊢
    rw [readEnumMember, hkey, Option.bind_none]

/-- **A member is read as that of its text,** or not at all. -/
theorem readEnumMember_printedMember (value : String) (rest : List Char) :
    readEnumMember (printedMember value rest) =
      if isReadable value then some (memberOf value, ',' :: rest) else none := by
  cases hbare : isPropertyName value with
  | true => exact readEnumMember_bare hbare rest
  | false => exact readEnumMember_quoted hbare rest

/-- No member begins with a blank or a brace. -/
theorem exists_printedMember (value : String) (rest : List Char) :
    ∃ c chars, printedMember value rest = c :: chars ∧ isJsonBlank c = false ∧ c ≠ '\x7d' := by
  cases hbare : isPropertyName value with
  | true =>
    obtain ⟨c, chars, hchars, hstart⟩ := exists_cons_of_isPropertyName hbare
    have hbrace : c ≠ '\x7d' := by
      rintro rfl
      exact absurd hstart (by decide)
    refine ⟨c, chars ++ ' ' :: printedValue value rest, ?_,
      Json.not_isJsonBlank hstart (by decide), hbrace⟩
    rw [printedMember, memberName_bare hbare, hchars, List.cons_append]
  | false =>
    obtain ⟨chars, hchars⟩ := List.head?_eq_some_iff.mp (head?_printedMember_quoted hbare rest)
    exact ⟨'\'', chars, hchars, by decide, by decide⟩

/-! ## Declarations -/

/-- What is printed for several texts, through the closing brace. -/
def printedMembers : List String → List Char
  | [] => ['\n', '\x7d']
  | value :: rest => '\n' :: ' ' :: ' ' :: printedMember value (printedMembers rest)

theorem skipBlanks_printedMembers (value : String) (rest : List String) :
    skipBlanks (printedMembers (value :: rest)) = printedMember value (printedMembers rest) := by
  obtain ⟨c, chars, hchars, hblank, -⟩ := exists_printedMember value (printedMembers rest)
  rw [printedMembers, hchars]
  exact Json.skipBlanks_unpadded (Json.unpadded_cons hblank)

theorem readEnumMembers_close (rest : List Char) :
    readEnumMembers ('\x7d' :: rest) = some ([], skipBlanks rest) := by
  rw [readEnumMembers]
  exact if_pos List.head?_cons

theorem readEnumMembers_none {text : List Char} (hbrace : text.head? ≠ some '\x7d')
    (h : readEnumMember text = none) : readEnumMembers text = none := by
  rw [readEnumMembers, if_neg hbrace]
  split
  · rfl
  · rename_i hsome
    cases h.symm.trans hsome

theorem readEnumMembers_more {text rest : List Char} {member : EnumMember}
    (hbrace : text.head? ≠ some '\x7d')
    (h : readEnumMember text = some (member, ',' :: rest)) : readEnumMembers text =
      (readEnumMembers (skipBlanks rest)).map fun (members, rest) =>
      (member :: members, rest) := by
  rw [readEnumMembers, if_neg hbrace]
  split
  · rename_i hnone
    cases h.symm.trans hnone
  · rename_i hsome
    obtain ⟨rfl, rfl⟩ := Prod.mk.inj (Option.some.inj (h.symm.trans hsome))
    exact dif_pos List.head?_cons

/-- **Members are read as those of their texts,** or not at all. -/
theorem readEnumMembers_printedMembers (values : List String) :
    readEnumMembers (skipBlanks (printedMembers values)) =
      if values.all isReadable then some (values.map memberOf, []) else none := by
  induction values with
  | nil => exact readEnumMembers_close []
  | cons value rest ih =>
    obtain ⟨c, chars, hchars, -, hbrace⟩ := exists_printedMember value (printedMembers rest)
    have hhead : (printedMember value (printedMembers rest)).head? ≠ some '\x7d' := by
      rw [hchars]
      exact fun he => hbrace (Option.some.inj he)
    have hmember := readEnumMember_printedMember value (printedMembers rest)
    rw [skipBlanks_printedMembers, List.all_cons]
    cases hreadable : isReadable value with
    | true =>
      rw [if_pos hreadable] at hmember
      rw [readEnumMembers_more hhead hmember, ih, Bool.true_and]
      split <;> rfl
    | false =>
      rw [if_neg (by rw [hreadable]; decide)] at hmember
      rw [readEnumMembers_none hhead hmember, Bool.false_and]
      rfl

theorem toList_memberLine (value : String) (rest : List Char) :
    (Enumeration.memberLine (.string value)).toList ++ rest =
      ' ' :: ' ' :: printedMember value rest := by
  simp [Enumeration.memberLine, printedMember, printedValue, literal]

/-- What stands in a declaration behind its opening brace. -/
def declarationBody (values : List String) : String :=
  "\n" ++ "\n".intercalate ((values.map Json.string).map Enumeration.memberLine) ++ "\n\x7d"

theorem toList_declarationBody {values : List String} (hne : values ≠ []) :
    (declarationBody values).toList = printedMembers values := by
  induction values with
  | nil => exact absurd rfl hne
  | cons value rest ih =>
    cases rest with
    | nil =>
      have htext : (declarationBody [value]).toList =
          '\n' :: ((Enumeration.memberLine (.string value)).toList ++ ['\n', '\x7d']) := by
        simp [declarationBody]
      rw [htext, toList_memberLine]
      rfl
    | cons next rest =>
      have htext : (declarationBody (value :: next :: rest)).toList =
          '\n' :: ((Enumeration.memberLine (.string value)).toList ++
            (declarationBody (next :: rest)).toList) := by
        simp [declarationBody, String.intercalate_cons_cons]
      rw [htext, toList_memberLine, ih (List.cons_ne_nil _ _)]
      rfl

/-- Where there is no member, a line feed more stands before the closing brace. -/
theorem skipBlanks_declarationBody (values : List String) :
    skipBlanks (declarationBody values).toList = skipBlanks (printedMembers values) := by
  by_cases hne : values = []
  · subst hne
    rfl
  · rw [toList_declarationBody hne]

theorem declaration_texts (name : String) (values : List String) :
    Enumeration.declaration name (values.map Json.string) =
      "export enum " ++ name ++ " \x7b" ++ declarationBody values := by
  have htexts : Enumeration.allTexts (values.map Json.string) = true := by
    simp [Enumeration.allTexts, Json.text?]
  rw [Enumeration.declaration, if_pos htexts, declarationBody, ← String.toList_inj]
  simp

/-- What is printed for some texts is read as the declaration of their members, or not at all. -/
theorem isEnumeration_declaration_iff {name : String} {values : List String}
    {members : List EnumMember} :
    IsEnumeration (Enumeration.declaration name (values.map Json.string)) name members ↔
      values.all isReadable = true ∧ members = values.map memberOf := by
  have hread : readEnumMembers (skipBlanks (declarationBody values).toList) =
      if values.all isReadable then some (values.map memberOf, []) else none := by
    rw [skipBlanks_declarationBody, readEnumMembers_printedMembers]
  constructor
  · rintro ⟨body, htext, hbody⟩
    -- the head of the text is the same, so the body is what was printed behind it
    have hsame : declarationBody values = body := by
      rw [declaration_texts] at htext
      have hchars := congrArg String.toList htext
      rw [String.toList_append, String.toList_append (t := body)] at hchars
      exact String.toList_inj.mp (List.append_cancel_left hchars)
    subst hsame
    rw [hbody] at hread
    split at hread
    · rename_i hall
      exact ⟨hall, (Prod.mk.inj (Option.some.inj hread)).1⟩
    · cases hread
  · rintro ⟨hall, rfl⟩
    rw [if_pos hall] at hread
    exact ⟨_, declaration_texts name values, hread⟩

/-- A text that can be declared: it can be read back from the line of its member, and if that
has its name in quotes, it is not the name of a number. -/
structure IsDeclarable (value : String) : Prop where
  oneLine : isOneLine value = true
  bare : isPropertyName value = true → ∀ c ∈ value.toList, isNamePart c = true
  quoted : isPropertyName value = false → ¬ IsNumeric (units value.toList)

theorem isDeclarable_iff {value : String} : IsDeclarable value ↔
    isReadable value = true ∧ ((memberOf value).bare = true ∨
      ¬ IsNumeric (memberOf value).name) := by
  rw [isReadable, Bool.and_eq_true]
  dsimp only [memberOf]
  cases hbare : isPropertyName value with
  | true =>
    rw [Bool.not_true, Bool.false_or, List.all_eq_true]
    constructor
    · intro h
      exact ⟨⟨h.oneLine, h.bare hbare⟩, .inl rfl⟩
    · rintro ⟨⟨hline, hparts⟩, -⟩
      exact ⟨hline, fun _ => hparts, fun hquoted => absurd (hbare.symm.trans hquoted) (by decide)⟩
  | false =>
    rw [Bool.not_false, Bool.true_or]
    constructor
    · intro h
      exact ⟨⟨h.oneLine, rfl⟩, .inr (h.quoted hbare)⟩
    · rintro ⟨⟨hline, -⟩, hlegal⟩
      exact ⟨hline, fun h => absurd (hbare.symm.trans h) (by decide),
        fun _ => hlegal.resolve_left Bool.false_ne_true⟩

/-- **Texts that differ are declared, each with its own name,** just if every
one of them can be declared. -/
theorem declaresEach_iff (name : String) {values : List String} (h : values.Nodup) :
    DeclaresEach (Enumeration.declaration name (values.map Json.string)) name values ↔
      ∀ value ∈ values, IsDeclarable value := by
  have hvalues : (values.map memberOf).map (·.value) = values.map (units ·.toList) := by
    rw [List.map_map]
    rfl
  have hnames : ((values.map memberOf).map (·.name)).Nodup := by
    rw [List.map_map]
    exact h.map fun value other he => String.toList_inj.mp (units_injective he)
  simp only [DeclaresEach, isEnumeration_declaration_iff, isDeclarable_iff]
  constructor
  · rintro ⟨members, ⟨hreadable, rfl⟩, -, hlegal, -⟩ value hvalue
    exact ⟨List.all_eq_true.mp hreadable value hvalue, hlegal _ (List.mem_map_of_mem hvalue)⟩
  · intro hall
    have hreadable : values.all isReadable = true :=
      List.all_eq_true.mpr fun value hvalue => (hall value hvalue).1
    refine ⟨values.map memberOf, ⟨hreadable, rfl⟩, hvalues, fun member hmember => ?_, hnames⟩
    obtain ⟨value, hvalue, rfl⟩ := List.mem_map.mp hmember
    exact (hall value hvalue).2

/-- One is written with one digit. -/
theorem isNumeric_one : IsNumeric (units "1".toList) := by
  have hone : Binary64.Canonical (.finite false (Binary64.twoTo 52) (-52)) :=
    .inr ⟨by decide, by decide, by decide, by decide, fun _ => Nat.le_refl _⟩
  exact ⟨false, Binary64.twoTo 52, -52, hone, by decide +kernel⟩

/-- A text of digits is declared under the name of a number. -/
theorem not_declaresEach_one :
    ["1"].Nodup ∧
    ¬ DeclaresEach (Enumeration.declaration "Codes" [.string "1"]) "Codes" ["1"] := by
  have hnodup : ["1"].Nodup := List.nodup_singleton "1"
  refine ⟨hnodup, fun h => ?_⟩
  have hdeclarable := (declaresEach_iff "Codes" hnodup).mp h "1" List.mem_cons_self
  exact hdeclarable.quoted (by decide) isNumeric_one

end ApiClient.TypeScript
