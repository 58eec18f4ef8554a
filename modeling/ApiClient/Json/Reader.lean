import ApiClient.Json.Reader.Number
import ApiClient.Json.Reader.Quoted
import ApiClient.Text.Occurrence

/-!
# Reading JSON

The reader of whole values and whole texts. Beyond the standard it knows `NaN`, `Infinity` and
`-Infinity`, and lets a repeated name replace the earlier value in its place. Where a text is no
JSON, or a whole number in it is too long, the place at which the reader stopped is given by line
and column.
-/

namespace ApiClient.Json

/-! ## Values -/

/-- The values that are written as a word. -/
def wordValues : List (String × Json) :=
  [("null", null), ("true", bool true), ("false", bool false), ("NaN", double .nan),
    ("Infinity", double (.infinity false)), ("-Infinity", double (.infinity true))]

/-- Reads a word value, if the text starts with one. -/
def readWord? (text : List Char) : Option (Json × List Char) :=
  wordValues.findSome? fun (word, value) => (Text.after? word.toList text).map (value, ·)

theorem length_of_readWord? {text rest : List Char} {value : Json}
    (h : readWord? text = some (value, rest)) : rest.length < text.length := by
  obtain ⟨⟨word, found⟩, hmem, hword⟩ := List.exists_of_findSome?_eq_some h
  obtain ⟨rest', hafter, he⟩ := Option.map_eq_some_iff.1 hword
  obtain ⟨_, rfl⟩ := Prod.mk.inj he
  have hlength := Text.length_of_after? hafter
  have hpos : 0 < word.toList.length := by
    have hne : word ≠ "" := by
      intro hw
      subst hw
      simp [wordValues] at hmem
    cases hl : word.toList with
    | nil => exact absurd (String.toList_eq_nil_iff.1 hl) hne
    | cons c cs => exact Nat.succ_pos _
  omega

/-- Reads a value that is a word or a number. -/
def readPlain (text : List Char) : Except Stuck (Reading Json text) :=
  match h : readWord? text with
  | some (value, rest) => .ok ⟨value, rest, length_of_readWord? h⟩
  | none =>
    match h : readNumeral? text with
    | some (numeral, rest) =>
      if numeral.isTooLong then .error ⟨.tooManyDigits, text⟩
      else .ok ⟨numeral.value, rest, length_of_readNumeral? h⟩
    | none => .error ⟨.value, text⟩

mutual

/-- Reads a value from its first character. -/
def readValue (text : List Char) : Except Stuck (Reading Json text) :=
  match text with
  | '"' :: rest => do
    let ⟨value, after, h⟩ ← readText ('"' :: rest) .value
    return ⟨string value, after, h⟩
  | '[' :: rest =>
    match hs : skipBlanks rest with
    | ']' :: after => .ok ⟨array [], after, by
        have := length_skipBlanks_le rest
        simp only [hs, List.length_cons] at this ⊢
        omega⟩
    | items => do
      have : items.length < ('[' :: rest).length := by
        have := length_skipBlanks_le rest
        simp only [hs, List.length_cons] at this ⊢
        omega
      let ⟨value, after, h⟩ ← readItems items
      return ⟨array value, after, Nat.lt_trans h this⟩
  | '{' :: rest =>
    match hs : skipBlanks rest with
    | '}' :: after => .ok ⟨object [], after, by
        have := length_skipBlanks_le rest
        simp only [hs, List.length_cons] at this ⊢
        omega⟩
    | members => do
      have : members.length < ('{' :: rest).length := by
        have := length_skipBlanks_le rest
        simp only [hs, List.length_cons] at this ⊢
        omega
      let ⟨value, after, h⟩ ← readMembers [] members
      return ⟨object value, after, Nat.lt_trans h this⟩
  | text => readPlain text
termination_by (text.length, 0)

/-- Reads the items of a list from the first of them through the closing bracket. -/
def readItems (text : List Char) : Except Stuck (Reading (List Json) text) := do
  let ⟨item, afterItem, hi⟩ ← readValue text
  have hle := length_skipBlanks_le afterItem
  match hs : skipBlanks afterItem with
  | ']' :: rest => return ⟨[item], rest, by simp only [hs, List.length_cons] at hle; omega⟩
  | ',' :: rest =>
    have hrest := length_skipBlanks_le rest
    have : (skipBlanks rest).length < text.length := by
      simp only [hs, List.length_cons] at hle
      omega
    let ⟨items, after, h⟩ ← readItems (skipBlanks rest)
    return ⟨item :: items, after, Nat.lt_trans h this⟩
  | rest => .error ⟨.comma, rest⟩
termination_by (text.length, 1)

/-- Reads the members of an object from the first name through the closing brace. -/
def readMembers (done : List (String × Json)) (text : List Char) :
    Except Stuck (Reading (List (String × Json)) text) := do
  let ⟨name, afterName, hn⟩ ← readText text .memberName
  have hname := length_skipBlanks_le afterName
  match hc : skipBlanks afterName with
  | ':' :: afterColon =>
    have hcolon := length_skipBlanks_le afterColon
    have : (skipBlanks afterColon).length < text.length := by
      simp only [hc, List.length_cons] at hname
      omega
    let ⟨value, afterValue, hv⟩ ← readValue (skipBlanks afterColon)
    have hvalue := length_skipBlanks_le afterValue
    let members := put name value done
    match hs : skipBlanks afterValue with
    | '}' :: rest =>
      return ⟨members, rest, by simp only [hs, List.length_cons] at hvalue; omega⟩
    | ',' :: rest =>
      have hrest := length_skipBlanks_le rest
      have : (skipBlanks rest).length < text.length := by
        simp only [hs, List.length_cons] at hvalue
        omega
      let ⟨all, after, h⟩ ← readMembers members (skipBlanks rest)
      return ⟨all, after, Nat.lt_trans h this⟩
    | rest => .error ⟨.comma, rest⟩
  | rest => .error ⟨.colon, rest⟩
termination_by (text.length, 1)

end

/-! ## Whole texts -/

/-- A text that cannot be read: what is wrong, after how many characters, and where that is. -/
structure ReadFault where
  complaint : Complaint
  offset : Nat
  line : Nat
  column : Nat

/-- The place of the character after `before`: line and column, both counted from one. -/
def placeAfter (before : List Char) : Nat × Nat :=
  (before.count '\n' + 1, (before.reverse.takeWhile (· ≠ '\n')).length + 1)

/-- Places a stop within the whole text. -/
def Stuck.inText (stuck : Stuck) (text : List Char) : ReadFault :=
  let offset := text.length - stuck.rest.length
  let (line, column) := placeAfter (text.take offset)
  ⟨stuck.complaint, offset, line, column⟩

/-- Reads one value and nothing after it. -/
def readWholeText (text : List Char) : Except Stuck Json :=
  match text with
  | '\uFEFF' :: _ => .error ⟨.byteOrderMark, text⟩
  | _ => do
    let ⟨value, rest, _⟩ ← readValue (skipBlanks text)
    if (skipBlanks rest).isEmpty then return value
    else .error ⟨.extraData, skipBlanks rest⟩

/-- The value that a text denotes. -/
def read (text : List Char) : Except ReadFault Json :=
  (readWholeText text).mapError (·.inText text)

/-- How the fault is reported. -/
def ReadFault.message (fault : ReadFault) : String :=
  fault.complaint.message ++ ": line " ++ toString fault.line ++ " column " ++
    toString fault.column ++ " (char " ++ toString fault.offset ++ ")"

end ApiClient.Json
