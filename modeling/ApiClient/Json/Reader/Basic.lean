/-!
# Steps of a JSON reader

A reader works on a list of characters. Each step returns what it read together with the rest of
the text and the fact that the rest is shorter, so the recursion needs no other bound. A step that
cannot go on returns the text from where it stopped.
-/

namespace ApiClient.Json

/-- What a reader misses or objects to. -/
inductive Complaint where
  | value
  | memberName
  | colon
  | comma
  | extraData
  | unterminatedText
  | controlCharacter
  | escape
  | unitEscape
  | byteOrderMark
  /-- A whole number has more digits than are read. -/
  | tooManyDigits
  deriving DecidableEq

/-- A reading that cannot go on, and the text from where it stopped. -/
structure Stuck where
  complaint : Complaint
  rest : List Char

/-- What was read from the front of `text`, and what is left of it. -/
structure Reading (α : Type) (text : List Char) where
  value : α
  rest : List Char
  shorter : rest.length < text.length

/-! ## Blanks -/

/-- The blanks that JSON allows between its parts. -/
def isJsonBlank (c : Char) : Bool := c == ' ' || c == '\t' || c == '\n' || c == '\r'

/-- The text after its leading blanks. -/
def skipBlanks (text : List Char) : List Char := text.dropWhile isJsonBlank

theorem length_dropWhile_le (p : Char → Bool) (text : List Char) :
    (text.dropWhile p).length ≤ text.length :=
  (List.dropWhile_suffix p).length_le

theorem length_skipBlanks_le (text : List Char) : (skipBlanks text).length ≤ text.length :=
  length_dropWhile_le _ text

/-- The most digits that a whole number may have. -/
def mostDigits : Nat := 4300

/-- How a complaint is worded. -/
def Complaint.message : Complaint → String
  | .value => "Expecting value"
  | .memberName => "Expecting property name enclosed in double quotes"
  | .colon => "Expecting ':' delimiter"
  | .comma => "Expecting ',' delimiter"
  | .extraData => "Extra data"
  | .unterminatedText => "Unterminated string starting at"
  | .controlCharacter => "Invalid control character at"
  | .escape => "Invalid \\escape"
  | .unitEscape => "Invalid \\uXXXX escape"
  | .byteOrderMark => "Unexpected UTF-8 BOM (decode using utf-8-sig)"
  | .tooManyDigits => "More than " ++ toString mostDigits ++ " digits"

end ApiClient.Json
