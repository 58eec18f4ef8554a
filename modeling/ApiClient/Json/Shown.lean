import ApiClient.Binary64.Notation
import ApiClient.Json.Basic
import ApiClient.Text.Hex
import ApiClient.Text.Printable

/-!
# Values inside prose

How a value is shown in a comment or a message. A text stands for itself; any other value is shown
in a notation of its own, in which texts are quoted and unprintable characters escaped.
-/

namespace ApiClient.Json

/-- What a character becomes inside `quote` marks. -/
def escapeShown (quote c : Char) : List Char :=
  if c = quote ∨ c = '\\' then ['\\', c]
  else if c = '\n' then ['\\', 'n']
  else if c = '\r' then ['\\', 'r']
  else if c = '\t' then ['\\', 't']
  else if Text.isPrintable c then [c]
  else if c.toNat < 0x100 then '\\' :: 'x' :: Text.hex 2 c.toNat
  else if c.toNat < 0x10000 then '\\' :: 'u' :: Text.hex 4 c.toNat
  else '\\' :: 'U' :: Text.hex 8 c.toNat

/-- A text in single quotes, or in double quotes if that spares escaping. -/
def quoteShown (text : String) : String :=
  let body := text.toList
  let quote := if '\'' ∈ body ∧ '"' ∉ body then '"' else '\''
  String.ofList (quote :: body.flatMap (escapeShown quote) ++ [quote])

/-- The names of the doubles without digits, in prose. -/
def shownDoubles : Binary64.SpecialWords := ⟨"nan", "inf"⟩

mutual

/-- A value in the notation for prose. -/
def quoted : Json → String
  | null => "None"
  | bool true => "True"
  | bool false => "False"
  | int value => toString value
  | double value => value.text shownDoubles
  | string value => quoteShown value
  | array items => "[" ++ ", ".intercalate (quotedItems items) ++ "]"
  | object members => "\x7b" ++ ", ".intercalate (quotedMembers members) ++ "\x7d"
termination_by structural value => value

/-- The items of a list, each in the notation for prose. -/
def quotedItems : List Json → List String
  | [] => []
  | item :: rest => quoted item :: quotedItems rest
termination_by structural items => items

/-- The members of an object, each in the notation for prose. -/
def quotedMembers : List (String × Json) → List String
  | [] => []
  | entry :: rest => quotedMember entry :: quotedMembers rest
termination_by structural members => members

/-- One member in the notation for prose. -/
def quotedMember : String × Json → String
  | (name, value) => quoteShown name ++ ": " ++ quoted value
termination_by structural entry => entry

end

/-- A value inside prose: a text as it is, anything else in its notation. -/
def shown : Json → String
  | string value => value
  | value => quoted value

end ApiClient.Json
