import ApiClient.Binary64.Notation
import ApiClient.Json.Basic
import ApiClient.Text.Hex

/-!
# Writing JSON

A value on one line, with a space after each comma and colon, in ASCII alone: every other character
is written as an escape, and a character beyond the basic plane as two.
-/

namespace ApiClient.Json

/-- The escape of one 16-bit unit. -/
def unitEscape (unit : Nat) : List Char := '\\' :: 'u' :: Text.hex 4 unit

/-- What a character becomes between double quotes. -/
def escapeChar (c : Char) : List Char :=
  let code := c.toNat
  if c = '"' ∨ c = '\\' then ['\\', c]
  else if c = '\n' then ['\\', 'n']
  else if c = '\r' then ['\\', 'r']
  else if c = '\t' then ['\\', 't']
  else if code = 8 then ['\\', 'b']
  else if code = 12 then ['\\', 'f']
  else if 32 ≤ code ∧ code < 127 then [c]
  else if code < 0x10000 then unitEscape code
  else unitEscape (0xD800 + (code - 0x10000) / 0x400) ++
    unitEscape (0xDC00 + (code - 0x10000) % 0x400)

/-- A text between double quotes. -/
def renderText (text : String) : String :=
  String.ofList ('"' :: text.toList.flatMap escapeChar ++ ['"'])

/-- The names of the doubles without digits, in JSON text. -/
def renderedDoubles : Binary64.SpecialWords := ⟨"NaN", "Infinity"⟩

mutual

/-- A value as JSON text. -/
def render : Json → String
  | null => "null"
  | bool true => "true"
  | bool false => "false"
  | int value => toString value
  | double value => value.text renderedDoubles
  | string value => renderText value
  | array items => "[" ++ ", ".intercalate (renderItems items) ++ "]"
  | object members => "\x7b" ++ ", ".intercalate (renderMembers members) ++ "\x7d"
termination_by structural value => value

/-- The items of a list as JSON texts. -/
def renderItems : List Json → List String
  | [] => []
  | item :: rest => render item :: renderItems rest
termination_by structural items => items

/-- The members of an object as JSON texts. -/
def renderMembers : List (String × Json) → List String
  | [] => []
  | entry :: rest => renderMember entry :: renderMembers rest
termination_by structural members => members

/-- One member as JSON text. -/
def renderMember : String × Json → String
  | (name, value) => renderText name ++ ": " ++ render value
termination_by structural entry => entry

end

end ApiClient.Json
