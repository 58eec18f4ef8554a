import ApiClient.Text.Digit
import ApiClient.Text.Uppercase
import ApiClient.Text.WordCharacter

/-!
# Names of model types

A definition may have any key. Its type keeps the word characters of the key, never begins with a
digit, and begins with a capital where the script has one.
-/

namespace ApiClient.TypeScript

/-- A name that does not begin with a digit. -/
def guardDigit : List Char → List Char
  | [] => []
  | c :: rest => if Text.isDigit c then '_' :: c :: rest else c :: rest

/-- The type name for a definition's key; empty if the key has no word character. -/
def typeName (key : String) : String :=
  String.ofList (Text.upperFirstChars (guardDigit (key.toList.filter Text.isWordCharacter)))

end ApiClient.TypeScript
