import ApiClient.Text.Blank
import ApiClient.Text.WordCharacter

/-!
# Identifiers

Which names TypeScript takes bare, and how the others are written: as quoted property keys and as
accesses in brackets. One line feed at the end of a name is overlooked.
-/

namespace ApiClient.TypeScript

/-- Words that cannot name a variable. -/
def reservedWords : List String := [
  "break", "case", "catch", "class", "const", "continue", "debugger", "default", "delete", "do",
  "else", "enum", "export", "extends", "false", "finally", "for", "function", "if", "import", "in",
  "instanceof", "new", "null", "return", "super", "switch", "this", "throw", "true", "try",
  "typeof", "var", "void", "while", "with"]

/-- A character that may begin an identifier. -/
def isIdentifierStart (c : Char) : Bool := c.isAlpha || c == '_' || c == '$'

/-- A character that may continue an identifier. -/
def isIdentifierPart (c : Char) : Bool := Text.isWordCharacter c || c == '$'

/-- Whether characters form an identifier, not counting one line feed at the end. -/
def isIdentifier : List Char → Bool
  | [] => false
  | c :: rest => isIdentifierStart c && (Text.dropFinalNewline rest).all isIdentifierPart

/-- Whether a name can be written as a bare property name. -/
def isPropertyName (name : String) : Bool := isIdentifier name.toList

/-- Whether a name can be declared as a variable. -/
def isVariableName (name : String) : Bool :=
  isPropertyName name && !reservedWords.contains name

/-- A text between single quotes. -/
def singleQuoted (text : String) : String := "'" ++ text ++ "'"

/-- A name as the key of an object or an interface. -/
def propertyKey (name : String) : String :=
  if isPropertyName name then name else singleQuoted name

/-- The member `name` of the object that the expression `owner` denotes. -/
def propertyAccess (owner name : String) : String :=
  if isPropertyName name then owner ++ "." ++ name else owner ++ "[" ++ singleQuoted name ++ "]"

end ApiClient.TypeScript
