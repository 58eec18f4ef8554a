import ApiClient.Text.Uppercase

/-!
# Words and letter case

Breaking a text into words and joining them in camel or Pascal case. Words are ASCII letters and
digits; anything else separates them, and so does the step from a lower-case letter or a digit to
an upper-case letter.
-/

namespace ApiClient.Text

/-- Whether two neighbouring characters stand in one word. -/
def inOneWord (left right : Char) : Bool :=
  left.isAlphanum && right.isAlphanum && (left.isUpper || !right.isUpper)

/-- The words of a text. -/
def words (text : List Char) : List (List Char) :=
  (text.splitBy inOneWord).filter (·.all Char.isAlphanum)

/-- A word in lower case. -/
def lowerWord (word : List Char) : List Char := word.map Char.toLower

/-- A word with its first letter in upper case. -/
def capitalize : List Char → List Char
  | [] => []
  | c :: rest => c.toUpper :: rest

/-- Words joined with a capital at each but the first. -/
def joinCamel : List (List Char) → List Char
  | [] => []
  | head :: rest => lowerWord head ++ (rest.map (capitalize ∘ lowerWord)).flatten

/-- The words of a text in camel case. -/
def camelCase (text : String) : String :=
  String.ofList (joinCamel (words text.toList))

/-- The words of a text in Pascal case. -/
def pascalCase (text : String) : String :=
  String.ofList (capitalize (joinCamel (words text.toList)))

end ApiClient.Text
