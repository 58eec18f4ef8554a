import ApiClient.Text.Blank

/-!
# Indentation

A block is moved right line by line. Blank lines stay as they are, so no line gains trailing
spaces and indenting twice is indenting once by the sum.
-/

namespace ApiClient.Text

/-- What `level` levels of indentation put before a line. -/
def margin (level : Nat) : List Char :=
  List.replicate (2 * level) ' '

/-- One line moved right, unless it shows nothing. -/
def indentLine (level : Nat) (line : List Char) : List Char :=
  if line.all isBlank then line else margin level ++ line

/-- The pieces of a text between its line feeds. -/
def splitLines (text : List Char) : List (List Char) :=
  text.splitOn '\n'

/-- Texts put under one another. -/
def joinLines (lines : List (List Char)) : List Char :=
  ['\n'].intercalate lines

/-- A text with every line that shows something moved right. -/
def indentChars (level : Nat) (text : List Char) : List Char :=
  joinLines ((splitLines text).map (indentLine level))

/-- A text with every line that shows something moved right by `level` levels. -/
def indent (text : String) (level : Nat) : String :=
  String.ofList (indentChars level text.toList)

/-- Several texts put under one another and indented together. -/
def indentAll (texts : List String) (level : Nat) : String :=
  indent ("\n".intercalate texts) level

theorem toList_indent (text : String) (level : Nat) :
    (indent text level).toList = indentChars level text.toList := by
  simp [indent]

theorem joinLines_splitLines (text : List Char) : joinLines (splitLines text) = text := by
  simp [joinLines, splitLines]

end ApiClient.Text
