import ApiClient.Json.Shown
import ApiClient.Text.Blank
import ApiClient.Text.Occurrence

/-!
# Doc comments

A block comment made of the values that a document gives for a title or a description. The mark
that ends a comment is broken up inside it, so no description can close its own comment.
-/

namespace ApiClient.TypeScript.Comment

/-- The lines that one value adds to a comment: none if it stands for nothing given. -/
def valueLines (value : Json) : List (List Char) :=
  if value.isBlank then []
  else
    let text := Text.trim value.shown.toList
    (Text.lines (Text.replaceAll ['*', '/'] ['*', '\\', '/'] text)).map Text.trimEnd

/-- One line inside the block. -/
def bodyLine (line : List Char) : List Char :=
  if line.isEmpty then [' ', '*', '\n'] else ' ' :: '*' :: ' ' :: line ++ ['\n']

/-- The block around some lines, or nothing at all if there is none. -/
def block (lines : List (List Char)) : List Char :=
  if lines.isEmpty then []
  else ['/', '*', '*', '\n'] ++ (lines.map bodyLine).flatten ++ [' ', '*', '/', '\n']

/-- The comment that says what the values say, in order. -/
def ofValues (values : List Json) : String :=
  String.ofList (block (values.flatMap valueLines))

end ApiClient.TypeScript.Comment
