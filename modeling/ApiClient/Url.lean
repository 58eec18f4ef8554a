import ApiClient.TypeScript.Identifier

/-!
# URL templates

A path of the interface may hold placeholders in braces. It is taken apart into plain characters
and placeholders, and printed as the body of a template literal that fills them in.
-/

namespace ApiClient.Url

/-- A part of a URL template. -/
inductive Piece where
  | plain (c : Char)
  | placeholder (name : List Char)
  deriving DecidableEq

/-- A placeholder at the front of a text that follows an opening brace: its name and the rest. -/
def placeholder? (text : List Char) : Option (List Char × List Char) :=
  match text.takeWhile (· ≠ '}'), text.dropWhile (· ≠ '}') with
  | c :: name, _ :: rest => some (c :: name, rest)
  | _, _ => none

theorem length_of_placeholder? {text name rest : List Char}
    (h : placeholder? text = some (name, rest)) : rest.length < text.length := by
  unfold placeholder? at h
  split at h
  · rename_i c name' b rest' _ hd
    obtain ⟨_, rfl⟩ := Prod.mk.inj (Option.some.inj h)
    have := (List.dropWhile_suffix (l := text) (· ≠ '}')).length_le
    simp only [hd, List.length_cons] at this
    omega
  · simp at h

/-- Takes a template apart, leftmost placeholder first. Empty and unclosed braces are plain. -/
def pieces (text : List Char) : List Piece :=
  match text with
  | [] => []
  | c :: rest =>
    if c = '{' then
      match h : placeholder? rest with
      | some (name, after) =>
        have := length_of_placeholder? h
        .placeholder name :: pieces after
      | none => .plain c :: pieces rest
    else .plain c :: pieces rest
termination_by text.length

/-- A part as it stands in the template literal. -/
def Piece.text : Piece → List Char
  | plain c => [c]
  | placeholder name =>
    '$' :: '{' :: (TypeScript.propertyAccess "params" (String.ofList name)).toList ++ ['}']

/-- The template literal's body for a URL: each placeholder reads the parameter of its name. -/
def interpolate (url : String) : String :=
  String.ofList ((pieces url.toList).flatMap Piece.text)

/-- The parts of a path between its slashes, without the empty ones. -/
def segments (url : String) : List (List Char) :=
  (url.toList.splitOn '/').filter (!·.isEmpty)

end ApiClient.Url
