import ApiClient.Text.Occurrence

/-!
# Placeholders

Some producers define types that say nothing: `"Map«string,object»"` as an object with a title and
no members. Such placeholders are taken out of a document while it is still text. References to
them become plain objects first, since a reference could not be told from others once its target
is gone.
-/

namespace ApiClient.Document

/-- The characters of the words in a placeholder. -/
def isPlaceholderLetter (c : Char) : Bool :=
  c.isAlphanum || c == '_' || c == '«' || c == '»'

/-- A definition that says nothing beyond its type and its title. -/
structure Placeholder where
  key : List Char
  type : List Char
  title : List Char
  deriving DecidableEq

namespace Placeholder

/-- The text between the key and the type. -/
def beforeType : List Char := "\":\x7b\"type\":\"".toList

/-- The text between the type and the title. -/
def beforeTitle : List Char := "\",\"title\":\"".toList

/-- The text after the title. -/
def afterTitle : List Char := "\"\x7d".toList

/-- A placeholder as it stands in a document. -/
def text (placeholder : Placeholder) : List Char :=
  '"' :: placeholder.key ++ beforeType ++ placeholder.type ++ beforeTitle ++ placeholder.title ++
    afterTitle

/-- The word at the front of a text, if `mark` follows it, and the rest after the mark. -/
def wordBefore? (mark text : List Char) : Option (List Char × List Char) :=
  (Text.after? mark (text.dropWhile isPlaceholderLetter)).map
    (text.takeWhile isPlaceholderLetter, ·)

/-- The placeholder at the front of a text, and the rest. -/
def atFront? (text : List Char) : Option (Placeholder × List Char) :=
  match text with
  | '"' :: rest => do
    let (key, rest) ← wordBefore? beforeType rest
    let (type, rest) ← wordBefore? beforeTitle rest
    let (title, rest) ← wordBefore? afterTitle rest
    return (⟨key, type, title⟩, rest)
  | _ => none

theorem length_of_wordBefore? {mark text word rest : List Char}
    (h : wordBefore? mark text = some (word, rest)) : rest.length ≤ text.length := by
  obtain ⟨rest', hafter, he⟩ := Option.map_eq_some_iff.1 h
  obtain ⟨_, rfl⟩ := Prod.mk.inj he
  have hlength := Text.length_of_after? hafter
  have hle := (List.dropWhile_suffix (l := text) isPlaceholderLetter).length_le
  omega

theorem length_of_atFront? {text rest : List Char} {placeholder : Placeholder}
    (h : atFront? text = some (placeholder, rest)) : rest.length < text.length := by
  unfold atFront? at h
  split at h
  · rename_i body
    simp only [Option.bind_eq_bind, Option.bind_eq_some_iff, Option.pure_def, Option.some.injEq,
      Prod.mk.injEq, Prod.exists] at h
    obtain ⟨_, _, h₁, _, _, h₂, _, _, h₃, _, rfl⟩ := h
    have := length_of_wordBefore? h₁
    have := length_of_wordBefore? h₂
    have := length_of_wordBefore? h₃
    simp only [List.length_cons]
    omega
  · simp at h

/-- The placeholders of a text from left to right; no two overlap. -/
def all (text : List Char) : List Placeholder :=
  match h : atFront? text with
  | some (placeholder, rest) =>
    have := length_of_atFront? h
    placeholder :: all rest
  | none =>
    match text with
    | [] => []
    | _ :: rest => all rest
termination_by text.length

/-- A reference to a placeholder. -/
def reference (placeholder : Placeholder) : List Char :=
  "\"$ref\":\"#/definitions/".toList ++ placeholder.key ++ ['"']

/-- What a reference to a placeholder becomes. -/
def genericObject : List Char := "\"type\":\"object\"".toList

/-- Makes the references to a placeholder plain objects. -/
def inlineReferences (text : List Char) (placeholder : Placeholder) : List Char :=
  Text.replaceAll placeholder.reference genericObject text

/-- Takes a placeholder out, with a comma beside it. -/
def remove (text : List Char) (placeholder : Placeholder) : List Char :=
  let fragment := placeholder.text
  let text := Text.replaceAll (',' :: fragment) [] text
  let text := Text.replaceAll (fragment ++ [',']) [] text
  Text.replaceAll fragment [] text

end Placeholder

/-- A document's text without its placeholders. -/
def withoutPlaceholders (text : List Char) : List Char :=
  let placeholders := Placeholder.all text
  placeholders.foldl Placeholder.remove (placeholders.foldl Placeholder.inlineReferences text)

end ApiClient.Document
