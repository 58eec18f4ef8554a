import ApiClient.Json.Basic
import ApiClient.Text.Occurrence

/-!
# Reading a value as what it should be

A document may hold any value where an object, a list or a text is expected. The readers here say
what each kind of value answers, and which misuse is reported when it answers nothing.
-/

namespace ApiClient

/-- A value of the document used as something it is not. -/
inductive Misuse where
  /-- A member was asked of a value that is not an object. -/
  | notAnObject
  /-- A value that is not a text stands for a reference. -/
  | notAReference
  /-- A value that is not a text stands for a name. -/
  | notAName
  /-- A value that cannot be searched was searched. -/
  | notSearchable
  /-- A value that has no parts was gone through. -/
  | notIterable
  /-- A part was asked by name of a value whose parts have no names. -/
  | notIndexable
  /-- A list or an object stands where values are told apart by equality. -/
  | notAKey
  /-- Texts and numbers stand together where values are sorted. -/
  | notComparable
  /-- Values of two kinds stand where two lists are joined. -/
  | notJoinable
  /-- An object lacks the member it must have. -/
  | missingMember (name : String)
  /-- A list lacks the item it must have. -/
  | missingItem
  deriving DecidableEq

namespace Json

/-- The member of an object, if it has one of that name. -/
def member? (value : Json) (key : String) : Except Misuse (Option Json) :=
  match value with
  | object members => .ok (lookup? key members)
  | _ => .error .notAnObject

/-- Whether two values are the same text; only texts are looked for. -/
def isText (key : String) : Json → Bool
  | string value => value == key
  | _ => false

/-- Whether a value mentions `key`: as a member, as an item, or as part of a text. -/
def mentions (value : Json) (key : String) : Except Misuse Bool :=
  match value with
  | object members => .ok (lookup? key members).isSome
  | array items => .ok (items.any (isText key))
  | string text => .ok (Text.contains text key)
  | _ => .error .notSearchable

/-- The member of an object that must have it. -/
def member (value : Json) (key : String) : Except Misuse Json :=
  match value with
  | object members =>
    match lookup? key members with
    | some found => .ok found
    | none => .error (.missingMember key)
  | _ => .error .notIndexable

/-- The first part of a value that must have one: an item, or a character. -/
def first (value : Json) : Except Misuse Json :=
  match value with
  | array (item :: _) => .ok item
  | array [] => .error .missingItem
  | string text =>
    match text.toList with
    | c :: _ => .ok (string (String.singleton c))
    | [] => .error .missingItem
  | object _ => .error (.missingMember "0")
  | _ => .error .notIndexable

/-- The parts of a value: the items of a list, the names in an object, the characters of a text. -/
def parts (value : Json) : Except Misuse (List Json) :=
  match value with
  | array items => .ok items
  | object members => .ok ((names members).map string)
  | string text => .ok (text.toList.map fun c => string (String.singleton c))
  | _ => .error .notIterable

/-- The members of an object, in order. -/
def members (value : Json) : Except Misuse (List (String × Json)) :=
  match value with
  | object members => .ok members
  | _ => .error .notAnObject

/-- The text that a value is, if it is one. -/
def text? : Json → Option String
  | string text => some text
  | _ => none

end Json

end ApiClient
