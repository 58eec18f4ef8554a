import ApiClient.Json.Access
import ApiClient.Text.Casing
import ApiClient.Url

/-!
# Names of methods

A method is named by its operation's id, or else by its verb and path. Within one controller the
names that repeat are numbered.
-/

namespace ApiClient.Operation

/-- A name that does not begin with a digit. -/
def guardDigit (name : String) : String :=
  match name.toList with
  | c :: _ => if c.isDigit then "_" ++ name else name
  | [] => name

/-- A path segment without the braces at its ends. -/
def stripBraces (segment : List Char) : List Char :=
  let isBrace (c : Char) : Bool := c == '{' || c == '}'
  ((segment.dropWhile isBrace).reverse.dropWhile isBrace).reverse

/-- The name that a verb and a path give. -/
def nameOfUrl (verb url : String) : String :=
  let segments := (Url.segments url).map fun segment => String.ofList (stripBraces segment)
  guardDigit (Text.camelCase (" ".intercalate (verb :: segments)))

/-- The name of an operation, not yet told apart from others. -/
def nameOf (operation : Json) (verb url : String) : Except Misuse String := do
  let id := (← operation.member? "operationId").getD .null
  if id.isBlank then return nameOfUrl verb url
  match id with
  | .string id =>
    let name := Text.camelCase id
    return if name.isEmpty then nameOfUrl verb url else guardDigit name
  | _ => throw .notAName

/-! ## Telling names apart -/

/-- A name with a number. -/
def numbered (name : String) (n : Nat) : String := name ++ toString n

/-- The numbers last given to repeated names, and the names already taken. -/
structure Numbering where
  counters : List (String × Nat)
  taken : List String

/-- The first number after `last` that makes a name free. Among one more number than there are
names taken, one is free. -/
def firstFree (taken : List String) (name : String) (last : Nat) : Nat :=
  ((List.range' (last + 1) (taken.length + 1)).find?
    fun n => !taken.contains (numbered name n)).getD last

/-- Gives `name` a counter. -/
def setCounter (name : String) (n : Nat) (counters : List (String × Nat)) :
    List (String × Nat) :=
  (name, n) :: counters.filter (·.1 != name)

/-- The name to use for `name`, and what is taken then. -/
def Numbering.take (numbering : Numbering) (name : String) : String × Numbering :=
  if numbering.taken.contains name then
    let n := firstFree numbering.taken name ((numbering.counters.lookup name).getD 1)
    let free := numbered name n
    (free, ⟨setCounter name n numbering.counters, free :: numbering.taken⟩)
  else (name, { numbering with taken := name :: numbering.taken })

/-- Tells apart names in order, given what is taken. -/
def numberFrom (numbering : Numbering) : List String → List String
  | [] => []
  | name :: rest =>
    let (free, next) := numbering.take name
    free :: numberFrom next rest

/-- The same names in order, each that repeats an earlier result numbered from two. -/
def distinctNames (names : List String) : List String :=
  numberFrom ⟨[], []⟩ names

end ApiClient.Operation
