import ApiClient.Json.Access

/-!
# Parameters of a path and of an operation

Parameters declared for a path apply to all its operations, unless an operation declares its own.
Two declarations are of the same parameter if they have the same reference, or the same name, and
the same location; the later one takes the place of the earlier.
-/

namespace ApiClient.Operation

/-- Whether two plain values are the same key. Truth values are the numbers zero and one. -/
def sameKey : Json → Json → Bool
  | .null, .null => true
  | .string left, .string right => left == right
  | .int left, .int right => left == right
  | .bool left, .bool right => left == right
  | .int left, .bool right => left == right.toInt
  | .bool left, .int right => left.toInt == right
  | .double left, .double right => left.sameKey right
  | .double left, .int right => left.equalsInt right
  | .int left, .double right => right.equalsInt left
  | .double left, .bool right => left.equalsInt right.toInt
  | .bool left, .double right => right.equalsInt left.toInt
  | _, _ => false

/-- A plain value, which can be a key. -/
def asKey : Json → Except Misuse Json
  | .array _ | .object _ => .error .notAKey
  | value => .ok value

/-- What a declaration is told apart by: its reference or else its name, and its location. -/
def declarationKey (declaration : Json) : Except Misuse (Json × Json) := do
  let reference := (← declaration.member? "$ref").getD .null
  let name := (← declaration.member? "name").getD (.string "")
  let location := (← declaration.member? "in").getD (.string "")
  return (← asKey (reference.orElse name), ← asKey location)

/-- Puts a declaration in the place of the one with its key, or at the end. -/
def putDeclaration (key : Json × Json) (declaration : Json) :
    List ((Json × Json) × Json) → List ((Json × Json) × Json)
  | [] => [(key, declaration)]
  | (other, old) :: rest =>
    if sameKey key.1 other.1 && sameKey key.2 other.2 then (other, declaration) :: rest
    else (other, old) :: putDeclaration key declaration rest

/-- Merges declarations in order. -/
def mergeAll (merged : List ((Json × Json) × Json)) :
    List Json → Except Misuse (List ((Json × Json) × Json))
  | [] => .ok merged
  | declaration :: rest => do
    mergeAll (putDeclaration (← declarationKey declaration) declaration merged) rest

/-- Two lists of declarations, one after the other. -/
def joined (first second : Json) : Except Misuse (List Json) :=
  match first.orElse (.array []), second.orElse (.array []) with
  | .array first, .array second => .ok (first ++ second)
  -- two texts can be joined, but their characters declare nothing
  | .string _, .string _ => .error .notAnObject
  | _, _ => .error .notJoinable

/-- The declarations that apply to an operation: null if neither level has a list. -/
def mergeDeclarations (ofPath ofOperation : Json) : Except Misuse Json := do
  match ofPath, ofOperation with
  | .null, .null => return .null
  | ofPath, ofOperation =>
    let merged ← mergeAll [] (← joined ofPath ofOperation)
    return .array (merged.map (·.2))

end ApiClient.Operation
