import ApiClient.Schema.Resolve
import ApiClient.Text.Uppercase

/-!
# Responses

What an operation answers on success. Of the documented success codes `200` and `201` come first
and the others in order; the first with a schema decides. A schema that lists values is declared as
an enumeration of its own.
-/

namespace ApiClient

/-- The type of a response, and the declaration that it needs, if any. -/
structure Response where
  type : String
  declaration : Option String

namespace Response

/-- The response of an operation that answers nothing. -/
def void : Response := ⟨"void", none⟩

/-- The codes that come before all others. -/
def preferredCodes : List String := ["200", "201"]

/-- Whether a code is a success code that is not a preferred one. -/
def isFurtherCode (code : Json) : Bool :=
  ['2'].isPrefixOf code.shown.toList && !preferredCodes.any (Json.isText · code)

/-- The success codes of some responses in the order in which they are looked at. -/
def codes (responses : List (String × Json)) : List String :=
  let further := (Json.names responses).filter fun code => isFurtherCode (.string code)
  preferredCodes ++ further.mergeSort fun left right => decide (left ≤ right)

/-- The schema of one response, if it has one. -/
def schemaOf (response : Json) : Except Misuse (Option Json) := do
  let response := response.orElse (.object [])
  if ← response.mentions "schema" then return some (← response.member "schema")
  return none

/-- The schema at the first of some codes that has one. -/
def firstSchema (responses : List (String × Json)) : List String → Except Misuse (Option Json)
  | [] => .ok none
  | code :: rest => do
    match ← schemaOf ((Json.lookup? code responses).getD .null) with
    | some schema => return some schema
    | none => firstSchema responses rest

/-- Whether success codes are listed both as texts and as numbers. -/
def mixesKinds (codes : List Json) : Bool :=
  let further := codes.filter isFurtherCode
  further.any (·.text?.isSome) && further.any (·.text?.isNone)

/-- The schema of the successful response; null stands for none. -/
def successSchema (responses : Json) : Except Misuse Json := do
  let responses := responses.orElse (.object [])
  match responses with
  | .object members => return ((← firstSchema members (codes members)).getD .null)
  | _ =>
    -- the codes can be listed without being looked up
    if mixesKinds (← responses.parts) then throw .notComparable
    throw .notAnObject

/-- The name of the type that an enumeration response gets. -/
def enumerationName (method : String) : String :=
  Text.upperFirst (method ++ "Response")

/-- The response of the method `method` with a schema; null stands for none. -/
def ofSchema (schema : Json) (method : String) : Except Misuse Response := do
  match schema with
  | .null => return void
  | schema =>
    let listsValues := (← schema.mentions "enum") && !(← schema.mentions "$ref")
    if listsValues then
      let name := enumerationName method
      let values ← schema.member "enum"
      return ⟨name, some (← TypeScript.Enumeration.declare name values)⟩
    return ⟨(← Schema.resolve schema).text, none⟩

/-- The response of the method `method` with documented responses. -/
def ofResponses (responses : Json) (method : String) : Except Misuse Response := do
  ofSchema (← successSchema responses) method

end Response

end ApiClient
