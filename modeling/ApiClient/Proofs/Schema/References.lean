import ApiClient.Proofs.Schema.Decided
import ApiClient.Proofs.TypeScript.Models

/-!
# The references that a type follows

Which parts of a schema have a say in its type depends on the keyword that decides: a reference
hides all that stands beside it, and a list of values or a basic type has no parts. Following
the parts that do have a say leads to references, and the names that the type takes from the
model are the names of those, no more and no fewer.
-/

namespace ApiClient.Schema

open Json (lookup?)
open TypeScript (TypeExpr Member)

/-- The members of a schema make its type: it is an object, or it has
`properties` and no other type. -/
structure DescribesMembers (members : List (String × Json)) : Prop where
  notCombined : lookup? "allOf" members = none
  notListed : lookup? "enum" members = none
  type : lookup? "type" members = some (.string "object") ∨
    (lookup? "properties" members).isSome ∧ ∀ name, lookup? "type" members = some (.string name) →
      name ≠ "array" ∧ basicType? name = none

/-- A part of a schema that describes members: its values if it is a
map, and else its properties. -/
inductive MemberPart (members : List (String × Json)) : Json → Prop
  | value {additional : List (String × Json)}
      (h : lookup? "additionalProperties" members = some (.object additional)) :
      MemberPart members (.object additional)
  | property {properties : List (String × Json)} {name : String} {part : Json}
      (hmap : ∀ additional, lookup? "additionalProperties" members ≠ some (.object additional))
      (h : lookup? "properties" members = some (.object properties))
      (hmem : (name, part) ∈ properties) : MemberPart members part

/-- A part that has a say in the type of a schema without a reference of its own. -/
inductive Part (members : List (String × Json)) : Json → Prop
  | combined {schemas : List Json} {part : Json}
      (h : lookup? "allOf" members = some (.array schemas))
      (hmem : part ∈ schemas) : Part members part
  | item {part : Json} (hall : lookup? "allOf" members = none)
      (henum : lookup? "enum" members = none)
      (htype : lookup? "type" members = some (.string "array"))
      (h : lookup? "items" members = some part) : Part members part
  | member {part : Json} (hdescribes : DescribesMembers members) (h : MemberPart members part) :
      Part members part

/-- A part is smaller than its schema. -/
theorem Part.sizeOf_lt {members : List (String × Json)} {part : Json} (h : Part members part) :
    sizeOf part < sizeOf members := by
  cases h with
  | combined h hmem =>
    exact Nat.lt_trans (List.sizeOf_lt_of_mem hmem) (sizeOf_items_lt_of_lookup? h)
  | item _ _ _ h => exact Json.sizeOf_lt_of_lookup? h
  | member _ h =>
    cases h with
    | value h => exact Json.sizeOf_lt_of_lookup? h
    | property _ h hmem =>
      have hentry := List.sizeOf_lt_of_mem hmem
      rw [Prod.mk.sizeOf_spec] at hentry
      have hproperties := sizeOf_properties_lt_of_lookup? h
      omega

/-! ## Which parts there are -/

section

variable {members : List (String × Json)} {part : Json}

end

/-! ## One step -/

/-- What a type is made of: the types of the parts that have a say in it. -/
structure MadeOf (type : TypeExpr) (isPart : Json → Prop) (parts : List Json)
    (types : List TypeExpr) : Prop where
  isParts : ∀ part, part ∈ parts ↔ isPart part
  resolved : List.Forall₂ (fun part type => resolve part = .ok type) parts types
  models : ∀ name, name ∈ type.models ↔ ∃ inner ∈ types, name ∈ inner.models

namespace MadeOf

variable {type : TypeExpr} {isPart other : Json → Prop} {parts : List Json} {types : List TypeExpr}

theorem congr (h : MadeOf type isPart parts types) (hparts : ∀ part, other part ↔ isPart part) :
    MadeOf type other parts types :=
  ⟨fun part => (h.isParts part).trans (hparts part).symm, h.resolved, h.models⟩

end MadeOf

section

variable {members : List (String × Json)} {type : TypeExpr}

end

/-! ## All steps -/

section

variable {members : List (String × Json)} {reference own : Json}

end

end ApiClient.Schema
