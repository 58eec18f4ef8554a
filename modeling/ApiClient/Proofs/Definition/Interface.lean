import ApiClient.Proofs.Definition.Model

/-!
# What an interface is declared with

A definition is declared as an interface unless it lists values, is a map, or has a type that is
no object. The members of an interface are made of properties, one of each, and what an
interface says beyond its members is its parents.
-/

namespace ApiClient.Definition

open Json (lookup?)

/-- A definition that is declared as an interface. -/
structure IsInterfaceLike (members : List (String × Json)) : Prop where
  /-- No values are listed. -/
  unlisted : lookup? "enum" members = none
  /-- It is no map: it says what its values are only beside properties. -/
  notMap : ∀ additional, lookup? "additionalProperties" members = some (.object additional) →
    (lookup? "properties" members).isSome = true
  /-- It is an object if it has a type, or has properties or parts. -/
  object : lookup? "type" members = none ∨ lookup? "type" members = some (.string "object") ∨
    (lookup? "properties" members).isSome = true ∨ (lookup? "allOf" members).isSome = true

/-- The member that a property becomes. -/
def entryOf (required : List String) (property : String × Json) : Except Misuse Entry := do
  let type ← Schema.resolve property.2
  return ⟨describe property.2, ⟨property.1, !required.contains property.1, type⟩⟩

section

variable {members : List (String × Json)}

/-- Properties become members one by one, once it is known which of them are required. -/
theorem entriesOf_eq (members : List (String × Json)) : entriesOf (.object members) = (do
    let required ← Schema.requiredNames (lookup? "required" members)
    let properties ← (((lookup? "properties" members).getD .null).orElse (.object [])).members
    properties.mapM (entryOf required)) := rfl

/-- A member has the name of its property, and is marked by the names that are required. -/
theorem member_of_entryOf {required : List String} {property : String × Json} {entry : Entry}
    (h : entryOf required property = .ok entry) :
    entry.member.name = property.1 ∧ entry.member.optional = !required.contains property.1 := by
  obtain ⟨type, -, h⟩ := bind_eq_ok.mp h
  rw [← pure_eq_ok.mp h]
  exact ⟨rfl, rfl⟩

/-- There is a member for each property, in order. -/
theorem names_of_mapM_entryOf {required : List String} {properties : List (String × Json)}
    {entries : List Entry} (h : properties.mapM (entryOf required) = .ok entries) :
    entries.map (·.member.name) = Json.names properties := by
  refine map_eq_of_forall₂ (fun property entry hentry => ?_) (mapM_eq_ok.mp h)
  exact (member_of_entryOf hentry).1

theorem isMap_eq_false (h : IsInterfaceLike members) : isMap (.object members) = .ok false := by
  have hfound : (Json.object members).member? "additionalProperties" =
      .ok (lookup? "additionalProperties" members) := rfl
  unfold isMap
  rw [hfound]
  cases hadditional : lookup? "additionalProperties" members with
  | none => rfl
  | some additional =>
    cases additional with
    | object inner =>
      change Except.ok (!(lookup? "properties" members).isSome) = _
      rw [h.notMap inner hadditional]
      rfl
    | null | bool _ | int _ | double _ | string _ | array _ => rfl

theorem isInterface_eq_true (h : IsInterfaceLike members) :
    isInterface (.object members) = .ok true := by
  change Except.ok (((lookup? "type" members).getD (.string "object")).isText "object" ||
    (lookup? "properties" members).isSome || (lookup? "allOf" members).isSome) = _
  rcases h.object with h | h | h | h
  · rw [h]
    rfl
  · rw [h]
    rfl
  · rw [h, Bool.or_true, Bool.true_or]
  · rw [h, Bool.or_true]

/-- The declaration of an interface is its comment, and what its body is printed as. -/
theorem declaration_eq (h : IsInterfaceLike members) (name : String) :
    declaration name (.object members) = (body (.object members)).map fun declared =>
      describe (.object members) ++ declared.declaration name := by
  have hdeclared : declarationOf name (.object members) =
      (body (.object members)).map fun declared => declared.declaration name := by
    unfold declarationOf
    have hvalues : (Json.object members).mentions "enum" = .ok false := by
      rw [Json.mentions, h.unlisted]
      rfl
    rw [hvalues, isMap_eq_false h, isInterface_eq_true h]
    rfl
  unfold declaration
  rw [hdeclared]
  cases body (.object members) <;> rfl

end

end ApiClient.Definition
