import ApiClient.Proofs.Outcome
import ApiClient.Schema.Resolve

/-!
# What decides the type of a schema

The keywords of a schema are looked for in a fixed order, and the first that is there decides: a
reference, schemas to combine, listed values, a `type`, and the members at last. Here `resolve`
is taken apart, so that no later proof goes through the keywords again: there is an equation for
each keyword that decides, and a case for each way to have a type.
-/

namespace ApiClient.Schema

open Json (lookup?)
open TypeScript (TypeExpr)

/-- The `type` and the members of a schema decide, and nothing in front of them. -/
structure IsTyped (members : List (String × Json)) : Prop where
  notReferring : lookup? "$ref" members = none
  notCombined : lookup? "allOf" members = none
  notListed : lookup? "enum" members = none

variable {members : List (String × Json)} {type : TypeExpr}

/-! ## One value -/

theorem reference_eq_ok {value : Json} :
    reference value = .ok type ↔ ∃ name, referenceName value = .ok name ∧ type = .model name := by
  unfold reference
  rw [bind_eq_ok]
  refine exists_congr fun name => and_congr_right fun _ => ?_
  rw [pure_eq_ok, eq_comm]

/-- What is not an object is any value, if it is a schema at all. -/
theorem eq_any_of_resolveOther {schema : Json}
    (h : resolveOther schema = .ok type) : type = .any := by
  unfold resolveOther at h
  split at h
  · exact (pure_eq_ok.mp h).symm
  · -- every other way ends in a misuse
    obtain ⟨hasReference, -, h⟩ := bind_eq_ok.mp h
    split at h
    · cases h
    · obtain ⟨hasParts, -, h⟩ := bind_eq_ok.mp h
      split at h
      · cases h
      · obtain ⟨hasValues, -, h⟩ := bind_eq_ok.mp h
        split at h <;> cases h

theorem resolve_of_other {schema : Json} (hother : ∀ members, schema ≠ .object members) :
    resolve schema = resolveOther schema := by
  rw [resolve]
  exact hother

theorem eq_any_of_resolve {schema : Json} (h : resolve schema = .ok type)
    (hother : ∀ members, schema ≠ .object members) : type = .any :=
  eq_any_of_resolveOther ((resolve_of_other hother).symm.trans h)

theorem resolveAll_eq (schemas : List Json) : resolveAll schemas = schemas.mapM resolve := by
  induction schemas with
  | nil => rw [resolveAll, List.mapM_nil]; rfl
  | cons schema rest ih => rw [resolveAll, List.mapM_cons, ih]

/-! ## The keyword that decides -/

theorem resolve_of_reference {own : Json} (h : lookup? "$ref" members = some own) :
    resolve (.object members) = reference own := by
  rw [resolve, h]

section

variable (href : lookup? "$ref" members = none)

include href

theorem resolve_of_combined {schemas : List Json}
    (hall : lookup? "allOf" members = some (.array schemas)) :
    resolve (.object members) = (schemas.mapM resolve).map .intersectionOf := by
  rw [resolve, href]
  dsimp only
  rw [hall, ← resolveAll_eq]

/-- Without a list of schemas there are only other parts to combine, such
as the characters of a text. -/
theorem resolve_of_unlisted {parts : Json} (hall : lookup? "allOf" members = some parts)
    (hparts : ∀ schemas, parts ≠ .array schemas) : resolve (.object members) = (do
      let types ← (← parts.parts).mapM resolveOther
      return .intersectionOf types) := by
  rw [resolve, href]
  dsimp only
  rw [hall]
  cases parts with
  | array schemas => exact absurd rfl (hparts schemas)
  | null | bool | int | double | string | object => rfl

theorem resolve_of_values {values : Json} (hall : lookup? "allOf" members = none)
    (henum : lookup? "enum" members = some values) :
    resolve (.object members) = values.parts.map .unionOf := by
  rw [resolve, href]
  dsimp only
  rw [hall, henum]

end

namespace IsTyped

variable (htyped : IsTyped members)

include htyped

theorem resolve_array (htype : lookup? "type" members = some (.string "array")) :
    resolve (.object members) =
      (lookup? "items" members).elim (.ok (.array .any)) fun items =>
      (resolve items).map .array := by
  rw [resolve, htyped.notReferring]
  dsimp only
  rw [htyped.notCombined, htyped.notListed, htype]
  dsimp only
  cases lookup? "items" members <;> rfl

theorem resolve_name {name : String} (htype : lookup? "type" members = some (.string name))
    (hname : name ≠ "array") : resolve (.object members) =
      (basicType? name).elim (resolveMembers (name == "object") members) .ok := by
  rw [resolve, htyped.notReferring]
  dsimp only
  rw [htyped.notCombined, htyped.notListed, htype]
  simp only
  cases basicType? name <;> rfl

/-- A `type` that is no text is passed over, unless it is a list or an object. -/
theorem resolve_unnamed (htype : ∀ name, lookup? "type" members ≠ some (.string name)) :
    resolve (.object members) =
      if (lookup? "type" members).all isKey then resolveMembers false members
      else .error .notAKey := by
  rw [resolve, htyped.notReferring]
  dsimp only
  rw [htyped.notCombined, htyped.notListed]
  dsimp only
  cases h : lookup? "type" members with
  | none => rfl
  | some type =>
    cases type with
    | string name => exact absurd h (htype name)
    | null | bool | int | double | array | object => rfl

theorem resolve_of_isKey (htype : ∀ name, lookup? "type" members ≠ some (.string name))
    (hkey : ∀ type ∈ lookup? "type" members, isKey type = true) :
    resolve (.object members) = resolveMembers false members := by
  rw [htyped.resolve_unnamed htype, if_pos ((Option.all_eq_true _ _).mpr hkey)]

end IsTyped

/-! ## Members -/

theorem resolveMembers_of_none {isObject : Bool}
    (h : ¬ (isObject || (lookup? "properties" members).isSome) = true) :
    resolveMembers isObject members = .ok .any := by
  rw [resolveMembers, if_neg h]

section

variable {isObject : Bool}
    (hdescribes : (isObject || (lookup? "properties" members).isSome) = true)

include hdescribes

theorem resolveMembers_of_map {additional : List (String × Json)}
    (hadditional : lookup? "additionalProperties" members = some (.object additional)) :
    resolveMembers isObject members = (resolve (.object additional)).map .map := by
  rw [resolveMembers, if_pos hdescribes]
  split
  · rename_i other hother
    rw [hadditional] at hother
    cases hother
    rfl
  · rename_i hmap
    exact absurd hadditional (hmap _)

theorem resolveMembers_of_closed
    (hmap : ∀ additional, lookup? "additionalProperties" members ≠ some (.object additional)) :
    resolveMembers isObject members =
      if (lookup? "properties" members).isSome then resolveRecord members else .ok .object := by
  rw [resolveMembers, if_pos hdescribes]
  split
  · rename_i other hother
    exact absurd hother (hmap _)
  · rfl

end

/-! ## The ways to have a type -/

/-- A schema has a type, by the keyword that decides. -/
inductive Resolves (members : List (String × Json)) : TypeExpr → Prop
  | reference {own : Json} {type : TypeExpr} (href : lookup? "$ref" members = some own)
      (h : Schema.reference own = .ok type) : Resolves members type
  | combined {schemas : List Json} {types : List TypeExpr} (href : lookup? "$ref" members = none)
      (hall : lookup? "allOf" members = some (.array schemas))
      (h : List.Forall₂ (fun part type => resolve part = .ok type) schemas types) :
      Resolves members (.intersectionOf types)
  | unlisted {parts : Json} {others : List Json} {types : List TypeExpr}
      (href : lookup? "$ref" members = none) (hall : lookup? "allOf" members = some parts)
      (hparts : ∀ schemas, parts ≠ .array schemas) (hothers : parts.parts = .ok others)
      (h : List.Forall₂ (fun other type => resolveOther other = .ok type) others types) :
      Resolves members (.intersectionOf types)
  | values {listed : Json} {values : List Json} (href : lookup? "$ref" members = none)
      (hall : lookup? "allOf" members = none) (henum : lookup? "enum" members = some listed)
      (h : listed.parts = .ok values) : Resolves members (.unionOf values)
  | items {items : Json} {item : TypeExpr} (htyped : IsTyped members)
      (htype : lookup? "type" members = some (.string "array"))
      (hitems : lookup? "items" members = some items) (h : resolve items = .ok item) :
      Resolves members (.array item)
  | anyItems (htyped : IsTyped members) (htype : lookup? "type" members = some (.string "array"))
      (hitems : lookup? "items" members = none) : Resolves members (.array .any)
  | basic {name : String} {type : TypeExpr} (htyped : IsTyped members)
      (htype : lookup? "type" members = some (.string name)) (hname : name ≠ "array")
      (h : basicType? name = some type) : Resolves members type
  | named {name : String} {type : TypeExpr} (htyped : IsTyped members)
      (htype : lookup? "type" members = some (.string name)) (hname : name ≠ "array")
      (hbasic : basicType? name = none)
      (h : resolveMembers (name == "object") members = .ok type) : Resolves members type
  | unnamed {type : TypeExpr} (htyped : IsTyped members)
      (htype : ∀ name, lookup? "type" members ≠ some (.string name))
      (h : resolveMembers false members = .ok type) : Resolves members type

/-- What decides where nothing stands in front of the `type`. -/
theorem IsTyped.resolves (htyped : IsTyped members) (h : resolve (.object members) = .ok type) :
    Resolves members type := by
  -- an array has its items resolved; every other type is told by its name
  by_cases hnamed : ∃ name, lookup? "type" members = some (.string name)
  · obtain ⟨name, htype⟩ := hnamed
    by_cases hname : name = "array"
    · subst hname
      rw [htyped.resolve_array htype] at h
      cases hitems : lookup? "items" members with
      | none =>
        rw [hitems] at h
        exact Except.ok.inj h ▸ .anyItems htyped htype hitems
      | some items =>
        rw [hitems] at h
        obtain ⟨item, hitem, rfl⟩ := map_eq_ok.mp h
        exact .items htyped htype hitems hitem
    · rw [htyped.resolve_name htype hname] at h
      cases hbasic : basicType? name with
      | none =>
        rw [hbasic] at h
        exact .named htyped htype hname hbasic h
      | some basic =>
        rw [hbasic] at h
        exact .basic htyped htype hname (hbasic.trans (congrArg some (Except.ok.inj h)))
  · have htype : ∀ name, lookup? "type" members ≠ some (.string name) :=
      fun name h => hnamed ⟨name, h⟩
    rw [htyped.resolve_unnamed htype] at h
    split at h
    · exact .unnamed htyped htype h
    · cases h

/-- **A schema that has a type has it by the first keyword that decides.** -/
theorem resolves_of_resolve (h : resolve (.object members) = .ok type) :
    Resolves members type := by
  -- the keywords are asked in this order, and the first that is there decides
  cases href : lookup? "$ref" members with
  | some own => exact .reference href ((resolve_of_reference href).symm.trans h)
  | none =>
    cases hall : lookup? "allOf" members with
    | some parts =>
      by_cases hlisted : ∃ schemas, parts = .array schemas
      · obtain ⟨schemas, rfl⟩ := hlisted
        rw [resolve_of_combined href hall] at h
        obtain ⟨types, htypes, rfl⟩ := map_eq_ok.mp h
        exact .combined href hall (mapM_eq_ok.mp htypes)
      · have hparts : ∀ schemas, parts ≠ .array schemas := fun schemas h => hlisted ⟨schemas, h⟩
        rw [resolve_of_unlisted href hall hparts] at h
        obtain ⟨others, hothers, h⟩ := bind_eq_ok.mp h
        obtain ⟨types, htypes, h⟩ := bind_eq_ok.mp h
        exact pure_eq_ok.mp h ▸ .unlisted href hall hparts hothers (mapM_eq_ok.mp htypes)
    | none =>
      cases henum : lookup? "enum" members with
      | some listed =>
        rw [resolve_of_values href hall henum] at h
        obtain ⟨values, hvalues, rfl⟩ := map_eq_ok.mp h
        exact .values href hall henum hvalues
      | none => exact IsTyped.resolves ⟨href, hall, henum⟩ h

end ApiClient.Schema
