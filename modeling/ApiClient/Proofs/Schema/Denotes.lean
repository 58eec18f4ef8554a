import ApiClient.Proofs.Schema.References
import ApiClient.Proofs.TypeScript.Printed

/-!
# The type that a schema denotes

What the type of a schema should be, told without its text: for schemas made of references,
listed values, basic types, arrays, maps and objects, at any depth. The printed type is read as
the type that the schema denotes, and as no other, unless the type is not legible. In particular
what is printed for an array is never read as a union.
-/

namespace ApiClient.Schema

open Json (lookup?)
open TypeScript (Tree Member TypeExpr)

/-! ## Denotation -/

/-- The words for the basic types. -/
def basicWords : List (String × String) :=
  [("string", "string"), ("integer", "number"), ("number", "number"), ("boolean", "boolean"),
    ("file", "File")]

/-- The types that a schema can be said to have. -/
def knownTypes : List String := "array" :: "object" :: basicWords.map (·.1)

/-- The type of any value. -/
def anyTree : Tree := .named ["any"]

/-- A schema describes members: it is said to be an object, or it has
properties and its type is not known. -/
inductive IsObject (members : List (String × Json)) : Prop
  | object (h : lookup? "type" members = some (.string "object"))
  | properties (h : (lookup? "properties" members).isSome = true)
      (hname : ∀ name, lookup? "type" members = some (.string name) →
        name ≠ "array" ∧ name ∉ basicWords.map (·.1))
      (hkey : ∀ type ∈ lookup? "type" members, isKey type = true)

/-- The values that a schema lists as required: none unless it has such a list. -/
inductive Requires (members : List (String × Json)) : List Json → Prop
  | nothing (h : lookup? "required" members = none) : Requires members []
  | listed {values : List Json} (h : lookup? "required" members = some (.array values))
      (hkeys : ∀ value ∈ values, isKey value = true) : Requires members values

mutual

/-- A schema denotes a type. -/
inductive Denotes : Json → Tree → Prop
  /-- A schema that says nothing is that of any value. -/
  | blank {schema : Json} (h : schema.isBlank = true) : Denotes schema anyTree
  | reference {members : List (String × Json)} {path : String}
      (h : lookup? "$ref" members = some (.string path)) :
      Denotes (.object members)
        (.named [TypeScript.modelNamespace, TypeScript.typeName (afterLastSlash path)])
  | values {members : List (String × Json)} {values : List Json}
      (href : lookup? "$ref" members = none) (hall : lookup? "allOf" members = none)
      (h : lookup? "enum" members = some (.array values)) (hne : values ≠ [])
      (hbasic : ∀ value ∈ values, TypeScript.isBasic value = true) :
      Denotes (.object members) (.ofValues values)
  | basic {members : List (String × Json)} {name word : String} (htyped : IsTyped members)
      (h : lookup? "type" members = some (.string name)) (hword : (name, word) ∈ basicWords) :
      Denotes (.object members) (.named [word])
  | array {members : List (String × Json)} {items : Json} {item : Tree} (htyped : IsTyped members)
      (h : lookup? "type" members = some (.string "array"))
      (hitems : lookup? "items" members = some items) (hitem : Denotes items item) :
      Denotes (.object members) item.array
  | anyItems {members : List (String × Json)} (htyped : IsTyped members)
      (h : lookup? "type" members = some (.string "array"))
      (hitems : lookup? "items" members = none) : Denotes (.object members) anyTree.array
  | map {members additional : List (String × Json)} {value : Tree} (htyped : IsTyped members)
      (hobject : IsObject members)
      (h : lookup? "additionalProperties" members = some (.object additional))
      (hvalue : Denotes (.object additional) value) : Denotes (.object members) value.map
  | record {members properties : List (String × Json)} {required : List Json}
      {fields : List (Member Tree)} (htyped : IsTyped members) (hobject : IsObject members)
      (hmap : ∀ additional, lookup? "additionalProperties" members ≠ some (.object additional))
      (h : lookup? "properties" members = some (.object properties))
      (hrequired : Requires members required)
      (hfields : DenoteMembers required properties fields) :
      Denotes (.object members) (.record fields)
  | object {members : List (String × Json)} (htyped : IsTyped members)
      (h : lookup? "type" members = some (.string "object"))
      (hmap : ∀ additional, lookup? "additionalProperties" members ≠ some (.object additional))
      (hproperties : lookup? "properties" members = none) :
      Denotes (.object members) (.named ["object"])
  /-- A schema with no type that is known, and no properties, is that of any value. -/
  | untold {members : List (String × Json)} (htyped : IsTyped members)
      (hname : ∀ name, lookup? "type" members = some (.string name) → name ∉ knownTypes)
      (hkey : ∀ type ∈ lookup? "type" members, isKey type = true)
      (hproperties : lookup? "properties" members = none) : Denotes (.object members) anyTree

/-- Properties denote the members of an object; one that is not required may be left out. -/
inductive DenoteMembers : List Json → List (String × Json) → List (Member Tree) → Prop
  | nil {required : List Json} : DenoteMembers required [] []
  | cons {required : List Json} {name : String} {schema : Json} {type : Tree} {optional : Bool}
      {properties : List (String × Json)} {fields : List (Member Tree)}
      (hname : TypeScript.IsPlainKey name)
      (htype : Denotes schema type) (hoptional : optional = true ↔ Json.string name ∉ required)
      (hrest : DenoteMembers required properties fields) :
      DenoteMembers required ((name, schema) :: properties) (⟨name, optional, type⟩ :: fields)

end

/-! ## What is resolved -/

section

variable {members : List (String × Json)}

theorem resolve_of_isBlank {schema : Json} (h : schema.isBlank = true) :
    resolve schema = .ok .any := by
  cases schema with
  | object members =>
    obtain rfl : members = [] := by simpa [Json.isBlank] using h
    have htyped : IsTyped [] := ⟨rfl, rfl, rfl⟩
    rw [htyped.resolve_of_isKey (by simp [lookup?]) (by simp [lookup?])]
    exact resolveMembers_of_none (by simp [lookup?])
  | null | bool | int | double | string | array =>
    rw [resolve_of_other (fun _ he => by cases he), resolveOther, if_pos h]
    rfl

theorem resolve_reference {path name : String} (h : lookup? "$ref" members = some (.string path))
    (hname : TypeScript.typeName (afterLastSlash path) = name) :
    resolve (.object members) = .ok (.model name) :=
  hname ▸ resolve_of_reference h

theorem resolve_values {values : List Json} (href : lookup? "$ref" members = none)
    (hall : lookup? "allOf" members = none) (h : lookup? "enum" members = some (.array values))
    (hne : values ≠ []) : resolve (.object members) = .ok (.union values) := by
  rw [resolve_of_values href hall h]
  show Except.ok (TypeExpr.unionOf values) = _
  rw [TypeExpr.unionOf, if_neg (by simpa using hne)]

theorem resolve_basic {name : String} {type : TypeExpr} (htyped : IsTyped members)
    (h : lookup? "type" members = some (.string name)) (hname : name ≠ "array")
    (hbasic : basicType? name = some type) : resolve (.object members) = .ok type := by
  rw [htyped.resolve_name h hname, hbasic]
  rfl

/-- A basic type is printed as its word. -/
theorem exists_basicType? {name word : String} (h : (name, word) ∈ basicWords) :
    name ≠ "array" ∧ ∃ type, basicType? name = some type ∧
      TypeScript.Prints type.text (.named [word]) := by
  simp only [basicWords, List.mem_cons, Prod.mk.injEq, List.not_mem_nil, or_false] at h
  rcases h with ⟨rfl, rfl⟩ | ⟨rfl, rfl⟩ | ⟨rfl, rfl⟩ | ⟨rfl, rfl⟩ | ⟨rfl, rfl⟩
  all_goals exact ⟨by decide, _, rfl, TypeScript.prints_word (by decide) (by decide)⟩

theorem basicType?_eq_none {name : String} (h : name ∉ basicWords.map (·.1)) :
    basicType? name = none := by
  unfold basicType?
  split <;> first | rfl | exact absurd (by decide) h

/-- The members of a schema that describes members make its type. -/
theorem IsObject.exists_resolveMembers (hobject : IsObject members) (htyped : IsTyped members) :
    ∃ isObject, resolve (.object members) = resolveMembers isObject members ∧
      (isObject || (lookup? "properties" members).isSome) = true := by
  cases hobject with
  | object h => exact ⟨true, htyped.resolve_name h (by decide), rfl⟩
  | properties h hname hkey =>
    by_cases hnamed : ∃ name, lookup? "type" members = some (.string name)
    · obtain ⟨name, htype⟩ := hnamed
      refine ⟨name == "object", ?_, by rw [h, Bool.or_true]⟩
      rw [htyped.resolve_name htype (hname name htype).1, basicType?_eq_none (hname name htype).2]
      rfl
    · exact ⟨false, htyped.resolve_of_isKey (fun name htype => hnamed ⟨name, htype⟩) hkey, h⟩

theorem resolve_map (htyped : IsTyped members) (hobject : IsObject members)
    {additional : List (String × Json)}
    (h : lookup? "additionalProperties" members = some (.object additional)) :
    resolve (.object members) = (resolve (.object additional)).map .map := by
  obtain ⟨isObject, hresolve, hdescribes⟩ := hobject.exists_resolveMembers htyped
  rw [hresolve, resolveMembers_of_map hdescribes h]

theorem resolve_members (htyped : IsTyped members) (hobject : IsObject members)
    (hmap : ∀ additional, lookup? "additionalProperties" members ≠ some (.object additional)) :
    resolve (.object members) =
      if (lookup? "properties" members).isSome then resolveRecord members else .ok .object := by
  obtain ⟨isObject, hresolve, hdescribes⟩ := hobject.exists_resolveMembers htyped
  rw [hresolve, resolveMembers_of_closed hdescribes hmap]

theorem resolve_untold (htyped : IsTyped members)
    (hname : ∀ name, lookup? "type" members = some (.string name) → name ∉ knownTypes)
    (hkey : ∀ type ∈ lookup? "type" members, isKey type = true)
    (hproperties : lookup? "properties" members = none) :
    resolve (.object members) = .ok .any := by
  have hnothing : resolveMembers false members = .ok .any :=
    resolveMembers_of_none (by simp [hproperties])
  by_cases hnamed : ∃ name, lookup? "type" members = some (.string name)
  · obtain ⟨name, htype⟩ := hnamed
    have hnot := hname name htype
    simp only [knownTypes, List.mem_cons, not_or] at hnot
    rw [htyped.resolve_name htype hnot.1, basicType?_eq_none hnot.2.2,
      beq_eq_false_iff_ne.mpr hnot.2.1]
    exact hnothing
  · rw [htyped.resolve_of_isKey (fun name htype => hnamed ⟨name, htype⟩) hkey, hnothing]

theorem requiredNames_eq {required : List Json} (h : Requires members required) :
    requiredNames (lookup? "required" members) = .ok (required.filterMap Json.text?) := by
  cases h with
  | nothing h => rw [h]; rfl
  | listed h hkeys =>
    have hall : required.all isKey = true := List.all_eq_true.mpr hkeys
    rw [h, requiredNames]
    show (if required.all isKey = true then _ else _) = _
    rw [if_pos hall]
    rfl

theorem resolveRecord_eq {properties : List (String × Json)}
    (h : lookup? "properties" members = some (.object properties)) : resolveRecord members =
      requiredNames (lookup? "required" members) >>= fun required =>
        (resolveProperties required properties).map .record := by
  rw [resolveRecord]
  cases requiredNames (lookup? "required" members) with
  | error misuse => rfl
  | ok required =>
    dsimp only [bind, Except.bind]
    split
    · rename_i other hother
      rw [h] at hother
      cases hother
      cases resolveProperties required properties <;> rfl
    · rename_i hother hvalue
      rw [h] at hvalue
      exact absurd (Option.some.inj hvalue).symm (hother _)
    · rename_i hother
      rw [h] at hother
      cases hother

theorem resolve_record (htyped : IsTyped members) (hobject : IsObject members)
    (hmap : ∀ additional, lookup? "additionalProperties" members ≠ some (.object additional))
    {properties : List (String × Json)} {required : List Json}
    (h : lookup? "properties" members = some (.object properties))
    (hrequired : Requires members required) : resolve (.object members) =
      (resolveProperties (required.filterMap Json.text?) properties).map .record := by
  rw [resolve_members htyped hobject hmap, h, Option.isSome_some, if_pos rfl, resolveRecord_eq h,
    requiredNames_eq hrequired]
  rfl

end

/-! ## What is printed -/

/-- A name is required if it is among the values that are. -/
theorem mem_texts_iff {name : String} {required : List Json} :
    name ∈ required.filterMap Json.text? ↔ Json.string name ∈ required := by
  rw [List.mem_filterMap]
  constructor
  · rintro ⟨value, hvalue, htext⟩
    cases value with
    | string text => exact Option.some.inj htext ▸ hvalue
    | null | bool | int | double | array | object => cases htext
  · exact fun h => ⟨_, h, rfl⟩

mutual

/-- A schema that denotes a type is resolved, and what is printed for
it is printed for the type. -/
theorem Denotes.exists_resolve : ∀ {schema : Json} {tree : Tree}, Denotes schema tree →
    ∃ type, resolve schema = .ok type ∧ TypeScript.Prints type.text tree
  | _, _, .blank h => ⟨.any, resolve_of_isBlank h, TypeScript.prints_word (by decide) (by decide)⟩
  | _, _, .reference h => ⟨_, resolve_reference h rfl, TypeScript.prints_model _⟩
  | _, _, .values href hall h hne hbasic =>
    ⟨_, resolve_values href hall h hne, TypeScript.prints_union hne hbasic⟩
  | _, _, .basic htyped h hword => by
    obtain ⟨hname, type, hbasic, hprints⟩ := exists_basicType? hword
    exact ⟨type, resolve_basic htyped h hname hbasic, hprints⟩
  | _, _, .array htyped h hitems hitem => by
    obtain ⟨type, hresolve, hprints⟩ := hitem.exists_resolve
    refine ⟨.array type, ?_, hprints.array⟩
    rw [htyped.resolve_array h, hitems]
    exact congrArg (Except.map TypeExpr.array) hresolve
  | _, _, .anyItems htyped h hitems => by
    refine ⟨.array .any, ?_, (TypeScript.prints_word (by decide) (by decide)).array⟩
    rw [htyped.resolve_array h, hitems]
    rfl
  | _, _, .map htyped hobject h hvalue => by
    obtain ⟨type, hresolve, hprints⟩ := hvalue.exists_resolve
    refine ⟨.map type, ?_, hprints.map⟩
    rw [resolve_map htyped hobject h, hresolve]
    rfl
  | _, _, .record htyped hobject hmap h hrequired hfields => by
    obtain ⟨fields, hresolve, hprints⟩ := hfields.exists_resolve
    refine ⟨.record fields, ?_, TypeScript.prints_record hprints⟩
    rw [resolve_record htyped hobject hmap h hrequired, hresolve]
    rfl
  | _, _, .object htyped h hmap hproperties => by
    refine ⟨.object, ?_, TypeScript.prints_word (by decide) (by decide)⟩
    rw [resolve_members htyped (.object h) hmap, hproperties]
    rfl
  | _, _, .untold htyped hname hkey hproperties =>
    ⟨.any, resolve_untold htyped hname hkey hproperties,
      TypeScript.prints_word (by decide) (by decide)⟩

theorem DenoteMembers.exists_resolve : ∀ {required : List Json} {properties : List (String × Json)}
    {members : List (Member Tree)}, DenoteMembers required properties members →
    ∃ fields, resolveProperties (required.filterMap Json.text?) properties = .ok fields ∧
      List.Forall₂ TypeScript.PrintsMember (TypeExpr.memberTexts fields) members
  | _, _, _, .nil => ⟨[], by rw [resolveProperties], .nil⟩
  | required, _, _, @DenoteMembers.cons _ name _ _ optional _ _ hname htype hoptional hrest => by
    obtain ⟨type, hresolve, hprints⟩ := htype.exists_resolve
    obtain ⟨fields, hfields, hothers⟩ := hrest.exists_resolve
    refine ⟨⟨name, optional, type⟩ :: fields, ?_, .cons (hprints.member hname optional) hothers⟩
    have hmark : (!(required.filterMap Json.text?).contains name) = optional := by
      rw [Bool.eq_iff_iff, hoptional, Bool.not_eq_true', ← Bool.not_eq_true, List.contains_iff_mem,
        mem_texts_iff]
    rw [resolveProperties, hresolve, hfields, hmark]
    rfl

end

/-- **A schema is printed as what it denotes.** The text of its type is read as the type that
the schema denotes and as no other; if that type is not legible, the text is not read at all. -/
theorem reads_text_iff_of_denotes {schema : Json} {tree : Tree} (h : Denotes schema tree) :
    ∃ type, resolve schema = .ok type ∧
      ∀ other, TypeScript.Reads type.text other ↔ tree.isLegible = true ∧ other = tree := by
  obtain ⟨type, hresolve, hprints⟩ := h.exists_resolve
  exact ⟨type, hresolve, fun _ => hprints.reads_iff⟩

/-- A listed text with a line break. -/
def twoLines : List (String × Json) := [("enum", .array [.string "a\nb"])]

/-- What is printed for a listed text with a line break is no type. -/
theorem not_reads_twoLines : Denotes (.object twoLines) (.literal (.string "a\nb")) ∧
    ∃ type, resolve (.object twoLines) = .ok type ∧ type.text = "'a\nb'" ∧
      ∀ other, ¬ TypeScript.Reads type.text other := by
  have hdenotes : Denotes (.object twoLines) (.literal (.string "a\nb")) :=
    .values rfl rfl rfl (List.cons_ne_nil _ _) (List.forall_mem_singleton.mpr rfl)
  have hresolve : resolve (.object twoLines) = .ok (.union [.string "a\nb"]) :=
    resolve_values rfl rfl rfl (List.cons_ne_nil _ _)
  refine ⟨hdenotes, _, hresolve, by decide +kernel, fun other hother => ?_⟩
  obtain ⟨type, htype, hreads⟩ := reads_text_iff_of_denotes hdenotes
  obtain rfl := Except.ok.inj (hresolve.symm.trans htype)
  exact absurd ((hreads other).mp hother).1 (by decide)

end ApiClient.Schema
