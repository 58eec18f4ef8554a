import ApiClient.Proofs.Schema.Denotes
import ApiClient.Proofs.TypeScript.Joined

/-!
# Schemas that are combined

Of the schemas that another combines, those of any value are left out, and the texts of the
types of the others are put behind each other with `&` between them. A text that is a union is
not put in parentheses for that, so the whole is read as the intersection of the parts only
where there is one part, or no union among them.
-/

namespace ApiClient.Schema

open Json (lookup?)
open TypeScript (TypeExpr Tree ReadsAs Reads meetAll)

/-- The types of which an intersection is made. -/
def factors (types : List TypeExpr) : List TypeExpr :=
  types.filter fun
    | .any => false
    | _ => true

theorem intersectionOf_eq (types : List TypeExpr) : TypeExpr.intersectionOf types =
    match factors types with
    | [] => .any
    | [part] => part
    | parts => .intersection parts := rfl

theorem text_intersectionOf {types : List TypeExpr} (h : factors types ≠ []) :
    (TypeExpr.intersectionOf types).text =
      " & ".intercalate ((factors types).map TypeExpr.text) := by
  rw [intersectionOf_eq]
  split
  · exact absurd ‹_› h
  · rename_i part hpart
    rw [hpart, List.map_singleton, String.intercalate_singleton]
  · exact congrArg " & ".intercalate (TypeExpr.texts_eq_map _)

/-- A type is printed as others are, with `&` between their texts;
`sums` are what those are read as. -/
structure Combines (type : TypeExpr) (parts : List TypeExpr) : Prop where
  any : parts = [] → type = .any
  readsAs : parts ≠ [] → ∀ sums, List.Forall₂ (fun part sum => ReadsAs part.text sum) parts sums →
    ReadsAs type.text (meetAll sums)
  reads_iff : parts ≠ [] → ∀ sums,
    List.Forall₂ (fun part sum => ReadsAs part.text sum) parts sums →
    (Reads type.text (Tree.meet sums) ↔ sums.length = 1 ∨ ∀ sum ∈ sums, sum.length = 1)

theorem combines_intersectionOf (types : List TypeExpr) :
    Combines (TypeExpr.intersectionOf types) (factors types) := by
  have hreads : factors types ≠ [] → ∀ sums,
      List.Forall₂ (fun part sum => ReadsAs part.text sum) (factors types) sums →
      ReadsAs (TypeExpr.intersectionOf types).text (meetAll sums) := by
    intro hne sums hsums
    rw [text_intersectionOf hne]
    exact TypeScript.readsAs_intercalate (List.forall₂_map_left_iff.mpr hsums) (by simpa using hne)
  refine ⟨fun h => by rw [intersectionOf_eq, h], hreads, fun hne sums hsums => ?_⟩
  have hall : ∀ sum ∈ sums, TypeScript.IsSum sum := by
    intro sum hsum
    obtain ⟨part, -, hpart⟩ := exists_of_forall₂_right hsums hsum
    exact hpart.isSum
  have hsumsNe : sums ≠ [] := by
    rintro rfl
    exact hne (List.forall₂_nil_right_iff.mp hsums)
  -- the text has one reading at most, so the two trees agree just if their sums do
  rw [← TypeScript.ofSum_meetAll_eq_iff hsumsNe hall]
  constructor
  · exact fun h => Reads.unique ⟨_, hreads hne sums hsums, rfl⟩ h
  · exact fun h => ⟨_, hreads hne sums hsums, h⟩

section

variable {members : List (String × Json)} {schemas : List Json} {type : TypeExpr}

/-- Schemas are combined if each of them is resolved. -/
theorem resolve_combined_iff (href : lookup? "$ref" members = none)
    (hall : lookup? "allOf" members = some (.array schemas)) :
    resolve (.object members) = .ok type ↔
    ∃ types, List.Forall₂ (fun part type => resolve part = .ok type) schemas types ∧
      type = TypeExpr.intersectionOf types := by
  rw [resolve_of_combined href hall, map_eq_ok]
  exact exists_congr fun types => and_congr mapM_eq_ok eq_comm

/-- **What combined schemas are read as.** A reference hides them. Otherwise each of them is
resolved, and what is printed has an `&` between the parts: it is read as their intersection
just if there is one part, or none of the parts is read as a union of several types. -/
theorem combines_of_resolve (hall : lookup? "allOf" members = some (.array schemas))
    (h : resolve (.object members) = .ok type) :
    (∃ own, lookup? "$ref" members = some own ∧ reference own = .ok type) ∨
      lookup? "$ref" members = none ∧ ∃ types,
        List.Forall₂ (fun part type => resolve part = .ok type) schemas types ∧
          Combines type (factors types) := by
  cases href : lookup? "$ref" members with
  | some own => exact .inl ⟨own, rfl, resolve_of_reference href ▸ h⟩
  | none =>
    obtain ⟨types, htypes, rfl⟩ := (resolve_combined_iff href hall).mp h
    exact .inr ⟨rfl, types, htypes, combines_intersectionOf types⟩

end

/-- Two listed values and a reference, to be combined. -/
def taggedPet : List (String × Json) :=
  [("allOf", .array [.object [("enum", .array [.string "a", .string "b"])],
    .object [("$ref", .string "#/definitions/Pet")]])]

/-- Only the second of two listed values is intersected with the reference behind them. -/
theorem not_reads_taggedPet : ∃ type, resolve (.object taggedPet) = .ok type ∧
    type.text = "'a' | 'b' & __model.Pet" ∧
    ¬ Reads type.text (.intersection [.union [.literal (.string "a"), .literal (.string "b")],
      .named ["__model", "Pet"]]) := by
  have hvalues : resolve (.object [("enum", .array [.string "a", .string "b"])]) =
      .ok (.union [.string "a", .string "b"]) := resolve_values rfl rfl rfl (List.cons_ne_nil _ _)
  have hpet : resolve (.object [("$ref", .string "#/definitions/Pet")]) = .ok (.model "Pet") :=
    resolve_reference rfl (by decide +kernel)
  have hresolve : resolve (.object taggedPet) =
      .ok (.intersection [.union [.string "a", .string "b"], .model "Pet"]) :=
    (resolve_combined_iff rfl rfl).mpr ⟨_, .cons hvalues (.cons hpet .nil), rfl⟩
  have hmodel : ReadsAs (TypeExpr.model "Pet").text [[.named ["__model", "Pet"]]] :=
    TypeScript.readsAs_model (by decide +kernel : TypeScript.typeName "Pet" = "Pet") (by decide)
  refine ⟨_, hresolve, by decide +kernel, ?_⟩
  obtain ⟨own, href, -⟩ | ⟨-, types, htypes, hcombines⟩ := combines_of_resolve rfl hresolve
  · cases href
  cases htypes with
  | cons hfirst hrest =>
  cases hrest with
  | cons hsecond hrest =>
  cases hrest
  obtain rfl := Except.ok.inj (hvalues.symm.trans hfirst)
  obtain rfl := Except.ok.inj (hpet.symm.trans hsecond)
  have hsums : List.Forall₂ (fun part sum => ReadsAs (TypeExpr.text part) sum)
      (factors [.union [.string "a", .string "b"], .model "Pet"])
      [[[.literal (.string "a")], [.literal (.string "b")]], [[.named ["__model", "Pet"]]]] :=
    .cons (TypeScript.readsAs_union (List.cons_ne_nil _ _) (by decide) (by decide))
      (.cons hmodel .nil)
  -- the union is one of several factors, so it would have to stand in parentheses
  intro h
  exact absurd ((hcombines.reads_iff (List.cons_ne_nil _ _) _ hsums).mp h) (by decide)

end ApiClient.Schema
