import ApiClient.Proofs.Definition.Interface
import ApiClient.Proofs.Schema.Denotes

/-!
# Objects inline and under a name

The properties of a schema are printed in two places: in an object type, where the schema stands
inline, and in an interface, where it is a definition. Both go through the properties in the
same way and give the same members. But they do not agree on when there are members. Values of
any key make a schema a map where it stands inline, and its properties are not printed then; as
a definition it is a map only if it has no properties.
-/

namespace ApiClient.Definition

open Json (lookup?)
open TypeScript (TypeExpr Member)

/-- A schema describes an object by its properties, with nothing in front of them that decides. -/
structure HasProperties (members properties : List (String × Json)) : Prop where
  typed : Schema.IsTyped members
  object : lookup? "type" members = none ∨ lookup? "type" members = some (.string "object")
  properties : lookup? "properties" members = some (.object properties)

/-- A schema does not say what its values are whatever their keys. -/
def IsClosed (members : List (String × Json)) : Prop :=
  ∀ additional, lookup? "additionalProperties" members ≠ some (.object additional)

/-- The members in a type: those of an object type, and none in any other. -/
def fieldsOf : TypeExpr → List (Member TypeExpr)
  | .record fields => fields
  | _ => []

/-- The members that are printed of a schema where it stands inline. -/
def inlineFields (schema : Json) : Except Misuse (List (Member TypeExpr)) :=
  (Schema.resolve schema).map fieldsOf

/-- The members that are printed of a schema where it is a definition. -/
def namedFields (schema : Json) : Except Misuse (List (Member TypeExpr)) :=
  (entriesOf schema).map (·.map (·.member))

/-- A schema with properties, as it is printed in the two places. -/
structure InBothPlaces (members properties : List (String × Json)) : Prop where
  /-- Inline the members stand behind one another, between braces. -/
  inlineText : ∀ type, IsClosed members → Schema.resolve (.object members) = .ok type →
    type.text = "\x7b" ++ "; ".intercalate ((fieldsOf type).map TypeExpr.memberText) ++ "\x7d"
  /-- As a definition the schema is an interface of its members, with nothing else in it. -/
  namedText : ∀ name, declaration name (.object members) =
    (entriesOf (.object members)).map fun entries =>
      describe (.object members) ++ Body.declaration name ⟨[], entries⟩
  /-- Without values of any key the members are the same, or there are none for the same reason. -/
  same : IsClosed members → inlineFields (.object members) = namedFields (.object members)
  /-- With such values none of the properties is printed inline. -/
  hidden : ¬ IsClosed members → ∀ inline, inlineFields (.object members) = .ok inline → inline = []
  /-- In the interface there is each of them, in order. -/
  complete : ∀ named, namedFields (.object members) = .ok named →
    named.map (·.name) = Json.names properties
  same_iff : ∀ inline named, inlineFields (.object members) = .ok inline →
    namedFields (.object members) = .ok named →
    (inline = named ↔ IsClosed members ∨ properties = [])

/-! ## The loop over the properties -/

/-- The members of an interface are those of an object type, each with a comment. -/
theorem map_mapM_entryOf (required : List String) (properties : List (String × Json)) :
    (properties.mapM (entryOf required)).map (·.map (·.member)) =
      Schema.resolveProperties required properties := by
  induction properties with
  | nil =>
    rw [Schema.resolveProperties]
    rfl
  | cons property rest ih =>
    obtain ⟨name, schema⟩ := property
    have hentry : entryOf required (name, schema) = Schema.resolve schema >>= fun type =>
        pure ⟨describe schema, ⟨name, !required.contains name, type⟩⟩ := rfl
    rw [Schema.resolveProperties, ← ih, List.mapM_cons, hentry]
    cases Schema.resolve schema with
    | error misuse => rfl
    | ok type => cases rest.mapM (entryOf required) <;> rfl

section

variable {members properties : List (String × Json)}

namespace HasProperties

theorem isObject (h : HasProperties members properties) : Schema.IsObject members := by
  rcases h.object with hnone | hobject
  · refine .properties (by rw [h.properties, Option.isSome_some]) (fun name hname => ?_)
      fun type htype => ?_
    · rw [hnone] at hname
      cases hname
    · rw [hnone] at htype
      cases htype
  · exact .object hobject

theorem isInterfaceLike (h : HasProperties members properties) : IsInterfaceLike members where
  unlisted := h.typed.notListed
  notMap := fun _ _ => by rw [h.properties, Option.isSome_some]
  object := h.object.imp_right .inl

theorem entriesOf_eq (h : HasProperties members properties) : entriesOf (.object members) =
    Schema.requiredNames (lookup? "required" members) >>= fun required =>
      properties.mapM (entryOf required) := by
  have hproperties : (((lookup? "properties" members).getD .null).orElse (.object [])).members =
      .ok properties := by
    rw [h.properties, Option.getD_some, Json.orElse_object]
    rfl
  rw [Definition.entriesOf_eq, hproperties]
  rfl

/-- An object type has the members of the interface. -/
theorem resolveRecord_eq (h : HasProperties members properties) : Schema.resolveRecord members =
    (entriesOf (.object members)).map fun entries => .record (entries.map (·.member)) := by
  rw [h.entriesOf_eq, Schema.resolveRecord_eq h.properties]
  cases Schema.requiredNames (lookup? "required" members) with
  | error misuse => rfl
  | ok required =>
    change (Schema.resolveProperties required properties).map TypeExpr.record = Except.map _ _
    rw [← map_mapM_entryOf]
    change _ = Except.map _ (properties.mapM (entryOf required))
    cases properties.mapM (entryOf required) <;> rfl

/-- Without an `allOf` an interface has its own members only. -/
theorem body_eq (h : HasProperties members properties) :
    body (.object members) = (entriesOf (.object members)).map fun entries => ⟨[], entries⟩ := by
  have hnone : (Json.object members).member? "allOf" = .ok none :=
    congrArg Except.ok h.typed.notCombined
  unfold body
  rw [hnone]
  cases entriesOf (.object members) <;> rfl

/-- The members of the interface have the names of the properties. -/
theorem names_namedFields (h : HasProperties members properties) {named : List (Member TypeExpr)}
    (hnamed : namedFields (.object members) = .ok named) :
    named.map (·.name) = Json.names properties := by
  obtain ⟨entries, hentries, rfl⟩ := map_eq_ok.mp hnamed
  rw [h.entriesOf_eq] at hentries
  obtain ⟨required, -, hentries⟩ := bind_eq_ok.mp hentries
  rw [List.map_map]
  exact names_of_mapM_entryOf hentries

theorem resolve_eq (h : HasProperties members properties) (hclosed : IsClosed members) :
    Schema.resolve (.object members) =
      (entriesOf (.object members)).map fun entries => .record (entries.map (·.member)) := by
  rw [Schema.resolve_members h.typed h.isObject hclosed, h.properties,
    Option.isSome_some, if_pos rfl, h.resolveRecord_eq]

/-- With values of any key a schema is a map where it stands inline. -/
theorem inlineFields_of_not_isClosed (h : HasProperties members properties)
    (hopen : ¬ IsClosed members)
    {inline : List (Member TypeExpr)} (hinline : inlineFields (.object members) = .ok inline) :
    inline = [] := by
  obtain ⟨additional, hadditional⟩ := not_forall.mp hopen
  rw [inlineFields, Schema.resolve_map h.typed h.isObject (not_not.mp hadditional)] at hinline
  obtain ⟨type, htype, rfl⟩ := map_eq_ok.mp hinline
  obtain ⟨value, -, rfl⟩ := map_eq_ok.mp htype
  rfl

theorem inlineFields_eq (h : HasProperties members properties) (hclosed : IsClosed members) :
    inlineFields (.object members) = namedFields (.object members) := by
  rw [inlineFields, namedFields, h.resolve_eq hclosed]
  cases entriesOf (.object members) <;> rfl

end HasProperties

/-- **A schema is printed with the same members inline and under a name,** unless it has
properties and says what its values are whatever their keys: then its properties are
missing where it stands inline. -/
theorem inBothPlaces_of_hasProperties (h : HasProperties members properties) :
    InBothPlaces members properties := by
  constructor
  case inlineText =>
    intro type hclosed htype
    rw [h.resolve_eq hclosed] at htype
    obtain ⟨entries, -, rfl⟩ := map_eq_ok.mp htype
    exact congrArg (fun texts => "\x7b" ++ "; ".intercalate texts ++ "\x7d")
      (TypeExpr.memberTexts_eq_map _)
  case namedText =>
    intro name
    rw [declaration_eq h.isInterfaceLike, h.body_eq]
    cases entriesOf (.object members) <;> rfl
  case same => exact h.inlineFields_eq
  case hidden => exact fun hopen _ => h.inlineFields_of_not_isClosed hopen
  case complete => exact fun _ => h.names_namedFields
  case same_iff =>
    intro inline named hinline hnamed
    by_cases hclosed : IsClosed members
    · have hsame := hinline.symm.trans ((h.inlineFields_eq hclosed).trans hnamed)
      exact iff_of_true (Except.ok.inj hsame) (.inl hclosed)
    · -- nothing is printed inline, and a member for each property under the name
      have hnames : named = [] ↔ properties = [] := by
        rw [← List.map_eq_nil_iff (f := fun field : Member TypeExpr => field.name),
          h.names_namedFields hnamed]
        exact List.map_eq_nil_iff
      rw [h.inlineFields_of_not_isClosed hclosed hinline, or_iff_right hclosed, eq_comm, hnames]

end

/-- A schema with a property, and with values of any other key. -/
def labels : List (String × Json) :=
  [("type", .string "object"),
    ("properties", .object [("id", .object [("type", .string "string")])]),
    ("additionalProperties", .object [("type", .string "string")])]

/-- As a definition `labels` has the member `id`; inline it is a map, which has no members. -/
theorem not_same_labels :
    declaration "Labels" (.object labels) =
      .ok "export interface Labels \x7b\n  id?: string;\n\x7d" ∧
      (∃ type, Schema.resolve (.object labels) = .ok type ∧
        type.text = "\x7b[key: string]: string\x7d") ∧
      inlineFields (.object labels) ≠ namedFields (.object labels) := by
  have hlabels : HasProperties labels [("id", .object [("type", .string "string")])] :=
    ⟨⟨rfl, rfl, rfl⟩, .inr rfl, rfl⟩
  have hstring : Schema.resolve (.object [("type", .string "string")]) = .ok .string :=
    Schema.resolve_basic ⟨rfl, rfl, rfl⟩ rfl (by decide) rfl
  have hid : entryOf [] ("id", .object [("type", .string "string")]) =
      .ok ⟨describe (.object [("type", .string "string")]), ⟨"id", true, .string⟩⟩ :=
    bind_eq_ok.mpr ⟨_, hstring, rfl⟩
  have hentries := hlabels.entriesOf_eq.trans
    (bind_eq_ok.mpr ⟨[], rfl, mapM_eq_ok.mpr (.cons hid .nil)⟩)
  -- inline, the type of the values comes first, and the properties are not looked at
  have hadditional : lookup? "additionalProperties" labels =
      some (.object [("type", .string "string")]) := rfl
  have hmap : Schema.resolve (.object labels) = .ok (.map .string) := by
    rw [Schema.resolve_map hlabels.typed hlabels.isObject hadditional, hstring]
    rfl
  have hplaces := inBothPlaces_of_hasProperties hlabels
  refine ⟨?_, ⟨_, hmap, by decide +kernel⟩, fun hsame => ?_⟩
  · rw [hplaces.namedText, hentries]
    exact congrArg Except.ok (by decide +kernel)
  · have hinline : inlineFields (.object labels) = .ok [] := by rw [inlineFields, hmap]; rfl
    have hagree := (hplaces.same_iff _ _ hinline (hsame ▸ hinline)).mp rfl
    rcases hagree with hclosed | hnone
    · exact hclosed _ rfl
    · cases hnone

end ApiClient.Definition
