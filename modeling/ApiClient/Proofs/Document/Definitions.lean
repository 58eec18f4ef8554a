import ApiClient.Proofs.Document.Entries

/-!
# The definitions of a document

The definitions stand in one member at the top of a document. Here are the
definitions of a value, a document without some of them, and what a written value is
that is read as a text or an object.
-/

namespace ApiClient.Document

open Json
open Written (nameOf Once memberValue memberValue_eq)

/-- The definitions at the top of a document. -/
def definitionsOf : Json → List (String × Json)
  | .object members =>
    match lookup? "definitions" members with
    | some (.object definitions) => definitions
    | _ => []
  | _ => []

/-- Every definition at the top of a document is an object. -/
def DefinesObjects (document : Json) : Prop :=
  ∀ entry ∈ definitionsOf document, ∃ entries, entry.2 = .object entries

instance (value : Json) : Decidable (∃ entries, value = .object entries) :=
  match value with
  | .object entries => .isTrue ⟨entries, rfl⟩
  | .null | .bool _ | .int _ | .double _ | .string _ | .array _ =>
    .isFalse fun ⟨_, h⟩ => Json.noConfusion h

instance (document : Json) : Decidable (DefinesObjects document) :=
  inferInstanceAs (Decidable (∀ entry ∈ definitionsOf document, _))

/-- An object without the members of some names. -/
def withoutMembers (dropped : List String) : Json → Json
  | .object members => .object (members.filter (·.1 ∉ dropped))
  | value => value

/-- A member of a document; if it holds the definitions, without some of them. -/
def withoutDefined (dropped : List String) (entry : String × Json) : String × Json :=
  (entry.1, if entry.1 = "definitions" then withoutMembers dropped entry.2 else entry.2)

/-- A document without some of its definitions. -/
def withoutDefinitions (dropped : List String) : Json → Json
  | .object members => .object (members.map (withoutDefined dropped))
  | value => value

variable {placeholders : List Placeholder} {dropped : List String}

theorem object_of_withoutMembers {value : Json} {text : String} :
    withoutMembers dropped value = .string text ↔ value = .string text := by
  cases value with
  | object members => exact ⟨fun h => Json.noConfusion h, fun h => Json.noConfusion h⟩
  | _ => exact Iff.rfl

theorem withoutMembers_scalar {value : Json} (h : isScalar value = true) :
    withoutMembers dropped value = value := by
  cases value with
  | object members => cases h
  | _ => rfl

theorem withoutMembers_array (items : List Json) :
    withoutMembers dropped (.array items) = .array items := rfl

theorem withoutDefinitions_scalar {value : Json} (h : isScalar value = true) :
    withoutDefinitions dropped value = value := by
  cases value with
  | object members => cases h
  | _ => rfl

theorem withoutDefinitions_array (padding : Padding) (inner : Blanks) (items : List Written) :
    withoutDefinitions dropped (Written.array padding inner items).value =
      (Written.array padding inner items).value := by
  rw [Written.value_array]
  rfl

/-- The member of a document that holds the definitions. -/
theorem definitionsOf_eq {padding : Padding} {inner : Blanks} {members : List (Name × Written)}
    (honce : Once members) {member : Name × Written} (hmember : member ∈ members)
    (hname : nameOf member = "definitions") :
    definitionsOf (Written.object padding inner members).value =
      match member.2.value with
      | .object definitions => definitions
      | _ => [] := by
  have hnames : (names (members.map memberValue)).Nodup := by
    rw [Written.names_memberValues]
    exact honce
  have hmem : ("definitions", member.2.value) ∈ members.map memberValue := by
    rw [← hname, ← memberValue_eq]
    exact List.mem_map_of_mem hmember
  rw [Written.value_object honce, definitionsOf, lookup?_of_mem hnames hmem]
  cases member.2.value <;> rfl

/-- The definitions of a document, where they are written as an object. -/
theorem definitionsOf_object {padding padding' : Padding} {inner inner' : Blanks}
    {members definitions : List (Name × Written)} (honce : Once members) {member : Name × Written}
    (hmember : member ∈ members) (hname : nameOf member = "definitions")
    (hwritten : member.2 = .object padding' inner' definitions) (hinside : Once definitions) :
    definitionsOf (Written.object padding inner members).value = definitions.map memberValue := by
  rw [definitionsOf_eq honce hmember hname, hwritten, Written.value_object hinside]

/-! ## Values as they are written -/

/-- A text is written as a value without parts. -/
theorem scalar_of_value {written : Written} {text : String} (h : written.value = .string text) :
    ∃ padding token, written = .scalar padding token := by
  cases written with
  | scalar padding token => exact ⟨padding, token, rfl⟩
  | array padding inner items =>
    rw [Written.value_array] at h
    cases h
  | object padding inner members =>
    rw [Written.value_object_eq] at h
    cases h

theorem every_of_string {written : Written} {text : String} (h : written.value = .string text)
    (P : List (Name × Written) → Prop) : written.Every P := by
  obtain ⟨padding, token, rfl⟩ := scalar_of_value h
  exact .scalar

theorem normalise_of_string {written : Written} {text : String}
    (h : written.value = .string text) : normalise placeholders written = written := by
  obtain ⟨padding, token, rfl⟩ := scalar_of_value h
  rfl

/-- An object is written as an object. -/
theorem object_of_value {written : Written} {entries : List (String × Json)}
    (h : written.value = .object entries) :
    ∃ padding inner members, written = .object padding inner members := by
  cases written with
  | scalar padding token =>
    have hscalar : isScalar (Written.scalar padding token).value = true := token.isScalar_value
    rw [h] at hscalar
    cases hscalar
  | array padding inner items =>
    rw [Written.value_array] at h
    cases h
  | object padding inner members => exact ⟨padding, inner, members, rfl⟩

end ApiClient.Document
