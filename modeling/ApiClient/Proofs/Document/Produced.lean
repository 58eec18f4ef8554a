import ApiClient.Proofs.Document.Structure
import ApiClient.Proofs.Json.Writable

/-!
# Documents as they are produced

For a document of the shape in which it is produced, replacing pieces of its compact text comes to
the same as taking the placeholders out of its value.
-/

namespace ApiClient.Document

open Json
open Written (nameOf Once Tight memberValue memberValue_eq)

/-- A document as it is produced: no name stands twice or has a quote in it, every definition is an
object, only definitions look like placeholders, and a reference to one of them stands alone. -/
structure ProducerShaped (document : Json) : Prop where
  once : document.NamesOnce
  unquoted : document.Everywhere fun members => ∀ name ∈ names members, '"' ∉ name.toList
  objects : DefinesObjects document
  defined :
      EverywhereUndefined (fun members => ∀ entry ∈ members, isPlaceholder entry = false) document
  alone : document.Everywhere fun members =>
    ∀ entry ∈ members, refersTo (placeholderNames document) entry = true → members = [entry]

/-- A reference stands alone among members if it is the only one of them. -/
theorem alone_iff {defined : List String} {members : List (String × Json)} :
    (members.length = 1 ∨ ∀ entry ∈ members, refersTo defined entry = false) ↔
      ∀ entry ∈ members, refersTo defined entry = true → members = [entry] := by
  constructor
  · rintro (hone | hnone) entry hentry hrefers
    · obtain ⟨only, rfl⟩ := List.length_eq_one_iff.mp hone
      rw [List.mem_singleton.mp hentry]
    · rw [hnone entry hentry] at hrefers
      cases hrefers
  · intro halone
    by_cases hnone : ∀ entry ∈ members, refersTo defined entry = false
    · exact .inr hnone
    · obtain ⟨entry, hnot⟩ := not_forall.mp hnone
      obtain ⟨hentry, hrefers⟩ := Classical.not_imp.mp hnot
      left
      rw [halone entry hentry (by simpa using hrefers), List.length_singleton]

instance (defined : List String) : DecidablePred fun members : List (String × Json) =>
    ∀ entry ∈ members, refersTo defined entry = true → members = [entry] :=
  fun _ => decidable_of_iff _ alone_iff

/-- A definition of a document is one of the members that are written under its definitions. -/
theorem definition_of_mem {padding : Padding} {inner : Blanks} {members : List (Name × Written)}
    (honce : (Written.object padding inner members).Every Once) {entry : String × Json}
    (h : entry ∈ definitionsOf (Written.object padding inner members).value) :
    ∃ member ∈ members, nameOf member = "definitions" ∧ ∃ padding inner definitions,
      member.2 = .object padding inner definitions ∧
        ∃ definition ∈ definitions, memberValue definition = entry := by
  rw [Written.value_object honce.here, definitionsOf] at h
  split at h
  · rename_i definitions hlookup
    obtain ⟨member, hmember, hvalue⟩ := List.mem_map.mp (mem_of_lookup?_eq_some hlookup)
    rw [memberValue_eq] at hvalue
    obtain ⟨hname, hobject⟩ := Prod.mk.inj hvalue
    -- what the name `definitions` stands for is written as an object
    obtain ⟨padding, inner, written, hwritten⟩ := object_of_value hobject
    have hinside := honce.inside member hmember
    rw [hwritten] at hinside
    rw [hwritten, Written.value_object hinside.here] at hobject
    rw [← Json.object.inj hobject] at h
    obtain ⟨definition, hdefinition, he⟩ := List.mem_map.mp h
    exact ⟨member, hmember, hname, padding, inner, written, hwritten, definition, hdefinition, he⟩
  · exact absurd h List.not_mem_nil

/-- The definitions that are placeholders are those that are found. -/
theorem mem_placeholderNames {written : Written} (htight : Tight written)
    (honce : written.Every Once) (hfree : EveryUndefined Free written) (name : String) :
    name ∈ placeholderNames written.value ↔
      ∃ placeholder ∈ found written, placeholder.name = name := by
  cases written with
  | scalar padding token =>
    have hnone : definitionsOf (Written.scalar padding token).value = [] := by
      have hscalar : isScalar (Written.scalar padding token).value = true := token.isScalar_value
      cases hvalue : (Written.scalar padding token).value with
      | object =>
        rw [hvalue] at hscalar
        cases hscalar
      | _ => rfl
    rw [placeholderNames, hnone]
    exact ⟨fun h => absurd h List.not_mem_nil, fun ⟨_, h, _⟩ => absurd h List.not_mem_nil⟩
  | array padding inner items =>
    have hfound : found (.array padding inner items) = [] := found_of_free hfree
    have hnone : definitionsOf (Written.array padding inner items).value = [] := by
      rw [Written.value_array]
      rfl
    rw [placeholderNames, hnone, hfound]
    exact ⟨fun h => absurd h List.not_mem_nil, fun ⟨_, h, _⟩ => absurd h List.not_mem_nil⟩
  | object padding inner members =>
    constructor
    · intro h
      obtain ⟨entry, hentry, rfl⟩ := List.mem_map.mp h
      obtain ⟨hmem, hplaceholder⟩ := List.mem_filter.mp hentry
      obtain ⟨placeholder, hproper, rfl⟩ := isPlaceholder_iff.mp hplaceholder
      obtain ⟨member, hmember, -, padding', inner', definitions, hwritten, definition, hdefinition,
        hvalue⟩ := definition_of_mem honce hmem
      -- the definition is tight, so that it has the text of the placeholder
      have htightInside := htight.inside member hmember
      have honceInside := honce.inside member hmember
      have hknown := (known_found (.object padding inner members)).inside member hmember
      rw [hwritten] at htightInside honceInside hknown
      have hsome := (placeholder?_iff (tightMember_of_mem htightInside definition hdefinition)
        (honceInside.inside definition hdefinition)).mpr ⟨hproper, hvalue⟩
      exact ⟨placeholder, hknown.here definition hdefinition placeholder hsome, rfl⟩
    · rintro ⟨placeholder, hmem, rfl⟩
      obtain ⟨member, hmember, hname, padding', inner', definitions, hwritten, definition,
        hdefinition, hsome⟩ := defined_of_mem_found hfree hmem
      obtain ⟨hproper, hcore⟩ := placeholder?_eq_some.mp hsome
      have hvalue := memberValue_of_text hproper hcore
      have honceInside := honce.inside member hmember
      rw [hwritten] at honceInside
      have hentry : (placeholder.name, placeholder.object) ∈
          (definitionsOf (Written.object padding inner members).value).filter isPlaceholder := by
        rw [definitionsOf_object honce.here hmember hname hwritten honceInside.here, ← hvalue]
        refine List.mem_filter.mpr ⟨List.mem_map_of_mem hdefinition, ?_⟩
        exact isPlaceholder_of_text hsome
      exact List.mem_map.mpr ⟨_, hentry, rfl⟩

/-- The members of a document as it is produced can be edited by their values. -/
theorem clean_of_produced {written : Written} (honce : written.Every Once)
    {placeholders : List Placeholder} {defined : List String}
    (hproper : ∀ placeholder ∈ placeholders, placeholder.Proper)
    (hdefined : ∀ name, name ∈ defined ↔ ∃ placeholder ∈ placeholders, placeholder.name = name)
    (hunquoted : written.value.Everywhere fun members => ∀ name ∈ names members, '"' ∉ name.toList)
    (halone : written.value.Everywhere fun members =>
      ∀ entry ∈ members, refersTo defined entry = true → members = [entry]) :
    written.Every (Clean placeholders) := by
  have hall :=
    honce.and ((every_of_everywhere honce hunquoted).and (every_of_everywhere honce halone))
  refine hall.mono fun members h => ?_
  obtain ⟨honce, hunquoted, halone⟩ := h
  refine ⟨honce, fun member hmember => ?_, fun member hmember href => ?_⟩
  · rw [Written.names_memberValues] at hunquoted
    exact hunquoted _ (List.mem_map_of_mem hmember)
  · obtain ⟨placeholder, hmem, hvalue⟩ := memberValue_of_mem_references hproper href
    -- a reference to a placeholder is one to a defined name, and that stands alone
    have hrefers : refersTo defined (memberValue member) = true :=
      refersTo_iff.mpr ⟨placeholder.name, (hdefined _).mpr ⟨placeholder, hmem, rfl⟩, hvalue⟩
    have hone := halone _ (List.mem_map_of_mem hmember) hrefers
    obtain ⟨other, others, rfl, -, hothers⟩ := List.map_eq_cons_iff.mp hone
    obtain rfl := List.map_eq_nil_iff.mp hothers
    rw [List.mem_singleton.mp hmember]

section

variable {placeholders : List Placeholder} {defined : List String}
  (hproper : ∀ placeholder ∈ placeholders, placeholder.Proper)
  (hdefined : ∀ name, name ∈ defined ↔ ∃ placeholder ∈ placeholders, placeholder.name = name)

include hproper hdefined

/-- The member of a document under which its definitions stand can be edited, and is left
without the placeholders in it. -/
theorem definitions_of_produced {member : Name × Written} (htight : TightMember member)
    (hquote : '"' ∉ (nameOf member).toList) (hclean : member.2.Every (Clean placeholders))
    (hfree : EveryInside Free member.2)
    (hobjects : ∀ padding inner definitions, member.2 = .object padding inner definitions →
      ∀ definition ∈ definitions, ∃ entries, definition.2.value = .object entries)
    (hfound : ∀ padding inner definitions, member.2 = .object padding inner definitions →
      StandAmong placeholders defined definitions) :
    Orderly placeholders member ∧ Ready placeholders member.2 ∧
      (normalise placeholders member.2).value =
        inline defined (withoutMembers defined member.2.value) := by
  -- what is no object has no definitions to leave out
  have hplain : member.2.Every Free → withoutMembers defined member.2.value = member.2.value →
      Orderly placeholders member ∧ Ready placeholders member.2 ∧
        (normalise placeholders member.2).value =
          inline defined (withoutMembers defined member.2.value) := by
    intro hfree hsame
    rw [hsame]
    exact ⟨orderly_of_tight htight hquote (steady_of_free hproper hdefined htight hclean hfree),
      ready_of_free hproper hdefined htight.2 hclean hfree,
      value_normalise hproper hdefined htight.2 hclean hfree⟩
  cases hwritten : member.2 with
  | scalar padding token =>
    rw [hwritten] at hplain hfree
    exact hplain hfree (withoutMembers_scalar token.isScalar_value)
  | array padding inner items =>
    rw [hwritten] at hplain hfree
    refine hplain hfree ?_
    rw [Written.value_array, withoutMembers_array]
  | object padding inner definitions =>
    have hinside := htight.2
    rw [hwritten] at hclean hfree hinside
    have hready := ready_definitions hproper hdefined htight hquote hwritten hclean hfree
      (hobjects padding inner definitions hwritten)
    exact ⟨hready.1, hready.2, value_normalise_definitions hproper hdefined hinside hclean hfree
      (hfound padding inner definitions hwritten)⟩

/-- Every member at the top of a document as it is produced can be edited, and what is left of
it is the member without placeholders. -/
theorem member_of_produced {padding : Padding} {inner : Blanks} {members : List (Name × Written)}
    (htight : Tight (.object padding inner members))
    (hclean : (Written.object padding inner members).Every (Clean placeholders))
    (hfree : EveryUndefined Free (.object padding inner members))
    (hobjects : DefinesObjects (Written.object padding inner members).value)
    (hfound : StandDefined placeholders defined members)
    {member : Name × Written} (hmember : member ∈ members) :
    Orderly placeholders member ∧ Ready placeholders member.2 ∧
      left placeholders member =
        inlineMember defined (withoutDefined defined (memberValue member)) := by
  have hmemberTight := tightMember_of_mem htight member hmember
  have hquote := hclean.here.unquoted member hmember
  have hcleanInside := hclean.inside member hmember
  have hfreeInside := hfree.2 member hmember
  rw [memberValue_eq, withoutDefined]
  by_cases hname : nameOf member = "definitions"
  · rw [if_pos hname] at hfreeInside
    have hobjectsInside : ∀ padding inner definitions,
        member.2 = .object padding inner definitions →
        ∀ definition ∈ definitions, ∃ entries, definition.2.value = .object entries := by
      intro padding inner definitions hwritten definition hdefinition
      rw [hwritten] at hcleanInside
      rw [DefinesObjects, definitionsOf_object hclean.here.once hmember hname hwritten
        hcleanInside.here.once] at hobjects
      have hobject := hobjects _ (List.mem_map_of_mem hdefinition)
      rw [memberValue_eq] at hobject
      exact hobject
    obtain ⟨horderly, hready, hvalue⟩ :=
      definitions_of_produced hproper hdefined hmemberTight hquote
      hcleanInside hfreeInside hobjectsInside (hfound member hmember hname)
    refine ⟨horderly, hready, ?_⟩
    -- the member that holds the definitions is no reference
    have href : memberCore member ∉ references placeholders := by
      intro href
      obtain ⟨_, -, he⟩ := memberValue_of_mem_references hproper href
      rw [memberValue_eq, hname] at he
      exact absurd (Prod.mk.inj he).1 (by decide)
    have hrefers :
        ¬ refersTo defined (nameOf member, withoutMembers defined member.2.value) = true := by
      rw [refersTo_iff]
      rintro ⟨name, -, he⟩
      rw [hname] at he
      exact absurd (Prod.mk.inj he).1 (by decide)
    dsimp only
    rw [left, if_neg href, if_pos hname, inlineMember, if_neg hrefers, hvalue]
  · rw [if_neg hname] at hfreeInside
    refine ⟨orderly_of_tight hmemberTight hquote
        (steady_of_free hproper hdefined hmemberTight hcleanInside hfreeInside),
      ready_of_free hproper hdefined hmemberTight.2 hcleanInside hfreeInside, ?_⟩
    dsimp only
    rw [if_neg hname, left_eq hproper hdefined hmemberTight
      (value_normalise hproper hdefined hmemberTight.2 hcleanInside hfreeInside), memberValue_eq]

end

/-- Replacing pieces of the text of a compact document comes to the same as taking the placeholders
out of its value. -/
theorem read_withoutPlaceholders_of_tight {written : Written} (htight : Tight written)
    (honce : written.Every Once) (hshape : ProducerShaped written.value) :
    Json.read (withoutPlaceholders written.text) =
      .ok (withoutPlaceholderDefinitions written.value) := by
  have hproper : ∀ placeholder ∈ found written, placeholder.Proper := proper_of_mem_found
  -- outside of the definitions there is no placeholder, since no value is one
  have hfree : EveryUndefined Free written := by
    refine (everyUndefined_of_everywhere honce hshape.defined).mono fun members hnone => ?_
    intro member hmember
    cases hplaceholder : placeholder? member with
    | none => rfl
    | some placeholder =>
      have hsome := isPlaceholder_of_text hplaceholder
      rw [hnone _ (List.mem_map_of_mem hmember)] at hsome
      cases hsome
  have hdefined := mem_placeholderNames htight honce hfree
  have hclean := clean_of_produced honce hproper hdefined hshape.unquoted hshape.alone
  cases written with
  | scalar padding token =>
    have hscalar : isScalar (Written.scalar padding token).value = true := token.isScalar_value
    rw [read_withoutPlaceholders .scalar, withoutPlaceholderDefinitions,
      withoutDefinitions_scalar hscalar, inline_scalar hscalar]
    rfl
  | array padding inner items =>
    rw [read_withoutPlaceholders (ready_of_free hproper hdefined htight hclean hfree),
      value_normalise hproper hdefined htight hclean hfree, withoutPlaceholderDefinitions,
      withoutDefinitions_array]
  | object padding inner members =>
    have hfound : StandDefined (found (.object padding inner members))
        (placeholderNames (Written.object padding inner members).value) members :=
      standDefined_found honce.here hfree fun name => (hdefined name).mp
    -- member by member; only the definitions lose some of theirs
    have hmember := fun member (hmember : member ∈ members) =>
      member_of_produced hproper hdefined htight hclean hfree hshape.objects hfound hmember
    have hready : Ready (found (.object padding inner members)) (.object padding inner members) :=
      .object (fun member h => (hmember member h).1) fun member h => (hmember member h).2.1
    rw [read_withoutPlaceholders hready, value_normalise_object, entriesOf_eq hclean.here,
      filter_spared_of_free hproper hfree.1, withoutPlaceholderDefinitions,
      Written.value_object honce.here, withoutDefinitions, inline_object,
      List.map_map, List.map_map]
    refine congrArg (fun entries => Except.ok (Json.object entries))
      (List.map_congr_left fun member h => ?_)
    rw [(hmember member h).2.2, Written.value_object honce.here]
    rfl

/--
**Editing a text is editing its value.** For a document of the shape in which it is produced,
what is left of its compact text is JSON again, and it has the value of the document without the
placeholders among its definitions and with plain types in the place of references to them.
-/
theorem read_withoutPlaceholders_compact {document : Json} (hwritable : document.Writable)
    (hshape : ProducerShaped document) :
    Json.read (withoutPlaceholders (compact document)) =
      .ok (withoutPlaceholderDefinitions document) := by
  obtain ⟨written, hwrites⟩ := exists_writes hwritable hshape.once
  rw [← hwrites.value] at hshape
  rw [← hwrites.text, read_withoutPlaceholders_of_tight hwrites.tight hwrites.once hshape,
    hwrites.value]

/-- A document with a placeholder, a reference to it and a number. -/
def producedDocument : Json :=
  .object [
    ("swagger", .string "2.0"),
    ("definitions", .object [
      ("Map«object»", .object [("type", .string "object"), ("title", .string "Map«object»")]),
      ("Pet", .object [
        ("type", .string "object"),
        ("properties", .object [
          ("tags", .object [("$ref", .string "#/definitions/Map«object»")]),
          ("weight", .object [("type", .string "number"),
            ("minimum", .double (.finite false 6755399441055744 (-52)))])])])])]

/-- That document without the placeholder and the reference. -/
def cleanedDocument : Json :=
  .object [
    ("swagger", .string "2.0"),
    ("definitions", .object [
      ("Pet", .object [
        ("type", .string "object"),
        ("properties", .object [
          ("tags", .object [("type", .string "object")]),
          ("weight", .object [("type", .string "number"),
            ("minimum", .double (.finite false 6755399441055744 (-52)))])])])])]

theorem read_withoutPlaceholders_producedDocument :
    Json.read (withoutPlaceholders (compact producedDocument)) = .ok cleanedDocument := by
  have hnumber : Binary64.Normal 6755399441055744 (-52) :=
    ⟨by decide, by decide, by decide, by decide, fun _ => by decide⟩
  have hwritable : producedDocument.Writable := by
    simp [producedDocument, Binary64.Canonical, hnumber]
  have hshape : ProducerShaped producedDocument :=
    ⟨by decide, by decide, by decide, by decide, by decide⟩
  have hcleaned : withoutPlaceholderDefinitions producedDocument = cleanedDocument := rfl
  rw [← hcleaned]
  exact read_withoutPlaceholders_compact hwritable hshape

end ApiClient.Document
