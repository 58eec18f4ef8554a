import ApiClient.Proofs.Document.Frame

/-!
# Documents that lose nothing

What holds of single objects is put together for whole documents: everything but the definitions is
preserved just if no member outside them looks like a placeholder.
-/

namespace ApiClient.Document

open Json
open Written (nameOf Once memberValue memberValue_eq)

variable {placeholders : List Placeholder} {dropped : List String}

/-! ## Definitions alone -/

/-- Where no member is a placeholder, none is found. -/
theorem found_of_free {written : Written} (h : written.Every Free) : found written = [] := by
  induction written with
  | scalar => rfl
  | array padding inner items ih =>
    rw [found, foundItems_eq, List.flatMap_eq_nil_iff]
    exact fun item hitem => ih item hitem (h.items item hitem)
  | object padding inner members ih =>
    rw [found, foundMembers_eq, List.flatMap_eq_nil_iff]
    intro member hmember
    have hnone := h.here member hmember
    obtain ⟨name, value⟩ := member
    rw [foundMember, hnone]
    exact ih _ hmember (h.inside _ hmember)

theorem Known.mono {more : List Placeholder} (hsub : placeholders ⊆ more) {written : Written}
    (h : written.Every (Known placeholders)) : written.Every (Known more) :=
  h.mono fun _ hknown member hmember placeholder hsome =>
  hsub (hknown member hmember placeholder hsome)

/-- Every member that is a placeholder is found. -/
theorem known_found (written : Written) : written.Every (Known (found written)) := by
  induction written with
  | scalar => exact .scalar
  | array padding inner items ih =>
    refine .array fun item hitem => Known.mono (fun placeholder hmem => ?_) (ih item hitem)
    rw [found, foundItems_eq]
    exact List.mem_flatMap_of_mem hitem hmem
  | object padding inner members ih =>
    have hfound : ∀ member ∈ members,
        foundMember member ⊆ found (.object padding inner members) := by
      intro member hmember placeholder hmem
      rw [found, foundMembers_eq]
      exact List.mem_flatMap_of_mem hmember hmem
    refine .object (fun member hmember placeholder hsome => hfound member hmember ?_)
      fun member hmember => ?_
    · obtain ⟨name, value⟩ := member
      rw [foundMember, hsome]
      exact List.mem_cons_self
    · cases hplaceholder : placeholder? member with
      | none =>
        refine Known.mono (fun placeholder hmem => hfound member hmember ?_) (ih member hmember)
        obtain ⟨name, value⟩ := member
        rw [foundMember, hplaceholder]
        exact hmem
      | some placeholder =>
        -- in a placeholder there is no other
        obtain ⟨hproper, hcore⟩ := placeholder?_eq_some.mp hplaceholder
        have hone : ∀ other ∈ [placeholder], other.Proper := by
          intro other hother
          rw [List.mem_singleton.mp hother]
          exact hproper
        have htext : memberCore member ∈ texts [placeholder] := List.mem_singleton.mpr hcore
        refine (harmless_of_text hone htext).mono fun inside hharmless other hother _ hsome => ?_
        rw [hharmless.none other hother] at hsome
        cases hsome

section

variable (hproper : ∀ placeholder ∈ placeholders, placeholder.Proper)

include hproper

/-- A member that holds an object is no reference. -/
theorem not_mem_references_of_object {member : Name × Written} {entries : List (String × Json)}
    (h : member.2.value = .object entries) : memberCore member ∉ references placeholders := by
  intro href
  obtain ⟨_, -, hvalue⟩ := memberValue_of_mem_references hproper href
  rw [memberValue_eq, h] at hvalue
  cases (Prod.mk.inj hvalue).2

/-- What is left of definitions that are objects are objects. -/
theorem object_of_mem_entriesOf {definitions : List (Name × Written)}
    (hobjects : ∀ member ∈ definitions, ∃ entries, member.2.value = .object entries)
    {entry : String × Json} (h : entry ∈ entriesOf placeholders definitions) :
    ∃ member ∈ definitions, memberCore member ∉ texts placeholders ∧ nameOf member = entry.1 ∧
      entry.2 = (normalise placeholders member.2).value ∧ ∃ entries,
      entry.2 = .object entries := by
  obtain ⟨member, hmember, htext, ⟨href, rfl⟩ | ⟨-, rfl⟩⟩ := mem_entriesOf h
  · obtain ⟨entries, hvalue⟩ := hobjects member hmember
    exact absurd href (not_mem_references_of_object hproper hvalue)
  · obtain ⟨entries, hvalue⟩ := hobjects member hmember
    obtain ⟨padding, inner, inside, hwritten⟩ := object_of_value hvalue
    refine ⟨member, hmember, htext, rfl, rfl, entriesOf placeholders inside, ?_⟩
    show (normalise placeholders member.2).value = _
    rw [hwritten, value_normalise_object]

/-- Where the definitions that are not dropped are kept, everything in them was harmless. -/
theorem everyInside_of_keeps {definitions : List (Name × Written)} (honce : Once definitions)
    (hinside : ∀ member ∈ definitions, member.2.Every Once)
    (hknown : ∀ member ∈ definitions, member.2.Every (Known placeholders))
    (hobjects : ∀ member ∈ definitions, ∃ entries, member.2.value = .object entries)
    (h : Keeps dropped (withoutMembers dropped (.object (definitions.map memberValue)))
      (.object (entriesOf placeholders definitions))) :
    ∀ member ∈ definitions, member.2.Every (Harmless placeholders) := by
  intro member hmember
  obtain ⟨hkept, hnew⟩ := h.members
  obtain ⟨entries, hvalue⟩ := hobjects member hmember
  by_cases hdropped : nameOf member ∈ dropped
  · -- a definition that is dropped has left nothing, so that it was a placeholder
    by_contra hnot
    have htext : memberCore member ∉ texts placeholders := fun htext =>
      hnot (harmless_of_text hproper htext)
    have href := not_mem_references_of_object hproper hvalue
    obtain ⟨entry, hentry, hname⟩ := List.mem_map.mp (name_mem_entriesOf hmember htext href)
    rcases hnew entry hentry with hmem | rfl
    · obtain ⟨other, hother, he⟩ := List.mem_map.mp hmem
      have hspared := (List.mem_filter.mp hother).2
      rw [he, hname, decide_eq_true_eq] at hspared
      exact hspared hdropped
    · obtain ⟨_, -, -, -, -, _, he⟩ := object_of_mem_entriesOf hproper hobjects hentry
      cases he
  · have hmem : memberValue member ∈ (definitions.map memberValue).filter (·.1 ∉ dropped) := by
      refine List.mem_filter.mpr ⟨List.mem_map_of_mem hmember, ?_⟩
      rw [memberValue_eq, decide_eq_true_eq]
      exact hdropped
    have hone := hkept _ hmem
    rw [memberValue_eq] at hone
    obtain ⟨-, ⟨text, hstring⟩ | hkeeps⟩ :=
      keeps_of_keepsMember hproper honce hmember (fun _ => Iff.rfl) hone
    · exact every_of_string hstring _
    · exact harmless_of_keeps hproper (hinside member hmember) (hknown member hmember) hkeeps

/-- Where everything in the definitions is harmless and just the placeholders among them are
dropped, the others are kept. -/
theorem keeps_of_everyInside {definitions : List (Name × Written)} (honce : Once definitions)
    (hinside : ∀ member ∈ definitions, member.2.Every Once)
    (hobjects : ∀ member ∈ definitions, ∃ entries, member.2.value = .object entries)
    (hdropped : ∀ placeholder ∈ placeholders, placeholder.name ∈ dropped)
    (hdefined : StandAmong placeholders dropped definitions)
    (hharmless : ∀ member ∈ definitions, member.2.Every (Harmless placeholders)) :
    Keeps dropped (withoutMembers dropped (.object (definitions.map memberValue)))
      (.object (entriesOf placeholders definitions)) := by
  refine .object (fun entry hentry => ?_) fun entry hentry => .inl ?_
  · obtain ⟨hmem, hspared⟩ := List.mem_filter.mp hentry
    obtain ⟨member, hmember, rfl⟩ := List.mem_map.mp hmem
    rw [memberValue_eq, decide_eq_true_eq] at hspared
    -- a definition that is not left out is no placeholder, and has an entry of its own
    have htext : memberCore member ∉ texts placeholders := by
      intro htext
      obtain ⟨placeholder, hplaceholder, hvalue⟩ := memberValue_of_mem_texts hproper htext
      rw [memberValue_eq] at hvalue
      exact hspared ((Prod.mk.inj hvalue).1 ▸ hdropped placeholder hplaceholder)
    obtain ⟨entries, hvalue⟩ := hobjects member hmember
    have href := not_mem_references_of_object hproper hvalue
    obtain ⟨left, hmemLeft, hname⟩ := List.mem_map.mp (name_mem_entriesOf hmember htext href)
    obtain ⟨other, hother, -, hsame, hleft, -⟩ := object_of_mem_entriesOf hproper hobjects hmemLeft
    obtain rfl := honce.eq_of_name hother hmember (hsame.trans hname)
    have hkeeps :=
      keeps_of_harmless hproper hdropped (hinside other hother) (hharmless other hother)
    rw [← hleft] at hkeeps
    rw [memberValue_eq]
    refine .kept ?_ hkeeps
    rw [← hname]
    exact hmemLeft
  · obtain ⟨member, hmember, htext, hname, -, -⟩ := object_of_mem_entriesOf hproper hobjects hentry
    refine List.mem_map.mpr ⟨memberValue member,
      List.mem_filter.mpr ⟨List.mem_map_of_mem hmember, ?_⟩, ?_⟩
    · rw [memberValue_eq, decide_eq_true_eq]
      -- an entry that was left out would stand for a placeholder, and none is left
      intro hmem
      obtain ⟨other, hother, hsame, htext'⟩ := hdefined _ hmem
      rw [honce.eq_of_name hother hmember hsame] at htext'
      exact htext htext'
    · rw [memberValue_eq]
      exact hname

/-! ## Whole documents -/

/-- Whatever stands for the definitions, everything in it was harmless if what is left of it is
kept. -/
theorem everyInside_of_defined {written : Written} (honce : written.Every Once)
    (hknown : written.Every (Known placeholders))
    (hobjects : ∀ entries, written.value = .object entries →
      ∀ entry ∈ entries, ∃ inside, entry.2 = .object inside)
    (h : Keeps dropped (withoutMembers dropped written.value)
      (normalise placeholders written).value) :
    EveryInside (Harmless placeholders) written := by
  cases written with
  | scalar => exact .scalar
  | array padding inner items =>
    rw [Written.value_array, withoutMembers_array, ← Written.value_array padding inner] at h
    exact harmless_of_keeps hproper honce hknown h
  | object padding inner definitions =>
    have hvalue : (Written.object padding inner definitions).value = _ :=
      Written.value_object honce.here
    rw [hvalue, value_normalise_object] at h
    -- in an object of definitions every definition is an object
    refine everyInside_of_keeps hproper honce.here honce.inside hknown.inside
      (fun definition hdefinition => ?_) h
    have hobject := hobjects _ hvalue _ (List.mem_map_of_mem hdefinition)
    rw [memberValue_eq] at hobject
    exact hobject

omit hproper in
/-- Where a document defines objects, so does the member that holds the definitions. -/
theorem objects_of_definesObjects {padding : Padding} {inner : Blanks}
    {members : List (Name × Written)}
    (hobjects : DefinesObjects (Written.object padding inner members).value) (honce : Once members)
    {member : Name × Written} (hmember : member ∈ members)
    (hname : nameOf member = "definitions") :
    ∀ entries, member.2.value = .object entries → ∀ entry ∈ entries,
    ∃ inside, entry.2 = .object inside := by
  intro entries he
  rw [DefinesObjects, definitionsOf_eq honce hmember hname, he] at hobjects
  exact hobjects

/-- Members of a document that are kept were harmless, but that definitions may be placeholders. -/
theorem harmless_of_preserved {padding : Padding} {inner : Blanks}
    {members : List (Name × Written)} (honce : (Written.object padding inner members).Every Once)
    (hknown : (Written.object padding inner members).Every (Known placeholders))
    (hobjects : DefinesObjects (Written.object padding inner members).value)
    (h : Keeps dropped (withoutDefinitions dropped (Written.object padding inner members).value)
      (.object (entriesOf placeholders members))) :
    EveryUndefined (Harmless placeholders) (.object padding inner members) := by
  rw [Written.value_object honce.here, withoutDefinitions] at h
  obtain ⟨hmembers, -⟩ := h.members
  have hkept : ∀ member ∈ members, KeepsMember dropped (nameOf member,
      if nameOf member = "definitions" then withoutMembers dropped member.2.value
      else member.2.value) (entriesOf placeholders members) := by
    intro member hmember
    have hone := hmembers _ (List.mem_map_of_mem (List.mem_map_of_mem hmember))
    rw [memberValue_eq] at hone
    exact hone
  have hplain : ∀ member ∈ members, nameOf member ≠ "definitions" →
      KeepsMember dropped (memberValue member) (entriesOf placeholders members) := by
    intro member hmember hname
    have hone := hkept member hmember
    rw [if_neg hname] at hone
    rw [memberValue_eq]
    exact hone
  have hleft := fun member hmember => keeps_of_keepsMember hproper honce.here hmember
    (fun text => by split; exacts [object_of_withoutMembers, Iff.rfl]) (hkept member hmember)
  refine ⟨⟨fun member hmember => hknown.here.eq_none hmember (hleft member hmember).1, ?_⟩,
    fun member hmember => ?_⟩
  · intro member hmember href other hother hname
    obtain ⟨_, -, hvalue⟩ := memberValue_of_mem_references hproper href
    rw [memberValue_eq] at hvalue
    -- a reference and a type are called otherwise than the definitions
    have hmemberName : nameOf member ≠ "definitions" := by
      rw [(Prod.mk.inj hvalue).1]
      decide
    have hotherName : nameOf other ≠ "definitions" := by
      rw [hname]
      decide
    exact type_of_keepsMember hproper honce.here hmember href hname
      (hplain member hmember hmemberName) (hplain other hother hotherName)
  · have honceInside := honce.inside member hmember
    have hknownInside := hknown.inside member hmember
    rcases (hleft member hmember).2 with ⟨text, hstring⟩ | hkeeps
    · obtain ⟨padding, token, hscalar⟩ := scalar_of_value hstring
      rw [hscalar]
      split <;> exact .scalar
    · by_cases hname : nameOf member = "definitions"
      · rw [if_pos hname] at hkeeps ⊢
        exact everyInside_of_defined hproper honceInside hknownInside
          (objects_of_definesObjects hobjects honce.here hmember hname) hkeeps
      · rw [if_neg hname] at hkeeps ⊢
        exact harmless_of_keeps hproper honceInside hknownInside hkeeps

/-- Whatever stands for the definitions, what is left of it is kept if
everything in it is harmless. -/
theorem keeps_of_defined {written : Written} (honce : written.Every Once)
    (hobjects : ∀ entries, written.value = .object entries →
      ∀ entry ∈ entries, ∃ inside, entry.2 = .object inside)
    (hdropped : ∀ placeholder ∈ placeholders, placeholder.name ∈ dropped)
    (hdefined : ∀ padding inner definitions, written = .object padding inner definitions →
      StandAmong placeholders dropped definitions)
    (hharmless : EveryInside (Harmless placeholders) written) :
    Keeps dropped (withoutMembers dropped written.value)
      (normalise placeholders written).value := by
  -- only an object has members to lose
  cases written with
  | scalar padding token =>
    have hscalar : isScalar (Written.scalar padding token).value = true := token.isScalar_value
    rw [withoutMembers_scalar hscalar]
    exact .scalar hscalar
  | array padding inner items =>
    rw [Written.value_array, withoutMembers_array, ← Written.value_array padding inner]
    exact keeps_of_harmless hproper hdropped honce hharmless
  | object padding inner definitions =>
    have hvalue : (Written.object padding inner definitions).value = _ :=
      Written.value_object honce.here
    rw [hvalue, value_normalise_object]
    refine keeps_of_everyInside hproper honce.here honce.inside (fun definition hdefinition => ?_)
      hdropped (hdefined padding inner definitions rfl) hharmless
    have hobject := hobjects _ hvalue _ (List.mem_map_of_mem hdefinition)
    rw [memberValue_eq] at hobject
    exact hobject

end

/-- Where only definitions are placeholders, the placeholders that are found are definitions. -/
theorem defined_of_mem_found {padding : Padding} {inner : Blanks} {members : List (Name × Written)}
    (h : EveryUndefined Free (.object padding inner members))
    {placeholder : Placeholder} (hmem : placeholder ∈ found (.object padding inner members)) :
    ∃ member ∈ members, nameOf member = "definitions" ∧ ∃ padding inner definitions,
      member.2 = .object padding inner definitions ∧
        ∃ definition ∈ definitions, placeholder? definition = some placeholder := by
  obtain ⟨hhere, hinside⟩ := h
  rw [found, foundMembers_eq] at hmem
  obtain ⟨member, hmember, hmem⟩ := List.mem_flatMap.mp hmem
  -- none is a member of the document itself, so it was found inside of one
  have hnone := hhere member hmember
  have hmemberInside := hinside member hmember
  obtain ⟨name, written⟩ := member
  rw [foundMember, hnone] at hmem
  by_cases hname : nameOf (name, written) = "definitions"
  · rw [if_pos hname] at hmemberInside
    cases written with
    | scalar => exact absurd hmem List.not_mem_nil
    | array padding inner items =>
      have hnothing : found (.array padding inner items) = [] := found_of_free hmemberInside
      rw [show found _ = [] from hnothing] at hmem
      exact absurd hmem List.not_mem_nil
    | object padding inner definitions =>
      refine ⟨_, hmember, hname, padding, inner, definitions, rfl, ?_⟩
      have hmem : placeholder ∈ foundMembers definitions := hmem
      rw [foundMembers_eq] at hmem
      obtain ⟨definition, hdefinition, hmem⟩ := List.mem_flatMap.mp hmem
      refine ⟨definition, hdefinition, ?_⟩
      have hnothing := found_of_free (hmemberInside definition hdefinition)
      obtain ⟨name, written⟩ := definition
      rw [foundMember] at hmem
      cases hplaceholder : placeholder? (name, written) with
      | some other =>
        rw [hplaceholder] at hmem
        rw [List.mem_singleton.mp hmem]
      | none =>
        rw [hplaceholder] at hmem
        rw [show found written = [] from hnothing] at hmem
        exact absurd hmem List.not_mem_nil
  · rw [if_neg hname] at hmemberInside
    rw [show found written = [] from found_of_free hmemberInside] at hmem
    exact absurd hmem List.not_mem_nil

/-- Where only definitions are placeholders, the names of those that are found
stand among the definitions. -/
theorem standDefined_found {padding : Padding} {inner : Blanks} {members : List (Name × Written)}
    (honce : Once members) (h : EveryUndefined Free (.object padding inner members))
    (hdropped : ∀ name ∈ dropped, ∃ placeholder ∈ found (.object padding inner members),
      placeholder.name = name) :
    StandDefined (found (.object padding inner members)) dropped members := by
  intro member hmember hname padding' inner' definitions hwritten name hmem
  obtain ⟨placeholder, hplaceholder, rfl⟩ := hdropped name hmem
  obtain ⟨other, hother, hname', _, _, definitions', hwritten', definition, hdefinition, hsome⟩ :=
    defined_of_mem_found h hplaceholder
  -- there is one member of this name, so the definitions are the same
  obtain rfl := honce.eq_of_name hother hmember (hname'.trans hname.symm)
  rw [hwritten] at hwritten'
  cases hwritten'
  obtain ⟨hone, hcore⟩ := placeholder?_eq_some.mp hsome
  have hvalue := memberValue_of_text hone hcore
  rw [memberValue_eq] at hvalue
  exact ⟨definition, hdefinition, (Prod.mk.inj hvalue).1,
    List.mem_map.mpr ⟨placeholder, hplaceholder, hcore.symm⟩⟩

/-- The definitions of a document have the names of the placeholders that are found. -/
theorem name_mem_definitions {padding : Padding} {inner : Blanks} {members : List (Name × Written)}
    (honce : (Written.object padding inner members).Every Once)
    (h : EveryUndefined Free (.object padding inner members)) {name : String}
    (hmem : name ∈ (found (.object padding inner members)).map Placeholder.name) :
    name ∈ names (definitionsOf (Written.object padding inner members).value) := by
  obtain ⟨placeholder, hplaceholder, rfl⟩ := List.mem_map.mp hmem
  obtain ⟨member, hmember, hname, padding', inner', definitions, hwritten, -⟩ :=
    defined_of_mem_found h hplaceholder
  obtain ⟨definition, hdefinition, hsame, -⟩ :=
    standDefined_found honce.here h (fun _ =>
      List.mem_map.mp) member hmember hname _ _ _ hwritten _ hmem
  have hinside := honce.inside member hmember
  rw [hwritten] at hinside
  rw [definitionsOf_object honce.here hmember hname hwritten hinside.here,
    Written.names_memberValues, ← hsame]
  exact List.mem_map_of_mem hdefinition

/-- Where everything but the definitions is harmless, all else is kept. -/
theorem keeps_withoutDefinitions (hproper : ∀ placeholder ∈ placeholders, placeholder.Proper)
    {padding : Padding} {inner : Blanks} {members : List (Name × Written)}
    (honce : (Written.object padding inner members).Every Once)
    (hobjects : DefinesObjects (Written.object padding inner members).value)
    (hdefined : StandDefined placeholders (placeholders.map Placeholder.name) members)
    (h : EveryUndefined (Harmless placeholders) (.object padding inner members)) :
    Keeps (placeholders.map Placeholder.name)
      (withoutDefinitions (placeholders.map Placeholder.name)
        (Written.object padding inner members).value)
      (normalise placeholders (.object padding inner members)).value := by
  have hdropped : ∀ placeholder ∈ placeholders,
      placeholder.name ∈ placeholders.map Placeholder.name :=
    fun placeholder hmem => List.mem_map_of_mem hmem
  rw [Written.value_object honce.here, value_normalise_object, withoutDefinitions]
  refine .object (fun entry hentry => ?_) fun entry hentry => ?_
  · rw [List.map_map] at hentry
    obtain ⟨member, hmember, rfl⟩ := List.mem_map.mp hentry
    rw [Function.comp, memberValue_eq]
    refine keepsMember_of_harmless hproper honce.here h.1 hdropped hmember
      (fun text hstring => ?_) ?_
    · show (if nameOf member = "definitions" then _ else _) = _
      split
      · exact object_of_withoutMembers.mpr hstring
      · exact hstring
    · -- among the definitions some may be missing, and nowhere else
      have hmemberInside := h.2 member hmember
      show Keeps _ (if nameOf member = "definitions" then _ else _) _
      by_cases hname : nameOf member = "definitions"
      · rw [if_pos hname] at hmemberInside ⊢
        exact keeps_of_defined hproper (honce.inside member hmember)
          (objects_of_definesObjects hobjects honce.here hmember hname) hdropped
          (hdefined member hmember hname) hmemberInside
      · rw [if_neg hname] at hmemberInside ⊢
        exact keeps_of_harmless hproper hdropped (honce.inside member hmember) hmemberInside
  · rcases nothing_new members entry hentry with hmem | hplain
    · left
      rw [names, List.map_map, List.map_map]
      obtain ⟨member, hmember, hname⟩ := List.mem_map.mp hmem
      refine List.mem_map.mpr ⟨member, hmember, ?_⟩
      rw [Function.comp, Function.comp, memberValue_eq]
      exact hname
    · exact .inr hplain

/-- Where everything but the definitions is harmless, the document is preserved. -/
theorem preserved_of_harmless {padding : Padding} {inner : Blanks}
    {members : List (Name × Written)} (honce : (Written.object padding inner members).Every Once)
    (hobjects : DefinesObjects (Written.object padding inner members).value)
    (h : EveryUndefined (Harmless (found (.object padding inner members)))
      (.object padding inner members)) :
    Preserved (Written.object padding inner members).value
      (normalise (found (.object padding inner members))
        (.object padding inner members)).value := by
  have hfree : EveryUndefined Free (.object padding inner members) :=
    h.mono fun _ hharmless => hharmless.none
  exact ⟨_, fun _ => name_mem_definitions honce hfree,
    keeps_withoutDefinitions proper_of_mem_found honce hobjects
      (standDefined_found honce.here hfree fun _ => List.mem_map.mp) h⟩

/--
**What is lost with the placeholders.** Taking the placeholders out of a document leaves everything
else in its place just if no member outside the definitions looks like a placeholder, and no other
type stands beside a reference to one.
-/
theorem preserved_iff {written : Written} (hready : Ready (found written) written)
    (honce : written.Every Once)
    (hobjects : DefinesObjects written.value) :
    (∃ value, Json.read (withoutPlaceholders written.text) = .ok value ∧
        Preserved written.value value) ↔
      EveryUndefined (Harmless (found written)) written := by
  have hproper : ∀ placeholder ∈ found written, placeholder.Proper := proper_of_mem_found
  have hknown := known_found written
  rw [read_withoutPlaceholders hready]
  constructor
  · rintro ⟨value, hread, dropped, hdropped, hkeeps⟩
    obtain rfl := Except.ok.inj hread
    cases written with
    | scalar => exact .scalar
    | array padding inner items =>
      rw [withoutDefinitions_array] at hkeeps
      exact harmless_of_keeps hproper honce hknown hkeeps
    | object padding inner members =>
      rw [value_normalise_object] at hkeeps
      exact harmless_of_preserved hproper honce hknown hobjects hkeeps
  · intro hharmless
    refine ⟨_, rfl, ?_⟩
    cases written with
    | scalar padding token =>
      have hscalar : isScalar (Written.scalar padding token).value = true := token.isScalar_value
      refine ⟨[], fun _ h => absurd h List.not_mem_nil, ?_⟩
      rw [withoutDefinitions_scalar hscalar]
      exact .scalar hscalar
    | array padding inner items =>
      -- in a list there are no definitions, so no placeholder can be left out
      have hnothing : found (.array padding inner items) = [] :=
        found_of_free (Written.Every.mono (fun _ hharmless => hharmless.none) hharmless)
      refine ⟨[], fun _ h => absurd h List.not_mem_nil, ?_⟩
      rw [withoutDefinitions_array]
      refine keeps_of_harmless hproper (fun placeholder hmem => ?_) honce hharmless
      rw [hnothing] at hmem
      exact absurd hmem List.not_mem_nil
    | object padding inner members => exact preserved_of_harmless honce hobjects hharmless

/-! ## A property that looks like a placeholder -/

/-- A name as it is written without blanks and escapes. -/
def bareName (text : String)
    (h : ∀ c ∈ text.toList, c ≠ '"' ∧ c ≠ '\\' ∧ 32 ≤ c.toNat := by decide) : Name :=
  ⟨.none, .bare text.toList h, .none⟩

/-- A text as it is written without blanks and escapes. -/
def bareText (text : String)
    (h : ∀ c ∈ text.toList, c ≠ '"' ∧ c ≠ '\\' ∧ 32 ≤ c.toNat := by decide) : Written :=
  .scalar .none (.quoted (.bare text.toList h))

/-- A document with a property `name` that has a type and a title. -/
def petDocument : Written :=
  let properties : Written := .object .none .none
    [(bareName "name", .object .none .none
      [(bareName "type", bareText "string"), (bareName "title", bareText "Name")]),
      (bareName "id", .object .none .none [(bareName "type", bareText "integer")])]
  let pet : Written := .object .none .none
    [(bareName "type", bareText "object"), (bareName "properties", properties)]
  .object .none .none [(bareName "definitions", .object .none .none [(bareName "Pet", pet)])]

example : String.ofList petDocument.text =
    "\x7b\"definitions\":\x7b\"Pet\":\x7b\"type\":\"object\",\"properties\":" ++
      "\x7b\"name\":\x7b\"type\":\"string\",\"title\":\"Name\"\x7d," ++
      "\"id\":\x7b\"type\":\"integer\"\x7d\x7d\x7d\x7d\x7d" := by
  decide +kernel

/-- The property is lost. -/
theorem not_preserved_petDocument :
    ¬ ∃ value, Json.read (withoutPlaceholders petDocument.text) = .ok value ∧
      Preserved petDocument.value value := by
  have hready : Ready (found petDocument) petDocument := by decide +kernel
  have honce : petDocument.Every Once := by decide +kernel
  have hobjects : DefinesObjects petDocument.value := by decide +kernel
  rw [preserved_iff hready honce hobjects]
  rintro ⟨-, hinside⟩
  have hdefinitions := hinside _ List.mem_cons_self
  rw [if_pos (by decide +kernel)] at hdefinitions
  have hpet := hdefinitions _ List.mem_cons_self
  have hproperties := hpet.inside _ (List.mem_cons_of_mem _ List.mem_cons_self)
  have hname := hproperties.here.none _ List.mem_cons_self
  revert hname
  decide +kernel

end ApiClient.Document
