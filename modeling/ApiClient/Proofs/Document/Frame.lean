import ApiClient.Proofs.Document.Definitions

/-!
# What is lost with the placeholders

Placeholders are meant to be definitions, and taking them out of a document should leave
everything else in its place. `Preserved` says so of two values. But a placeholder is looked for
by its text alone, so that a property with a type and a title is taken for one. A document is
preserved just if no such member stands outside its definitions.
-/

namespace ApiClient.Document

open Json
open Written (nameOf Once memberValue memberValue_eq)

/-! ## Values that are preserved -/

mutual

/-- Everything in one value is in its place in another, but that a plain type may stand where a
definition that is dropped was referred to. -/
inductive Keeps (dropped : List String) : Json → Json → Prop where
  | scalar {value : Json} : isScalar value = true → Keeps dropped value value
  | array {items items' : List Json} : KeepsItems dropped items items' →
      Keeps dropped (.array items) (.array items')
  | object {members members' : List (String × Json)} :
      (∀ entry ∈ members, KeepsMember dropped entry members') →
      (∀ entry ∈ members', entry.1 ∈ names members ∨ entry = plainType) →
      Keeps dropped (.object members) (.object members')

/-- The same of items one by one. -/
inductive KeepsItems (dropped : List String) : List Json → List Json → Prop where
  | nil : KeepsItems dropped [] []
  | cons {item item' : Json} {rest rest' : List Json} : Keeps dropped item item' →
      KeepsItems dropped rest rest' → KeepsItems dropped (item :: rest) (item' :: rest')

/-- A member of one object is in another. -/
inductive KeepsMember (dropped : List String) : String × Json → List (String × Json) → Prop where
  | kept {entry : String × Json} {value : Json} {members : List (String × Json)} :
      (entry.1, value) ∈ members → Keeps dropped entry.2 value → KeepsMember dropped entry members
  | inlined {entry : String × Json} {name : String} {members : List (String × Json)} :
      entry = referenceTo name → name ∈ dropped → plainType ∈ members →
      KeepsMember dropped entry members

end

/-- Everything in a document is in its place, but for some definitions and references to them. -/
def Preserved (before after : Json) : Prop :=
  ∃ dropped : List String, (∀ name ∈ dropped, name ∈ names (definitionsOf before)) ∧
    Keeps dropped (withoutDefinitions dropped before) after

section

variable {dropped : List String}

theorem Keeps.eq_string {value : Json} {text : String} (h : Keeps dropped value (.string text)) :
    value = .string text := by
  cases h
  rfl

theorem Keeps.items {items items' : List Json} (h : Keeps dropped (.array items) (.array items')) :
    KeepsItems dropped items items' := by
  cases h with
  | scalar h => cases h
  | array h => exact h

theorem Keeps.members {members members' : List (String × Json)}
    (h : Keeps dropped (.object members) (.object members')) :
    (∀ entry ∈ members, KeepsMember dropped entry members') ∧
      ∀ entry ∈ members', entry.1 ∈ names members ∨ entry = plainType := by
  cases h with
  | scalar h => cases h
  | object h hnew => exact ⟨h, hnew⟩

theorem keepsItems_map_iff {α : Type} {f g : α → Json} {items : List α} :
    KeepsItems dropped (items.map f) (items.map g) ↔
      ∀ item ∈ items, Keeps dropped (f item) (g item) := by
  induction items with
  | nil => exact ⟨fun _ _ h => absurd h List.not_mem_nil, fun _ => .nil⟩
  | cons first rest ih =>
    constructor
    · intro h item hitem
      cases h with
      | cons hfirst hrest =>
        rcases List.mem_cons.mp hitem with rfl | hitem
        · exact hfirst
        · exact ih.mp hrest item hitem
    · intro h
      exact .cons (h first List.mem_cons_self)
        (ih.mpr fun item hitem => h item (List.mem_cons_of_mem _ hitem))

end

/-! ## Documents in which only definitions are placeholders -/

/-- No member of an object is a placeholder. -/
def Free (members : List (Name × Written)) : Prop := ∀ member ∈ members, placeholder? member = none

/-- No member of an object is a placeholder, and beside a reference to one stands no other type
than the one that takes its place. -/
structure Harmless (placeholders : List Placeholder) (members : List (Name × Written)) : Prop where
  none : Free members
  type : ∀ member ∈ members, memberCore member ∈ references placeholders →
    ∀ other ∈ members, nameOf other = "type" → other.2.value = .string "object"

/-- The members of every object in the parts of a value have a property. -/
def EveryInside (P : List (Name × Written) → Prop) : Written → Prop
  | .object _ _ members => ∀ member ∈ members, member.2.Every P
  | written => written.Every P

/-- The members of every object in a document have a property, except that the definitions at
the top need not have it as members. -/
def EveryUndefined (P : List (Name × Written) → Prop) : Written → Prop
  | .object _ _ members => P members ∧ ∀ member ∈ members,
      if nameOf member = "definitions" then EveryInside P member.2 else member.2.Every P
  | written => written.Every P

theorem EveryUndefined.mono {P Q : List (Name × Written) → Prop}
    (hPQ : ∀ members, P members → Q members) {written : Written} (h : EveryUndefined P written) :
    EveryUndefined Q written := by
  cases written with
  | scalar => exact Written.Every.mono hPQ h
  | array => exact Written.Every.mono hPQ h
  | object padding inner members =>
    refine ⟨hPQ _ h.1, fun member hmember => ?_⟩
    have hinside := h.2 member hmember
    -- only the definitions are told apart from the rest
    by_cases hname : nameOf member = "definitions"
    · rw [if_pos hname] at hinside ⊢
      obtain ⟨name, written⟩ := member
      cases written with
      | scalar => exact Written.Every.mono hPQ hinside
      | array => exact Written.Every.mono hPQ hinside
      | object => exact fun definition hdefinition => (hinside definition hdefinition).mono hPQ
    · rw [if_neg hname] at hinside ⊢
      exact hinside.mono hPQ

/-- Each of some names is that of a definition which has the text of a placeholder. -/
def StandAmong (placeholders : List Placeholder) (dropped : List String)
    (definitions : List (Name × Written)) : Prop :=
  ∀ name ∈ dropped, ∃ definition ∈ definitions, nameOf definition = name ∧
    memberCore definition ∈ texts placeholders

/-- Each of some names stands among the definitions of a document, wherever these stand. -/
def StandDefined (placeholders : List Placeholder) (dropped : List String)
    (members : List (Name × Written)) : Prop :=
  ∀ member ∈ members, nameOf member = "definitions" →
    ∀ padding inner definitions, member.2 = .object padding inner definitions →
      StandAmong placeholders dropped definitions

/-- Every member of an object that is a placeholder is one of some placeholders. -/
def Known (placeholders : List Placeholder) (members : List (Name × Written)) : Prop :=
  ∀ member ∈ members, ∀ placeholder, placeholder? member = some placeholder →
    placeholder ∈ placeholders

variable {placeholders : List Placeholder} {dropped : List String}

/-- A member that is no placeholder is not looked for as one. -/
theorem not_mem_texts_of_none (hproper : ∀ placeholder ∈ placeholders, placeholder.Proper)
    {member : Name × Written} (h : placeholder? member = none) :
    memberCore member ∉ texts placeholders := by
  intro htext
  obtain ⟨placeholder, hmem, he⟩ := List.mem_map.mp htext
  have hsome := placeholder?_eq_some.mpr ⟨hproper _ hmem, he.symm⟩
  rw [h] at hsome
  cases hsome

/-- A member that is no placeholder of some is none at all, if they are known. -/
theorem Known.eq_none {members : List (Name × Written)} (h : Known placeholders members)
    {member : Name × Written} (hmember : member ∈ members)
    (htext : memberCore member ∉ texts placeholders) : placeholder? member = none := by
  cases hplaceholder : placeholder? member with
  | none => rfl
  | some placeholder =>
    have hcore := (placeholder?_eq_some.mp hplaceholder).2
    have hmem := h member hmember placeholder hplaceholder
    exact absurd (List.mem_map.mpr ⟨placeholder, hmem, hcore.symm⟩) htext

/-- A value without parts is no placeholder. -/
theorem placeholder?_scalar (name : Name) (padding : Padding) (token : Token) :
    placeholder? (name, .scalar padding token) = none := by
  cases hplaceholder : placeholder? (name, .scalar padding token) with
  | none => rfl
  | some placeholder =>
    obtain ⟨hproper, hcore⟩ := placeholder?_eq_some.mp hplaceholder
    have hone : ∀ other ∈ [placeholder], other.Proper := by
      intro other hother
      rw [List.mem_singleton.mp hother]
      exact hproper
    have hmem : memberCore (name, .scalar padding token) ∈ texts [placeholder] := by
      rw [hcore]
      exact List.mem_singleton.mpr rfl
    exact absurd hmem (not_mem_texts_scalar hone name padding token)

section

variable (hproper : ∀ placeholder ∈ placeholders, placeholder.Proper)

include hproper

/-- There is nothing in a placeholder that could be lost. -/
theorem harmless_of_text {member : Name × Written} (h : memberCore member ∈ texts placeholders) :
    member.2.Every (Harmless placeholders) := by
  obtain ⟨placeholder, -, -, hdescribes⟩ := describes_of_mem_texts hproper h
  obtain ⟨padding, inner, typeName, typePadding, typeText, titleName, titlePadding, titleText,
    hvalue, htype, htitle, -, -⟩ := hdescribes.shape
  have htypeName : typeName.spelling.chars ≠ "$ref".toList := by
    rw [htype]
    decide
  have htitleName : titleName.spelling.chars ≠ "$ref".toList := by
    rw [htitle]
    decide
  rw [hvalue]
  -- a placeholder has two members, `type` and `title`, and both are texts
  refine .object ⟨fun member hmember => ?_, fun member hmember href => ?_⟩ fun member hmember => ?_
  · rcases List.mem_pair.mp hmember with rfl | rfl
    · exact placeholder?_scalar _ _ _
    · exact placeholder?_scalar _ _ _
  · rcases List.mem_pair.mp hmember with rfl | rfl
    · exact absurd href (not_mem_references_of_name hproper htypeName _)
    · exact absurd href (not_mem_references_of_name hproper htitleName _)
  · rcases List.mem_pair.mp hmember with rfl | rfl
    · exact .scalar
    · exact .scalar

/-! ## What is preserved is harmless -/

section

variable {members : List (Name × Written)} (honce : Once members)

include honce

/-- A member that is kept is no placeholder, and its value is kept. -/
theorem keeps_of_keepsMember {member : Name × Written} (hmember : member ∈ members) {value : Json}
    (hvalue : ∀ text, value = .string text ↔ member.2.value = .string text)
    (h : KeepsMember dropped (nameOf member, value) (entriesOf placeholders members)) :
    memberCore member ∉ texts placeholders ∧ ((∃ text, member.2.value = .string text) ∨
      Keeps dropped value (normalise placeholders member.2).value) := by
  -- a text is kept whatever takes its place, and any other value only by what is left of it
  have hleft : (∃ text, member.2.value = .string text) ∨ (memberCore member ∉ texts placeholders ∧
      Keeps dropped value (normalise placeholders member.2).value) := by
    cases h with
    | inlined hentry _ _ =>
      obtain ⟨-, hreference⟩ := Prod.mk.inj hentry
      exact .inl ⟨_, (hvalue _).mp hreference⟩
    | kept hmem hkeeps =>
      obtain ⟨other, hother, htext, ⟨-, he⟩ | ⟨-, he⟩⟩ := mem_entriesOf hmem
      · obtain ⟨-, hplain⟩ := Prod.mk.inj he
        rw [hplain] at hkeeps
        exact .inl ⟨_, (hvalue _).mp hkeeps.eq_string⟩
      · obtain ⟨hname, hnormal⟩ := Prod.mk.inj he
        obtain rfl := honce.eq_of_name hmember hother hname
        rw [hnormal] at hkeeps
        exact .inr ⟨htext, hkeeps⟩
  rcases hleft with ⟨text, hstring⟩ | ⟨htext, hkeeps⟩
  · refine ⟨fun htext => ?_, .inl ⟨text, hstring⟩⟩
    obtain ⟨placeholder, -, hobject⟩ := memberValue_of_mem_texts hproper htext
    rw [memberValue_eq, hstring] at hobject
    cases (Prod.mk.inj hobject).2
  · exact ⟨htext, .inr hkeeps⟩

omit hproper honce in
theorem ref_ne_type : "$ref" ≠ "type" := by decide

/-- Where a reference is kept, a type beside it is the one that takes its place. -/
theorem type_of_keepsMember {member other : Name × Written} (hmember : member ∈ members)
    (href : memberCore member ∈ references placeholders) (hname : nameOf other = "type")
    (h : KeepsMember dropped (memberValue member) (entriesOf placeholders members))
    (h' : KeepsMember dropped (memberValue other) (entriesOf placeholders members)) :
    other.2.value = .string "object" := by
  obtain ⟨placeholder, -, hvalue⟩ := memberValue_of_mem_references hproper href
  have hplain : plainType ∈ entriesOf placeholders members := by
    rw [hvalue] at h
    cases h with
    | inlined _ _ hplain => exact hplain
    | kept hmem _ =>
      obtain ⟨another, hanother, -, ⟨-, he⟩ | ⟨hnot, he⟩⟩ := mem_entriesOf hmem
      · exact absurd (Prod.mk.inj he).1 ref_ne_type
      · rw [memberValue_eq] at hvalue
        have hsame : nameOf member = nameOf another :=
          (Prod.mk.inj hvalue).1.trans (Prod.mk.inj he).1
        rw [honce.eq_of_name hmember hanother hsame] at href
        exact absurd href hnot
  rw [memberValue_eq, hname] at h'
  cases h' with
  | inlined hentry _ _ => exact absurd (Prod.mk.inj hentry).1.symm ref_ne_type
  | @kept _ value _ hmem hkeeps =>
    -- an object has one member of a name
    have hlookup := lookup?_of_mem (nodup_names_merged _) hmem
    have hlookup' := lookup?_of_mem (nodup_names_merged _) hplain
    obtain rfl : value = .string "object" := Option.some.inj (hlookup.symm.trans hlookup')
    exact hkeeps.eq_string

end

/-- What is kept was harmless. -/
theorem harmless_of_keeps {written : Written} (honce : written.Every Once)
    (hknown : written.Every (Known placeholders))
    (h : Keeps dropped written.value (normalise placeholders written).value) :
    written.Every (Harmless placeholders) := by
  induction written with
  | scalar => exact .scalar
  | array padding inner items ih =>
    rw [Written.value_array, value_normalise_array] at h
    have hitems := keepsItems_map_iff.mp h.items
    exact .array fun item hitem => ih item hitem (honce.items item hitem)
      (hknown.items item hitem) (hitems item hitem)
  | object padding inner members ih =>
    rw [Written.value_object honce.here, value_normalise_object] at h
    obtain ⟨hmembers, -⟩ := h.members
    have hkept : ∀ member ∈ members,
        KeepsMember dropped (memberValue member) (entriesOf placeholders members) :=
      fun member hmember => hmembers _ (List.mem_map_of_mem hmember)
    -- what is kept was no placeholder, and its value is a text or kept itself
    have hleft : ∀ member ∈ members, memberCore member ∉ texts placeholders ∧
        ((∃ text, member.2.value = .string text) ∨
          Keeps dropped member.2.value (normalise placeholders member.2).value) := by
      intro member hmember
      have hone := hkept member hmember
      rw [memberValue_eq] at hone
      exact keeps_of_keepsMember hproper honce.here hmember (fun _ => Iff.rfl) hone
    have hnone : ∀ member ∈ members, placeholder? member = none := fun member hmember =>
      hknown.here.eq_none hmember (hleft member hmember).1
    refine .object ⟨hnone, ?_⟩ fun member hmember => ?_
    · intro member hmember href other hother hname
      exact type_of_keepsMember hproper honce.here hmember href hname
        (hkept member hmember) (hkept other hother)
    · rcases (hleft member hmember).2 with ⟨text, hstring⟩ | hkeeps
      · exact every_of_string hstring _
      · exact ih member hmember (honce.inside member hmember) (hknown.inside member hmember) hkeeps

/-! ## What is harmless is preserved -/

/-- A member that is harmless is kept if its value is. -/
theorem keepsMember_of_harmless {members : List (Name × Written)} (honce : Once members)
    (hharmless : Harmless placeholders members)
    (hdropped : ∀ placeholder ∈ placeholders, placeholder.name ∈ dropped)
    {member : Name × Written} (hmember : member ∈ members) {value : Json}
    (hvalue : ∀ text, member.2.value = .string text → value = .string text)
    (hkeeps : Keeps dropped value (normalise placeholders member.2).value) :
    KeepsMember dropped (nameOf member, value) (entriesOf placeholders members) := by
  have htext := not_mem_texts_of_none hproper (hharmless.none member hmember)
  by_cases href : memberCore member ∈ references placeholders
  · obtain ⟨placeholder, hmem, hreference⟩ := memberValue_of_mem_references hproper href
    rw [memberValue_eq] at hreference
    obtain ⟨hname, hstring⟩ := Prod.mk.inj hreference
    have hentry : (nameOf member, value) = referenceTo placeholder.name := by
      rw [hname, hvalue _ hstring]
      rfl
    refine .inlined hentry (hdropped placeholder hmem) ?_
    -- whatever is left under the name of a type is the plain type
    obtain ⟨entry, hentry, htype⟩ := List.mem_map.mp (type_mem_entriesOf hmember htext href)
    obtain ⟨other, hother, -, ⟨-, rfl⟩ | ⟨-, rfl⟩⟩ := mem_entriesOf hentry
    · exact hentry
    · have hobject := hharmless.type member hmember href other hother htype
      rw [normalise_of_string hobject, hobject] at hentry
      rw [show plainType = (nameOf other, .string "object") from congrArg (·, _) htype.symm]
      exact hentry
  · obtain ⟨entry, hentry, hname⟩ := List.mem_map.mp (name_mem_entriesOf hmember htext href)
    obtain ⟨other, hother, -, ⟨href', rfl⟩ | ⟨-, rfl⟩⟩ := mem_entriesOf hentry
    · have hobject := hharmless.type other hother href' member hmember hname.symm
      rw [show plainType = (nameOf member, .string "object") from congrArg (·, _) hname] at hentry
      refine .kept hentry ?_
      rw [hvalue _ hobject]
      exact .scalar rfl
    · obtain rfl := honce.eq_of_name hother hmember hname
      exact .kept hentry hkeeps

omit hproper in
/-- Nothing comes up in an object but the type in the place of a reference. -/
theorem nothing_new (members : List (Name × Written)) :
    ∀ entry ∈ entriesOf placeholders members,
      entry.1 ∈ members.map nameOf ∨ entry = plainType := by
  intro entry hentry
  obtain ⟨member, hmember, -, ⟨-, rfl⟩ | ⟨-, rfl⟩⟩ := mem_entriesOf hentry
  · exact .inr rfl
  · exact .inl (List.mem_map_of_mem hmember)

/-- What is harmless is kept. -/
theorem keeps_of_harmless (hdropped : ∀ placeholder ∈ placeholders, placeholder.name ∈ dropped)
    {written : Written} (honce : written.Every Once)
    (hharmless : written.Every (Harmless placeholders)) :
    Keeps dropped written.value (normalise placeholders written).value := by
  induction written with
  | scalar padding token => exact .scalar token.isScalar_value
  | array padding inner items ih =>
    rw [Written.value_array, value_normalise_array]
    refine .array (keepsItems_map_iff.mpr fun item hitem => ?_)
    exact ih item hitem (honce.items item hitem) (hharmless.items item hitem)
  | object padding inner members ih =>
    rw [Written.value_object honce.here, value_normalise_object]
    -- every member is kept, and nothing comes up that was not there
    refine .object (fun entry hentry => ?_) ?_
    · obtain ⟨member, hmember, rfl⟩ := List.mem_map.mp hentry
      rw [memberValue_eq]
      refine keepsMember_of_harmless hproper honce.here hharmless.here hdropped hmember
        (fun _ h => h) ?_
      exact ih member hmember (honce.inside member hmember) (hharmless.inside member hmember)
    · rw [Written.names_memberValues]
      exact nothing_new members

end

end ApiClient.Document
