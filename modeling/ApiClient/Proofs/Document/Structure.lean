import ApiClient.Proofs.Document.Tight

/-!
# Taking placeholders out of a value

What the rounds do to the text of a document can be said of its value alone: the definitions
that are placeholders go, and references to them become plain objects. For that the document
must be of the shape in which it is produced.
-/

namespace ApiClient.Document

open Json
open Written (nameOf Once Tight memberValue memberValue_eq)

/-! ## The structural edit -/

/-- The names of the placeholders among the definitions of a document. -/
def placeholderNames (document : Json) : List String :=
  names ((definitionsOf document).filter isPlaceholder)

/-- Whether a member refers to a definition of one of some names. -/
def refersTo (defined : List String) : String × Json → Bool
  | (name, .string target) =>
    name == "$ref" && defined.any fun other => target == "#/definitions/" ++ other
  | _ => false

mutual

/-- A value in which references to some definitions have become plain types. -/
def inline (defined : List String) : Json → Json
  | .array items => .array (inlineItems defined items)
  | .object members => .object (inlineMembers defined members)
  | value => value
termination_by structural value => value

/-- Items in which references have become plain types. -/
def inlineItems (defined : List String) : List Json → List Json
  | [] => []
  | item :: rest => inline defined item :: inlineItems defined rest
termination_by structural items => items

/-- Members of which the references have become plain types. -/
def inlineMembers (defined : List String) : List (String × Json) → List (String × Json)
  | [] => []
  | entry :: rest => inlineMember defined entry :: inlineMembers defined rest
termination_by structural members => members

/-- A member, or the plain type in the place of a reference. -/
def inlineMember (defined : List String) : String × Json → String × Json
  | (name, value) =>
    if refersTo defined (name, value) = true then plainType else (name, inline defined value)
termination_by structural entry => entry

end

/-- A document without the placeholders among its definitions and without references to them. -/
def withoutPlaceholderDefinitions (document : Json) : Json :=
  inline (placeholderNames document) (withoutDefinitions (placeholderNames document) document)

variable {defined : List String}

theorem inlineItems_eq (items : List Json) :
    inlineItems defined items = items.map (inline defined) := by
  induction items with
  | nil => rfl
  | cons item rest ih => rw [inlineItems, ih]; rfl

theorem inlineMembers_eq (members : List (String × Json)) :
    inlineMembers defined members = members.map (inlineMember defined) := by
  induction members with
  | nil => rfl
  | cons entry rest ih => rw [inlineMembers, ih]; rfl

theorem inline_array (items : List Json) :
    inline defined (.array items) = .array (items.map (inline defined)) := by
  rw [inline, inlineItems_eq]

theorem inline_object (members : List (String × Json)) :
    inline defined (.object members) = .object (members.map (inlineMember defined)) := by
  rw [inline, inlineMembers_eq]

theorem inline_scalar {value : Json} (h : isScalar value = true) :
    inline defined value = value := by
  cases value with
  | array => cases h
  | object => cases h
  | _ => rfl

theorem refersTo_iff {entry : String × Json} :
    refersTo defined entry = true ↔ ∃ name ∈ defined, entry = referenceTo name := by
  unfold refersTo
  -- only a member whose value is a text can refer
  split
  · rename_i name target
    simp only [Bool.and_eq_true, beq_iff_eq, List.any_eq_true, referenceTo, Prod.mk.injEq,
      Json.string.injEq]
    constructor
    · rintro ⟨rfl, other, hother, rfl⟩
      exact ⟨other, hother, rfl, rfl⟩
    · rintro ⟨other, hother, rfl, rfl⟩
      exact ⟨rfl, other, hother, rfl⟩
  · rename_i hnot
    constructor
    · intro h
      cases h
    · rintro ⟨name, -, rfl⟩
      exact absurd rfl (hnot _ _)

/-! ## Compact members after the rounds -/

/-- The members of an object allow it to be edited by its value: no name stands twice or has a
quote in it, and a reference to a placeholder stands alone. -/
structure Clean (placeholders : List Placeholder) (members : List (Name × Written)) : Prop where
  once : Once members
  unquoted : ∀ member ∈ members, '"' ∉ (nameOf member).toList
  alone : ∀ member ∈ members, memberCore member ∈ references placeholders → members = [member]

variable {placeholders : List Placeholder}

/-- Whether a member is not looked for as a placeholder. -/
def spared (placeholders : List Placeholder) (member : Name × Written) : Bool :=
  decide (memberCore member ∉ texts placeholders)

/-- What is left of a member that is no placeholder. -/
def left (placeholders : List Placeholder) (member : Name × Written) : String × Json :=
  if memberCore member ∈ references placeholders then plainType
  else (nameOf member, (normalise placeholders member.2).value)

/-- Where a reference stands alone, an object is left with what is left of each of its members. -/
theorem entriesOf_eq {members : List (Name × Written)} (hclean : Clean placeholders members) :
    entriesOf placeholders members =
      (members.filter (spared placeholders)).map (left placeholders) := by
  have hleft : ∀ members : List (Name × Written),
      (members.filterMap (normalised placeholders)).map memberValue =
        (members.filter (spared placeholders)).map (left placeholders) := by
    intro members
    induction members with
    | nil => rfl
    | cons member rest ih =>
      rw [List.filterMap_cons, normalised]
      by_cases htext : memberCore member ∈ texts placeholders
      · have hdrop : ¬ spared placeholders member = true := by simp [spared, htext]
        rw [if_pos htext, List.filter_cons_of_neg hdrop]
        exact ih
      · have hkeep : spared placeholders member = true := by simp [spared, htext]
        rw [if_neg htext, List.filter_cons_of_pos hkeep, List.map_cons, ← ih, left]
        by_cases href : memberCore member ∈ references placeholders
        · rw [if_pos href, if_pos href, List.map_cons, memberValue_inlined]
        · rw [if_neg href, if_neg href, List.map_cons, memberValue_eq]
          rfl
  rw [entriesOf, hleft, merged_of_nodup]
  by_cases hsome : ∃ member ∈ members, memberCore member ∈ references placeholders
  · -- an object with a reference has no other member
    obtain ⟨member, hmember, href⟩ := hsome
    rw [hclean.alone member hmember href, names, List.map_map]
    exact List.Nodup.sublist (List.filter_sublist.map _) (List.nodup_singleton _)
  · have hnames : names ((members.filter (spared placeholders)).map (left placeholders)) =
        (members.filter (spared placeholders)).map nameOf := by
      rw [names, List.map_map]
      refine List.map_congr_left fun member hmember => ?_
      have hnot : memberCore member ∉ references placeholders := fun href =>
        hsome ⟨member, (List.mem_filter.mp hmember).1, href⟩
      rw [Function.comp, left, if_neg hnot]
    rw [hnames]
    exact List.Nodup.sublist (List.filter_sublist.map nameOf) hclean.once

section

variable (hproper : ∀ placeholder ∈ placeholders, placeholder.Proper)
  (hdefined : ∀ name, name ∈ defined ↔ ∃ placeholder ∈ placeholders, placeholder.name = name)

include hproper hdefined

/-- A member of a compact document refers to one of some definitions just if it is looked for. -/
theorem refersTo_memberValue {member : Name × Written} (h : TightMember member) :
    refersTo defined (memberValue member) = true ↔
      memberCore member ∈ references placeholders := by
  rw [refersTo_iff]
  constructor
  · rintro ⟨name, hname, hvalue⟩
    obtain ⟨placeholder, hmem, rfl⟩ := (hdefined name).mp hname
    have hcore := reference_of_memberValue (hproper _ hmem) h hvalue
    exact List.mem_map.mpr ⟨placeholder, hmem, hcore.symm⟩
  · intro href
    obtain ⟨placeholder, hmem, hvalue⟩ := memberValue_of_mem_references hproper href
    exact ⟨placeholder.name, (hdefined _).mpr ⟨placeholder, hmem, rfl⟩, hvalue⟩

/-- What is left of a member is the member with the references in its value inlined. -/
theorem left_eq {member : Name × Written} (h : TightMember member)
    (hvalue : (normalise placeholders member.2).value = inline defined member.2.value) :
    left placeholders member = inlineMember defined (memberValue member) := by
  have href := refersTo_memberValue hproper hdefined h
  rw [memberValue_eq] at href ⊢
  rw [left, inlineMember]
  by_cases hmem : memberCore member ∈ references placeholders
  · rw [if_pos hmem, if_pos (href.mpr hmem)]
  · rw [if_neg hmem, if_neg (mt href.mp hmem), hvalue]

omit hdefined in
theorem filter_spared_of_free {members : List (Name × Written)} (hfree : Free members) :
    members.filter (spared placeholders) = members := by
  rw [List.filter_eq_self]
  intro member hmember
  exact decide_eq_true (not_mem_texts_of_none hproper (hfree member hmember))

/-- Where no member is a placeholder, normalising a compact document inlines the references in its
value. -/
theorem value_normalise {written : Written} (htight : Tight written)
    (hclean : written.Every (Clean placeholders)) (hfree : written.Every Free) :
    (normalise placeholders written).value = inline defined written.value := by
  induction written with
  | scalar padding token =>
    have hscalar : isScalar (Written.scalar padding token).value = true := token.isScalar_value
    rw [inline_scalar hscalar]
    rfl
  | array padding inner items ih =>
    rw [value_normalise_array, Written.value_array, inline_array, List.map_map]
    refine congrArg Json.array (List.map_congr_left fun item hitem => ?_)
    exact ih item hitem (htight.items item hitem) (hclean.items item hitem)
      (hfree.items item hitem)
  | object padding inner members ih =>
    rw [value_normalise_object, Written.value_object hclean.here.once, inline_object, List.map_map,
      entriesOf_eq hclean.here, filter_spared_of_free hproper hfree.here]
    -- nothing is removed, so the members go in step
    refine congrArg Json.object (List.map_congr_left fun member hmember => ?_)
    have hmemberTight := tightMember_of_mem htight member hmember
    exact left_eq hproper hdefined hmemberTight (ih member hmember hmemberTight.2
      (hclean.inside member hmember) (hfree.inside member hmember))

/-- Definitions are left without the placeholders among them. -/
theorem value_normalise_definitions {padding : Padding} {inner : Blanks}
    {definitions : List (Name × Written)} (htight : Tight (.object padding inner definitions))
    (hclean : (Written.object padding inner definitions).Every (Clean placeholders))
    (hfree : ∀ definition ∈ definitions, definition.2.Every Free)
    (hfound : StandAmong placeholders defined definitions) :
    (normalise placeholders (.object padding inner definitions)).value =
      inline defined
        (withoutMembers defined (Written.object padding inner definitions).value) := by
  have honce := hclean.here.once
  -- the definitions left out by their names are those that are placeholders
  have hfilter : (definitions.map memberValue).filter (·.1 ∉ defined) =
      (definitions.filter (spared placeholders)).map memberValue := by
    rw [List.filter_map]
    refine congrArg _ (List.filter_congr fun definition hdefinition => ?_)
    rw [Function.comp, memberValue_eq, spared, decide_eq_decide]
    refine not_congr ⟨fun hname => ?_, fun htext => ?_⟩
    · obtain ⟨other, hother, hsame, htext⟩ := hfound _ hname
      rw [honce.eq_of_name hother hdefinition hsame] at htext
      exact htext
    · obtain ⟨placeholder, hmem, hvalue⟩ := memberValue_of_mem_texts hproper htext
      rw [memberValue_eq] at hvalue
      exact (hdefined _).mpr ⟨placeholder, hmem, (Prod.mk.inj hvalue).1.symm⟩
  rw [value_normalise_object, Written.value_object honce, withoutMembers, hfilter, inline_object,
    List.map_map, entriesOf_eq hclean.here]
  refine congrArg Json.object (List.map_congr_left fun definition hspared => ?_)
  have hdefinition := (List.mem_filter.mp hspared).1
  have hdefinitionTight := tightMember_of_mem htight definition hdefinition
  exact left_eq hproper hdefined hdefinitionTight (value_normalise hproper hdefined
    hdefinitionTight.2 (hclean.inside definition hdefinition) (hfree definition hdefinition))

/-! ## Compact documents can be edited -/

omit hproper hdefined in
theorem inline_eq_string {value : Json} {text : String} (h : inline defined value = .string text) :
    value = .string text := by
  cases value with
  | array items =>
    rw [inline_array] at h
    cases h
  | object members =>
    rw [inline_object] at h
    cases h
  | _ => exact h

/-- An object that is left with the value of a placeholder had it before. -/
theorem value_of_inline_object {members : List (Name × Written)}
    (htight : ∀ member ∈ members, TightMember member) (hclean : Clean placeholders members)
    {placeholder : Placeholder}
    (h : inline defined (.object (members.map memberValue)) = placeholder.object) :
    Json.object (members.map memberValue) = placeholder.object := by
  rw [inline_object, List.map_map, Placeholder.object] at h
  obtain ⟨typeMember, others, rfl, htype, hothers⟩ := List.map_eq_cons_iff.mp (Json.object.inj h)
  obtain ⟨titleMember, others, rfl, htitle, hothers⟩ := List.map_eq_cons_iff.mp hothers
  obtain rfl := List.map_eq_nil_iff.mp hothers
  -- an object of two members holds no reference, so that each text in it was one before
  have hsame : ∀ member ∈ [typeMember, titleMember], ∀ name text,
      inlineMember defined (memberValue member) = (name, .string text) →
        memberValue member = (name, .string text) := by
    intro member hmember name text hinline
    have hnot : ¬ refersTo defined (memberValue member) = true := by
      rw [refersTo_memberValue hproper hdefined (htight member hmember)]
      intro href
      have hlength := congrArg List.length (hclean.alone member hmember href)
      simp at hlength
    rw [memberValue_eq] at hnot hinline ⊢
    rw [inlineMember, if_neg hnot] at hinline
    obtain ⟨hname, hvalue⟩ := Prod.mk.inj hinline
    rw [hname, inline_eq_string hvalue]
  have htypeValue := hsame typeMember List.mem_cons_self _ _ htype
  have htitleValue := hsame titleMember (List.mem_cons_of_mem _ List.mem_cons_self) _ _ htitle
  rw [List.map_cons, List.map_cons, List.map_nil, htypeValue, htitleValue, Placeholder.object]

/-- No member of a compact document comes to look like a placeholder. -/
theorem steady_of_free {member : Name × Written} (htight : TightMember member)
    (hclean : member.2.Every (Clean placeholders)) (hfree : member.2.Every Free)
    (h : memberCore (member.1, normalise placeholders member.2) ∈ texts placeholders) :
    memberCore member ∈ texts placeholders := by
  obtain ⟨placeholder, hmem, hvalue⟩ := memberValue_of_mem_texts hproper h
  rw [memberValue_eq, value_normalise hproper hdefined htight.2 hclean hfree] at hvalue
  obtain ⟨hname, hobject⟩ := Prod.mk.inj hvalue
  have honce : member.2.Every Once := hclean.mono fun _ hclean => hclean.once
  -- inlining makes no object a placeholder that was none
  have hbefore : member.2.value = placeholder.object := by
    cases hwritten : member.2 with
    | scalar padding token =>
      have hscalar : isScalar (Written.scalar padding token).value = true := token.isScalar_value
      rw [hwritten, inline_scalar hscalar] at hobject
      exact hobject
    | array padding inner items =>
      rw [hwritten, Written.value_array, inline_array] at hobject
      cases hobject
    | object padding inner members =>
      rw [hwritten] at hobject hclean
      have hinside := htight.2
      rw [hwritten] at hinside
      rw [Written.value_object hclean.here.once] at hobject ⊢
      exact value_of_inline_object hproper hdefined (tightMember_of_mem hinside)
        hclean.here hobject
  have hcore := text_of_memberValue (hproper _ hmem) htight honce
    (memberValue_eq member ▸ Prod.ext hname hbefore)
  exact List.mem_map.mpr ⟨placeholder, hmem, hcore.symm⟩

omit hproper hdefined in
/-- A compact member is orderly if it does not come to look like a placeholder. -/
theorem orderly_of_tight {member : Name × Written} (htight : TightMember member)
    (hquote : '"' ∉ (nameOf member).toList)
    (hsteady : memberCore (member.1, normalise placeholders member.2) ∈ texts placeholders →
      memberCore member ∈ texts placeholders) : Orderly placeholders member := by
  obtain ⟨⟨text, hname⟩, hinside⟩ := htight
  constructor
  case name =>
    rw [nameOf, hname] at hquote
    rw [hname]
    exact quote_notMem_compact hquote
  case tidy =>
    intro _
    rw [hname, hinside.padding]
    exact ⟨rfl, rfl⟩
  case steady => exact hsteady

/-- A compact document without placeholders can be edited. -/
theorem ready_of_free {written : Written} (htight : Tight written)
    (hclean : written.Every (Clean placeholders)) (hfree : written.Every Free) :
    Ready placeholders written := by
  induction written with
  | scalar => exact .scalar
  | array padding inner items ih =>
    exact .array fun item hitem =>
      ih item hitem (htight.items item hitem) (hclean.items item hitem) (hfree.items item hitem)
  | object padding inner members ih =>
    refine .object (fun member hmember => ?_) fun member hmember => ?_
    · have hmemberTight := tightMember_of_mem htight member hmember
      exact orderly_of_tight hmemberTight (hclean.here.unquoted member hmember)
        (steady_of_free hproper hdefined hmemberTight (hclean.inside member hmember)
          (hfree.inside member hmember))
    · exact ih member hmember (htight.inside member hmember) (hclean.inside member hmember)
        (hfree.inside member hmember)

/-- Definitions that are objects can be edited, though some of them are placeholders. -/
theorem ready_definitions {member : Name × Written} (htight : TightMember member)
    (hquote : '"' ∉ (nameOf member).toList) {padding : Padding} {inner : Blanks}
    {definitions : List (Name × Written)} (hwritten : member.2 = .object padding inner definitions)
    (hclean : (Written.object padding inner definitions).Every (Clean placeholders))
    (hfree : ∀ definition ∈ definitions, definition.2.Every Free)
    (hobjects : ∀ definition ∈ definitions, ∃ entries, definition.2.value = .object entries) :
    Orderly placeholders member ∧ Ready placeholders (.object padding inner definitions) := by
  have hinside := htight.2
  rw [hwritten] at hinside
  constructor
  · refine orderly_of_tight htight hquote fun htext => ?_
    -- what is left of the definitions are objects, and a placeholder holds texts
    obtain ⟨placeholder, -, hvalue⟩ := memberValue_of_mem_texts hproper htext
    rw [hwritten, memberValue_eq, value_normalise_object] at hvalue
    have hentries := Json.object.inj (Prod.mk.inj hvalue).2
    have htype : ("type", Json.string (String.ofList placeholder.type)) ∈
        entriesOf placeholders definitions := by
      rw [hentries]
      exact List.mem_cons_self
    obtain ⟨_, -, -, -, -, _, he⟩ := object_of_mem_entriesOf hproper hobjects htype
    cases he
  · refine .object (fun definition hdefinition => ?_) fun definition hdefinition => ?_
    · have hdefinitionTight := tightMember_of_mem hinside definition hdefinition
      exact orderly_of_tight hdefinitionTight (hclean.here.unquoted definition hdefinition)
        (steady_of_free hproper hdefined hdefinitionTight (hclean.inside definition hdefinition)
          (hfree definition hdefinition))
    · exact ready_of_free hproper hdefined (hinside.inside definition hdefinition)
        (hclean.inside definition hdefinition) (hfree definition hdefinition)

end

end ApiClient.Document
