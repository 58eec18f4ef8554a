import ApiClient.Proofs.Document.Member

/-!
# Edits of written members

Taking placeholders out of a document is done in many rounds, and each drops some members or
puts plain objects in the place of some references. `edit` is a round of that kind, and
`normalise` does at once what all rounds together are to do. A round changes nothing about what
is left to be done: normalising after it gives what normalising before it gives. For that no
member may come to look like a placeholder by what it loses, which is what `Orderly` asks.
-/

namespace ApiClient.Document

open Json

/-! ## Rounds -/

/-- What becomes of a member in a round. -/
inductive Fate where
  | keep
  | drop
  /-- A plain object takes the place of a reference. -/
  | inline
  deriving DecidableEq

/-- Settles what becomes of a member, given whether it is the first or the last of its object. -/
abbrev Rule := (first last : Bool) → Name × Written → Fate

theorem bare_type : ∀ c ∈ "type".toList, c ≠ '"' ∧ c ≠ '\\' ∧ 32 ≤ c.toNat := by decide

theorem bare_object : ∀ c ∈ "object".toList, c ≠ '"' ∧ c ≠ '\\' ∧ 32 ≤ c.toNat := by decide

/-- The name `type`, as it is written. -/
def typeSpelling : Spelling := .bare "type".toList bare_type

/-- The text `object`, as it is written. -/
def objectSpelling : Spelling := .bare "object".toList bare_object

/-- A plain object in the place of a reference. -/
def inlined (member : Name × Written) : Name × Written :=
  (⟨member.1.before, typeSpelling, .none⟩,
    .scalar ⟨.none, member.2.padding.after⟩ (.quoted objectSpelling))

mutual

/-- A round over a document. -/
def edit (rule : Rule) : Written → Written
  | .scalar padding token => .scalar padding token
  | .array padding inner items => .array padding inner (editItems rule items)
  | .object padding inner members => .object padding inner (editMembers rule true members)
termination_by structural written => written

/-- A round over some items. -/
def editItems (rule : Rule) : List Written → List Written
  | [] => []
  | item :: rest => edit rule item :: editItems rule rest
termination_by structural items => items

/-- A round over the members of an object, or over the rest of them. -/
def editMembers (rule : Rule) (first : Bool) : List (Name × Written) → List (Name × Written)
  | [] => []
  | member :: rest =>
    match rule first rest.isEmpty member with
    | .keep => editMember rule member :: editMembers rule false rest
    | .drop => editMembers rule false rest
    | .inline => inlined member :: editMembers rule false rest
termination_by structural members => members

/-- A round over what is inside a member. -/
def editMember (rule : Rule) : Name × Written → Name × Written
  | (name, value) => (name, edit rule value)
termination_by structural member => member

end

variable {rule : Rule}

theorem editItems_eq (items : List Written) : editItems rule items = items.map (edit rule) := by
  induction items with
  | nil => rfl
  | cons item rest ih => rw [editItems, ih]; rfl

theorem editMember_eq (member : Name × Written) :
    editMember rule member = (member.1, edit rule member.2) := by
  cases member
  rfl

theorem edit_array (padding : Padding) (inner : Blanks) (items : List Written) :
    edit rule (.array padding inner items) = .array padding inner (items.map (edit rule)) := by
  rw [edit, editItems_eq]

theorem padding_edit (written : Written) : (edit rule written).padding = written.padding := by
  cases written <;> rfl

/-- What becomes of a member that is not dropped. -/
def BecomesOf (rule : Rule) (member edited : Name × Written) : Prop :=
  ∃ first last, (rule first last member = .keep ∧ edited = (member.1, edit rule member.2)) ∨
    (rule first last member = .inline ∧ edited = inlined member)

/-- What is left of some members stems from one of them. -/
theorem mem_editMembers {first : Bool} {members : List (Name × Written)} {edited : Name × Written}
    (h : edited ∈ editMembers rule first members) :
    ∃ member ∈ members, BecomesOf rule member edited := by
  induction members generalizing first with
  | nil => exact absurd h List.not_mem_nil
  | cons member rest ih =>
    have hrest : edited ∈ editMembers rule false rest →
        ∃ member' ∈ member :: rest, BecomesOf rule member' edited := by
      intro h
      obtain ⟨other, hother, hbecomes⟩ := ih h
      exact ⟨other, List.mem_cons_of_mem _ hother, hbecomes⟩
    rw [editMembers] at h
    -- what is edited further on was a member further on
    cases hfate : rule first rest.isEmpty member with
    | keep =>
      rw [hfate] at h
      rcases List.mem_cons.mp h with rfl | h
      · rw [editMember_eq]
        exact ⟨member, List.mem_cons_self, first, _, .inl ⟨hfate, rfl⟩⟩
      · exact hrest h
    | drop =>
      rw [hfate] at h
      exact hrest h
    | inline =>
      rw [hfate] at h
      rcases List.mem_cons.mp h with rfl | h
      · exact ⟨member, List.mem_cons_self, first, _, .inr ⟨hfate, rfl⟩⟩
      · exact hrest h

/-! ## What is looked for -/

variable {placeholders : List Placeholder}

/-- The texts of some placeholders. -/
def texts (placeholders : List Placeholder) : List (List Char) := placeholders.map (·.text)

/-- The references to some placeholders. -/
def references (placeholders : List Placeholder) : List (List Char) :=
  placeholders.map (·.reference)

/-- Texts are equal if they are character by character; a rule looks for members among texts so. -/
local instance lawfulBEqText : LawfulBEq (List Char) := inferInstance

/-- Placeholders are dropped, and references to them inlined. -/
def normalRule (placeholders : List Placeholder) : Rule := fun _ _ member =>
  if memberCore member ∈ texts placeholders then .drop
  else if memberCore member ∈ references placeholders then .inline
  else .keep

/-- A document without the placeholders and the references to them. -/
def normalise (placeholders : List Placeholder) : Written → Written :=
  edit (normalRule placeholders)

/-- A rule drops nothing but placeholders, and inlines nothing but references to them. -/
structure Sound (placeholders : List Placeholder) (rule : Rule) : Prop where
  drops : ∀ {first last member}, rule first last member = .drop →
    memberCore member ∈ texts placeholders
  inlines : ∀ {first last member}, rule first last member = .inline →
    memberCore member ∈ references placeholders

theorem sound_normalRule : Sound placeholders (normalRule placeholders) where
  drops h := by
    unfold normalRule at h
    split at h
    · assumption
    · split at h <;> cases h
  inlines h := by
    unfold normalRule at h
    split at h
    · cases h
    · split at h
      · assumption
      · cases h

section

variable (hproper : ∀ placeholder ∈ placeholders, placeholder.Proper)

include hproper

/-- What is looked for among the placeholders is described by one of them. -/
theorem describes_of_mem_texts {member : Name × Written}
    (h : memberCore member ∈ texts placeholders) :
    ∃ placeholder ∈ placeholders, member.1.spelling.chars = placeholder.key ∧
      placeholder.Describes member.2 := by
  obtain ⟨placeholder, hmem, htext⟩ := List.mem_map.mp h
  have hahead := Placeholder.ahead_of_core htext.symm []
  obtain ⟨hname, hdescribes, -⟩ := Placeholder.member_of_ahead (hproper _ hmem) hahead
  exact ⟨placeholder, hmem, hname, hdescribes⟩

/-- A value without parts is no placeholder. -/
theorem not_mem_texts_scalar (name : Name) (padding : Padding) (token : Token) :
    memberCore (name, .scalar padding token) ∉ texts placeholders := by
  intro h
  obtain ⟨placeholder, -, -, hdescribes⟩ := describes_of_mem_texts hproper h
  obtain ⟨_, _, _, _, _, _, _, _, he, -⟩ := hdescribes.shape
  cases he

/-- What is looked for among the references is a text under the name of references. -/
theorem scalar_of_mem_references {member : Name × Written}
    (h : memberCore member ∈ references placeholders) :
    member.1.spelling.chars = "$ref".toList ∧ ∃ placeholder ∈ placeholders, ∃ padding spelling,
      member.2 = .scalar padding (.quoted spelling) ∧ spelling.chars = placeholder.target := by
  obtain ⟨placeholder, hmem, htext⟩ := List.mem_map.mp h
  have hahead := Placeholder.ahead_of_core htext.symm []
  obtain ⟨hname, ⟨padding, spelling, hvalue, hchars⟩, -⟩ :=
    Placeholder.reference_of_ahead (hproper _ hmem) hahead
  exact ⟨hname, placeholder, hmem, padding, spelling, hvalue, hchars⟩

theorem not_mem_references_of_name {name : Name} (hname : name.spelling.chars ≠ "$ref".toList)
    (value : Written) : memberCore (name, value) ∉ references placeholders := fun h =>
  hname (scalar_of_mem_references hproper h).1

omit hproper in
theorem type_ne_ref : "type".toList ≠ "$ref".toList := by decide

/-- What takes the place of a reference is not looked for. -/
theorem not_mem_inlined (member : Name × Written) :
    memberCore (inlined member) ∉ texts placeholders ∧
      memberCore (inlined member) ∉ references placeholders :=
  ⟨not_mem_texts_scalar hproper _ _ _, not_mem_references_of_name hproper type_ne_ref _⟩

variable {rule : Rule} (hsound : Sound placeholders rule)

include hsound

/-- A value without parts under another name than that of references is kept. -/
theorem keep_of_scalar {name : Name} (hname : name.spelling.chars ≠ "$ref".toList)
    (padding : Padding) (token : Token) (first last : Bool) :
    rule first last (name, .scalar padding token) = .keep := by
  cases hfate : rule first last (name, .scalar padding token) with
  | keep => rfl
  | drop => exact absurd (hsound.drops hfate) (not_mem_texts_scalar hproper _ _ _)
  | inline => exact absurd (hsound.inlines hfate) (not_mem_references_of_name hproper hname _)

/-- No round changes anything inside a placeholder. -/
theorem edit_of_mem_texts {member : Name × Written} (h : memberCore member ∈ texts placeholders) :
    edit rule member.2 = member.2 := by
  obtain ⟨placeholder, -, -, hdescribes⟩ := describes_of_mem_texts hproper h
  obtain ⟨padding, inner, typeName, typePadding, typeText, titleName, titlePadding, titleText,
    hvalue, htype, htitle, -, -⟩ := hdescribes.shape
  have htypeName : typeName.spelling.chars ≠ "$ref".toList := by
    rw [htype]
    decide
  have htitleName : titleName.spelling.chars ≠ "$ref".toList := by
    rw [htitle]
    decide
  rw [hvalue, edit, editMembers, keep_of_scalar hproper hsound htypeName, editMembers,
    keep_of_scalar hproper hsound htitleName]
  rfl

omit hsound in
/-- No round changes anything inside a reference. -/
theorem edit_of_mem_references {member : Name × Written}
    (h : memberCore member ∈ references placeholders) : edit rule member.2 = member.2 := by
  obtain ⟨-, -, -, padding, spelling, hvalue, -⟩ := scalar_of_mem_references hproper h
  rw [hvalue]
  rfl

end

/-! ## Documents that can be edited -/

/--
A member that the rounds do not confuse with another: its name has no quotes in it, a placeholder
has no blanks around it, and what is no placeholder does not come to look like one.
-/
structure Orderly (placeholders : List Placeholder) (member : Name × Written) : Prop where
  name : '"' ∉ member.1.spelling.chars
  tidy : memberCore member ∈ texts placeholders →
    member.1.before.chars = [] ∧ member.2.padding.after.chars = []
  steady : memberCore (member.1, normalise placeholders member.2) ∈ texts placeholders →
    memberCore member ∈ texts placeholders

/-- All members of a document are orderly. -/
def Ready (placeholders : List Placeholder) (written : Written) : Prop :=
  written.Every fun members => ∀ member ∈ members, Orderly placeholders member

instance (placeholders : List Placeholder) (member : Name × Written) :
    Decidable (Orderly placeholders member) :=
  decidable_of_iff ('"' ∉ member.1.spelling.chars ∧
      (memberCore member ∈ texts placeholders →
        member.1.before.chars = [] ∧ member.2.padding.after.chars = []) ∧
      (memberCore (member.1, normalise placeholders member.2) ∈ texts placeholders →
        memberCore member ∈ texts placeholders))
    ⟨fun h => ⟨h.1, h.2.1, h.2.2⟩, fun h => ⟨h.name, h.tidy, h.steady⟩⟩

instance (placeholders : List Placeholder) (written : Written) :
    Decidable (Ready placeholders written) := inferInstanceAs (Decidable (written.Every _))

/-- What is left of a member when it is normalised, if anything is. -/
def normalised (placeholders : List Placeholder) (member : Name × Written) :
    Option (Name × Written) :=
  if memberCore member ∈ texts placeholders then none
  else if memberCore member ∈ references placeholders then some (inlined member)
  else some (member.1, normalise placeholders member.2)

theorem normalise_object (padding : Padding) (inner : Blanks) (members : List (Name × Written)) :
    normalise placeholders (.object padding inner members) =
      .object padding inner (members.filterMap (normalised placeholders)) := by
  -- the rule does not ask where a member stands, so it is a filter
  have hmembers : ∀ (first : Bool) (members : List (Name × Written)),
      editMembers (normalRule placeholders) first members =
        members.filterMap (normalised placeholders) := by
    intro first members
    induction members generalizing first with
    | nil => rfl
    | cons member rest ih =>
      rw [editMembers, List.filterMap_cons, normalised]
      have hrule : normalRule placeholders first rest.isEmpty member =
          if memberCore member ∈ texts placeholders then .drop
          else if memberCore member ∈ references placeholders then .inline else .keep := rfl
      by_cases htext : memberCore member ∈ texts placeholders
      · rw [hrule, if_pos htext, if_pos htext]
        exact ih false
      · by_cases href : memberCore member ∈ references placeholders
        · rw [hrule, if_neg htext, if_pos href, if_neg htext, if_pos href]
          exact congrArg _ (ih false)
        · rw [hrule, if_neg htext, if_neg href, if_neg htext, if_neg href, editMember_eq]
          exact congrArg _ (ih false)
  rw [normalise, edit, hmembers]

section

variable (hproper : ∀ placeholder ∈ placeholders, placeholder.Proper) {rule : Rule}

include hproper

/-- What has become of a member is a placeholder only if the member was that placeholder. -/
theorem mem_texts_of_edit {member : Name × Written} (horderly : Orderly placeholders member)
    (hnormal : normalise placeholders (edit rule member.2) = normalise placeholders member.2)
    (h : memberCore (member.1, edit rule member.2) ∈ texts placeholders) :
    memberCore member ∈ texts placeholders := by
  refine horderly.steady ?_
  have hfixed : normalise placeholders (edit rule member.2) = edit rule member.2 :=
    edit_of_mem_texts hproper sound_normalRule h
  rw [← hnormal, hfixed]
  exact h

/-- What has become of a member is a reference only if the member was. -/
theorem mem_references_of_edit {member : Name × Written}
    (h : memberCore (member.1, edit rule member.2) ∈ references placeholders) :
    memberCore member ∈ references placeholders := by
  obtain ⟨-, -, -, padding, spelling, hvalue, -⟩ := scalar_of_mem_references hproper h
  obtain ⟨name, value⟩ := member
  cases value with
  | scalar => exact h
  | array => cases hvalue
  | object => cases hvalue

variable (hsound : Sound placeholders rule)

include hsound

/-- Normalising a member that was kept in a round gives what normalising it gives. -/
theorem normalised_keep {member : Name × Written} (horderly : Orderly placeholders member)
    (hnormal : normalise placeholders (edit rule member.2) = normalise placeholders member.2) :
    normalised placeholders (member.1, edit rule member.2) = normalised placeholders member := by
  -- placeholders and references to them are themselves left as they are
  have hsame : memberCore member ∈ texts placeholders ∨
      memberCore member ∈ references placeholders → (member.1, edit rule member.2) = member := by
    rintro (h | h)
    · rw [edit_of_mem_texts hproper hsound h]
    · rw [edit_of_mem_references hproper h]
  by_cases htext : memberCore member ∈ texts placeholders
  · rw [hsame (.inl htext)]
  · by_cases href : memberCore member ∈ references placeholders
    · rw [hsame (.inr href)]
    · have htext' := fun h => htext (mem_texts_of_edit hproper horderly hnormal h)
      have href' : memberCore (member.1, edit rule member.2) ∉ references placeholders :=
        fun h => href (mem_references_of_edit hproper h)
      rw [normalised, normalised, if_neg htext, if_neg htext', if_neg href, if_neg href', hnormal]

omit hsound in
theorem normalised_inlined (member : Name × Written) :
    normalised placeholders (inlined member) = some (inlined member) := by
  obtain ⟨htext, href⟩ := not_mem_inlined hproper member
  rw [normalised, if_neg htext, if_neg href]
  rfl

/-- Normalising after a round gives what normalising before it gives. -/
theorem normalise_edit {written : Written} (hready : Ready placeholders written) :
    normalise placeholders (edit rule written) = normalise placeholders written := by
  induction written with
  | scalar padding token => rfl
  | array padding inner items ih =>
    have hitems : (items.map (edit rule)).map (normalise placeholders) =
        items.map (normalise placeholders) := by
      rw [List.map_map]
      exact List.map_congr_left fun item hitem => ih item hitem (hready.items item hitem)
    rw [edit_array, normalise, edit_array, edit_array]
    exact congrArg _ hitems
  | object padding inner members ih =>
    have horderly := hready.here
    -- the values first; then the members, one after the other
    have hnormal : ∀ member ∈ members,
        normalise placeholders (edit rule member.2) = normalise placeholders member.2 :=
      fun member hmember => ih member hmember (hready.inside member hmember)
    have hmembers : ∀ (first : Bool), (editMembers rule first members).filterMap
        (normalised placeholders) = members.filterMap (normalised placeholders) := by
      clear hready ih
      intro first
      induction members generalizing first with
      | nil => rfl
      | cons member rest ih =>
        have hrest := ih (fun other ho => horderly other (List.mem_cons_of_mem _ ho))
          (fun other ho => hnormal other (List.mem_cons_of_mem _ ho)) false
        have hkeep := normalised_keep hproper hsound (horderly member List.mem_cons_self)
          (hnormal member List.mem_cons_self)
        rw [editMembers, List.filterMap_cons]
        cases hfate : rule first rest.isEmpty member with
        | keep =>
          rw [List.filterMap_cons, editMember_eq, hkeep, hrest]
        | drop =>
          have hnone : normalised placeholders member = none := if_pos (hsound.drops hfate)
          rw [hnone]
          exact hrest
        | inline =>
          -- what is inlined now would be inlined later, and stays what it became
          have href := hsound.inlines hfate
          have htext : memberCore member ∉ texts placeholders := by
            obtain ⟨-, -, -, padding, spelling, hvalue, -⟩ := scalar_of_mem_references hproper href
            obtain ⟨name, value⟩ := member
            obtain rfl : value = _ := hvalue
            exact not_mem_texts_scalar hproper _ _ _
          have hsome : normalised placeholders member = some (inlined member) := by
            rw [normalised, if_neg htext, if_pos href]
          rw [List.filterMap_cons, normalised_inlined hproper, hsome, hrest]
    rw [edit, normalise_object, normalise_object, hmembers]

/-- A round leaves a document that can be edited. -/
theorem ready_edit {written : Written} (hready : Ready placeholders written) :
    Ready placeholders (edit rule written) := by
  induction written with
  | scalar => exact .scalar
  | array padding inner items ih =>
    rw [edit_array]
    refine .array fun item hitem => ?_
    obtain ⟨original, horiginal, rfl⟩ := List.mem_map.mp hitem
    exact ih original horiginal (hready.items original horiginal)
  | object padding inner members ih =>
    have hkept : ∀ member ∈ members, Orderly placeholders (member.1, edit rule member.2) := by
      intro member hmember
      have horderly := hready.here member hmember
      have hnormal := normalise_edit hproper hsound (hready.inside member hmember)
      have hback := mem_texts_of_edit hproper horderly hnormal
      constructor
      case name => exact horderly.name
      case tidy =>
        rw [padding_edit]
        exact fun h => horderly.tidy (hback h)
      case steady =>
        intro h
        rw [hnormal] at h
        have htext := horderly.steady h
        rw [edit_of_mem_texts hproper hsound htext]
        exact htext
    have hinlined : ∀ member ∈ members, Orderly placeholders (inlined member) := by
      intro member _
      obtain ⟨htext, -⟩ := not_mem_inlined hproper member
      have hname : '"' ∉ "type".toList := by decide
      exact ⟨hname, fun h => absurd h htext, fun h => absurd h htext⟩
    -- a member that is left was kept or inlined
    refine .object (fun edited hedited => ?_) fun edited hedited => ?_
    · obtain ⟨member, hmember, _, _, ⟨-, rfl⟩ | ⟨-, rfl⟩⟩ := mem_editMembers hedited
      · exact hkept member hmember
      · exact hinlined member hmember
    · obtain ⟨member, hmember, _, _, ⟨-, rfl⟩ | ⟨-, rfl⟩⟩ := mem_editMembers hedited
      · exact ih member hmember (hready.inside member hmember)
      · exact .scalar

end

end ApiClient.Document
