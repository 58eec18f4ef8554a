import ApiClient.Json.Basic

/-!
# Properties of every object in a value

Much of what is asked of a document is asked of the members of each object in it, however deep:
that no name is repeated, that no name has a certain character. `Everywhere` says so for any
property of a list of members.
-/

namespace ApiClient.Json

mutual

/-- The members of every object in a value have the property `P`. -/
def Everywhere (P : List (String × Json) → Prop) : Json → Prop
  | array items => EverywhereItems P items
  | object members => P members ∧ EverywhereMembers P members
  | _ => True
termination_by structural value => value

/-- The members of every object in some items have the property. -/
def EverywhereItems (P : List (String × Json) → Prop) : List Json → Prop
  | [] => True
  | item :: rest => Everywhere P item ∧ EverywhereItems P rest
termination_by structural items => items

/-- The members of every object inside some members have the property. -/
def EverywhereMembers (P : List (String × Json) → Prop) : List (String × Json) → Prop
  | [] => True
  | entry :: rest => EverywhereMember P entry ∧ EverywhereMembers P rest
termination_by structural members => members

/-- The members of every object inside one member have the property. -/
def EverywhereMember (P : List (String × Json) → Prop) : String × Json → Prop
  | (_, value) => Everywhere P value
termination_by structural entry => entry

end

variable {P : List (String × Json) → Prop}

theorem everywhereItems_iff {items : List Json} :
    EverywhereItems P items ↔ ∀ item ∈ items, Everywhere P item := by
  induction items with
  | nil => simp [EverywhereItems]
  | cons item rest ih => simp [EverywhereItems, ih]

theorem everywhereMembers_iff {members : List (String × Json)} :
    EverywhereMembers P members ↔ ∀ entry ∈ members, Everywhere P entry.2 := by
  induction members with
  | nil => simp [EverywhereMembers]
  | cons entry rest ih =>
    obtain ⟨name, value⟩ := entry
    simp [EverywhereMembers, EverywhereMember, ih]

/-- A property of every object in an array is one of every object in its items. -/
theorem everywhere_array {items : List Json} :
    Everywhere P (array items) ↔ ∀ item ∈ items, Everywhere P item := by
  rw [Everywhere, everywhereItems_iff]

/-- A property of every object in an object is one of its own members and of those inside them. -/
theorem everywhere_object {members : List (String × Json)} :
    Everywhere P (object members) ↔ P members ∧ ∀ entry ∈ members, Everywhere P entry.2 := by
  rw [Everywhere, everywhereMembers_iff]

mutual

/-- A property that can be decided for one list of members can be decided for all in a value. -/
def decideEverywhere [DecidablePred P] : (value : Json) → Decidable (Everywhere P value)
  | null => .isTrue trivial
  | bool _ => .isTrue trivial
  | int _ => .isTrue trivial
  | double _ => .isTrue trivial
  | string _ => .isTrue trivial
  | array items => decideEverywhereItems items
  | object members =>
    @instDecidableAnd (P members) _ _ (decideEverywhereMembers members)
termination_by structural value => value

def decideEverywhereItems [DecidablePred P] :
    (items : List Json) → Decidable (EverywhereItems P items)
  | [] => .isTrue trivial
  | item :: rest =>
    @instDecidableAnd _ _ (decideEverywhere item) (decideEverywhereItems rest)
termination_by structural items => items

def decideEverywhereMembers [DecidablePred P] :
    (members : List (String × Json)) → Decidable (EverywhereMembers P members)
  | [] => .isTrue trivial
  | entry :: rest =>
    @instDecidableAnd _ _ (decideEverywhereMember entry) (decideEverywhereMembers rest)
termination_by structural members => members

def decideEverywhereMember [DecidablePred P] :
    (entry : String × Json) → Decidable (EverywhereMember P entry)
  | (_, value) => decideEverywhere value
termination_by structural entry => entry

end

instance [DecidablePred P] (value : Json) : Decidable (Everywhere P value) :=
  decideEverywhere value

/-- No object in a value names a member twice. -/
def NamesOnce (value : Json) : Prop := value.Everywhere fun members => (names members).Nodup

instance (value : Json) : Decidable value.NamesOnce :=
  inferInstanceAs (Decidable (value.Everywhere _))

/-- A name that stands once leads to the value that stands beside it. -/
theorem lookup?_of_mem {key : String} {value : Json} :
    ∀ {members : List (String × Json)}, (names members).Nodup → (key, value) ∈ members →
      lookup? key members = some value := by
  intro members
  induction members with
  | nil => intro _ h; exact absurd h List.not_mem_nil
  | cons entry rest ih =>
    obtain ⟨name, other⟩ := entry
    intro hnd h
    simp only [names, List.map_cons, List.nodup_cons] at hnd
    simp only [lookup?]
    rcases List.mem_cons.mp h with he | h
    · obtain ⟨rfl, rfl⟩ := Prod.mk.inj he
      rw [if_pos rfl]
    · have hne : name ≠ key := fun he =>
        hnd.1 (List.mem_map.mpr ⟨(key, value), h, he.symm⟩)
      rw [if_neg hne]
      exact ih hnd.2 h

/-- Where each name stands once, the order of members does not matter to what is looked up. -/
theorem lookup?_perm {members reordered : List (String × Json)} (hnd : (names members).Nodup)
    (hperm : reordered.Perm members) (key : String) :
    lookup? key reordered = lookup? key members := by
  have hnames : (names reordered).Perm (names members) := hperm.map _
  cases h : lookup? key members with
  | none =>
    rw [lookup?_eq_none_iff] at h ⊢
    exact fun hmem => h (hnames.mem_iff.mp hmem)
  | some value =>
    exact lookup?_of_mem (hnames.nodup_iff.mpr hnd) (hperm.mem_iff.mpr (mem_of_lookup?_eq_some h))

end ApiClient.Json
