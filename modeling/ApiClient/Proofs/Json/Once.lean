import ApiClient.Proofs.Json.Everywhere
import ApiClient.Proofs.Json.Written
import Mathlib.Data.List.Nodup

/-!
# Members put one after the other

The members of an object are put in their places in the order in which they were written, and a
name that stands twice keeps its later value alone. Where every name stands once, an object has
just the members that were written.
-/

namespace ApiClient.Json

/-- The members of an object that are written one after the other. -/
def merged (entries : List (String × Json)) : List (String × Json) :=
  entries.foldl (fun done entry => put entry.1 entry.2 done) []

theorem mem_of_mem_put {key : String} {value : Json} {members : List (String × Json)}
    {entry : String × Json} (h : entry ∈ put key value members) :
    entry = (key, value) ∨ entry ∈ members := by
  induction members with
  | nil => exact .inl (List.mem_singleton.mp h)
  | cons first rest ih =>
    obtain ⟨name, old⟩ := first
    rw [put] at h
    by_cases hname : name = key
    · rw [if_pos hname] at h
      rcases List.mem_cons.mp h with h | h
      · exact .inl (hname ▸ h)
      · exact .inr (List.mem_cons_of_mem _ h)
    · rw [if_neg hname] at h
      rcases List.mem_cons.mp h with h | h
      · exact .inr (h ▸ List.mem_cons_self)
      · rcases ih h with h | h
        · exact .inl h
        · exact .inr (List.mem_cons_of_mem _ h)

theorem put_of_new {key : String} {value : Json} {members : List (String × Json)}
    (h : key ∉ names members) : put key value members = members ++ [(key, value)] := by
  induction members with
  | nil => rfl
  | cons first rest ih =>
    obtain ⟨name, old⟩ := first
    have hname : ¬ name = key := fun he => h (he ▸ List.mem_cons_self)
    rw [put, if_neg hname, ih fun hr => h (List.mem_cons_of_mem _ hr)]
    rfl

section

variable {entries : List (String × Json)}

/-- Nothing is in an object but what was written. -/
theorem mem_of_mem_merged {entry : String × Json} (h : entry ∈ merged entries) :
    entry ∈ entries := by
  -- over any members that are done already, for the induction
  have hfold : ∀ done, entry ∈ entries.foldl (fun done entry => put entry.1 entry.2 done) done →
      entry ∈ done ∨ entry ∈ entries := by
    clear h
    induction entries with
    | nil => exact fun done h => .inl h
    | cons first rest ih =>
      intro done h
      rcases ih _ h with h | h
      · rcases mem_of_mem_put h with rfl | h
        · exact .inr List.mem_cons_self
        · exact .inl h
      · exact .inr (List.mem_cons_of_mem _ h)
  rcases hfold [] h with h | h
  · exact absurd h List.not_mem_nil
  · exact h

/-- Every name that was written leads to a member. -/
theorem mem_names_merged {name : String} (h : name ∈ names entries) :
    name ∈ names (merged entries) := by
  -- a name that has been put stays, whatever is put later
  have hfold : ∀ done, name ∈ names done ∨ name ∈ names entries →
      name ∈ names (entries.foldl (fun done entry => put entry.1 entry.2 done) done) := by
    clear h
    induction entries with
    | nil =>
      intro done h
      rcases h with h | h
      · exact h
      · exact absurd h List.not_mem_nil
    | cons first rest ih =>
      intro done h
      refine ih _ ?_
      rw [names_put]
      rcases h with h | h
      · left
        split
        · exact h
        · exact List.mem_append_left _ h
      · rcases List.mem_cons.mp h with rfl | h
        · left
          split
          · assumption
          · exact List.mem_append_right _ List.mem_cons_self
        · exact .inr h
  exact hfold [] (.inr h)

/-- No name stands twice in an object. -/
theorem nodup_names_merged (entries : List (String × Json)) : (names (merged entries)).Nodup := by
  -- over any members that are done already, for the induction
  have hfold : ∀ done, (names done).Nodup →
      (names (entries.foldl (fun done entry => put entry.1 entry.2 done) done)).Nodup := by
    induction entries with
    | nil => exact fun done h => h
    | cons first rest ih =>
      intro done h
      refine ih _ ?_
      rw [names_put]
      split
      · exact h
      · rename_i hnew
        rw [List.nodup_append]
        refine ⟨h, List.nodup_singleton _, fun name hname other hother he => hnew ?_⟩
        rw [← List.mem_singleton.mp hother, ← he]
        exact hname
  exact hfold [] List.nodup_nil

/-- Members of which no two have one name are the members of their object. -/
theorem merged_of_nodup (h : (names entries).Nodup) : merged entries = entries := by
  -- over any members that are done already, for the induction
  have hfold : ∀ done, (names (done ++ entries)).Nodup →
      entries.foldl (fun done entry => put entry.1 entry.2 done) done = done ++ entries := by
    clear h
    induction entries with
    | nil => exact fun done _ => (List.append_nil done).symm
    | cons first rest ih =>
      intro done h
      have hsplit : done ++ first :: rest = (done ++ [first]) ++ rest := by simp
      have hnew : first.1 ∉ names done := by
        rw [names, List.map_append, List.nodup_append] at h
        exact fun hmem => h.2.2 _ hmem first.1 List.mem_cons_self rfl
      rw [List.foldl_cons, put_of_new hnew, hsplit]
      rw [hsplit] at h
      exact ih _ h
  exact hfold [] h

end

namespace Written

/-- The name of a member, as it is read. -/
def nameOf (member : Name × Written) : String := member.1.spelling.text

theorem memberValue_eq (member : Name × Written) :
    memberValue member = (nameOf member, member.2.value) := by
  cases member
  rfl

theorem names_memberValues (members : List (Name × Written)) :
    names (members.map memberValue) = members.map nameOf := by
  rw [names, List.map_map]
  exact List.map_congr_left fun member _ => by rw [Function.comp, memberValue_eq]

/-- No two members of an object have one name. -/
def Once (members : List (Name × Written)) : Prop := (members.map nameOf).Nodup

instance (members : List (Name × Written)) : Decidable (Once members) :=
  inferInstanceAs (Decidable (List.Nodup _))

/-- A member is known by its name. -/
theorem Once.eq_of_name {members : List (Name × Written)} (h : Once members)
    {member other : Name × Written} (hmember : member ∈ members) (hother : other ∈ members)
    (hname : nameOf member = nameOf other) : member = other :=
  List.inj_on_of_nodup_map h hmember hother hname

theorem value_object_eq (padding : Padding) (inner : Blanks) (members : List (Name × Written)) :
    value (object padding inner members) = .object (merged (members.map memberValue)) := by
  rw [value, memberValues_eq]
  rfl

/-- An object in which every name stands once has the members that were written. -/
theorem value_object {padding : Padding} {inner : Blanks} {members : List (Name × Written)}
    (h : Once members) : value (object padding inner members) =
      .object (members.map memberValue) := by
  have hnames : (names (members.map memberValue)).Nodup := by
    rw [names_memberValues]
    exact h
  rw [value_object_eq, merged_of_nodup hnames]

end Written

end ApiClient.Json
