import ApiClient.Operation.Name
import Mathlib.Data.List.Nodup
import Mathlib.Data.List.Perm.Subperm
import Std.Data.String.ToNat

/-!
# Names that are told apart

Numbering the names of a controller's methods makes them pairwise distinct. The argument is
about one step: `Numbering.take` answers a name that was free and takes it. That a free number
is found at all is a count, since one more number is tried than there are names taken.
-/

namespace ApiClient.Operation

/-- Different numbers make different names. -/
theorem numbered_injective (name : String) : Function.Injective (numbered name) := by
  intro m n h
  have hdigits : toString m = toString n := by
    have := congrArg String.toList h
    simp only [numbered, String.toList_append] at this
    exact String.toList_injective (List.append_cancel_left this)
  exact Nat.repr_injective hdigits

/-- Among one more number than there are names taken, one makes a free name. -/
theorem exists_free (taken : List String) (name : String) (last : Nat) :
    ∃ n ∈ List.range' (last + 1) (taken.length + 1), numbered name n ∉ taken := by
  by_contra hall
  have hsub : (List.range' (last + 1) (taken.length + 1)).map (numbered name) ⊆ taken := by
    intro candidate hc
    obtain ⟨n, hn, rfl⟩ := List.mem_map.mp hc
    by_contra hfree
    exact hall ⟨n, hn, hfree⟩
  have hnd : ((List.range' (last + 1) (taken.length + 1)).map (numbered name)).Nodup :=
    List.Nodup.map (numbered_injective name) List.nodup_range'
  have hle := (List.subperm_of_subset hnd hsub).length_le
  simp only [List.length_map, List.length_range'] at hle
  omega

/-- The number that is found makes a free name. -/
theorem numbered_firstFree (taken : List String) (name : String) (last : Nat) :
    numbered name (firstFree taken name last) ∉ taken := by
  obtain ⟨n, hn, hfree⟩ := exists_free taken name last
  unfold firstFree
  cases hfind : (List.range' (last + 1) (taken.length + 1)).find?
      fun n => !taken.contains (numbered name n) with
  | none =>
    have := List.find?_eq_none.mp hfind n hn
    simp [hfree] at this
  | some found =>
    have := List.find?_some hfind
    simpa using this

namespace Numbering

/-- The name that is answered was free. -/
theorem take_free (numbering : Numbering) (name : String) :
    (numbering.take name).1 ∉ numbering.taken := by
  unfold take
  split
  · exact numbered_firstFree _ _ _
  · rename_i h
    simpa using h

/-- The name that is answered is taken from then on, and no other. -/
theorem take_taken (numbering : Numbering) (name : String) :
    (numbering.take name).2.taken = (numbering.take name).1 :: numbering.taken := by
  unfold take
  split <;> rfl

end Numbering

/-- Numbered names are distinct from each other and from all names taken before. -/
theorem numberFrom_distinct : ∀ (names : List String) (numbering : Numbering),
    (numberFrom numbering names).Nodup ∧
      ∀ name ∈ numberFrom numbering names, name ∉ numbering.taken := by
  intro names
  induction names with
  | nil =>
    intro numbering
    exact ⟨List.nodup_nil, fun _ h => absurd h List.not_mem_nil⟩
  | cons name rest ih =>
    intro numbering
    obtain ⟨hnd, hfree⟩ := ih (numbering.take name).2
    rw [Numbering.take_taken] at hfree
    simp only [numberFrom]
    refine ⟨List.nodup_cons.mpr ⟨fun hmem => ?_, hnd⟩, ?_⟩
    · exact hfree _ hmem List.mem_cons_self
    · intro other hother
      rcases List.mem_cons.mp hother with rfl | hother
      · exact numbering.take_free name
      · exact fun htaken => hfree _ hother (List.mem_cons_of_mem _ htaken)

theorem length_numberFrom : ∀ (names : List String) (numbering : Numbering),
    (numberFrom numbering names).length = names.length := by
  intro names
  induction names with
  | nil => intro _; rfl
  | cons name rest ih => intro numbering; simp [numberFrom, ih]

/-- **The methods of a controller have pairwise distinct names.** -/
theorem nodup_distinctNames (names : List String) : (distinctNames names).Nodup :=
  (numberFrom_distinct names _).1

theorem length_distinctNames (names : List String) :
    (distinctNames names).length = names.length :=
  length_numberFrom names _

end ApiClient.Operation
