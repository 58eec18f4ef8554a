import ApiClient.Parameter.Basic
import ApiClient.Proofs.Gather

/-!
# Groups of parameters

The parameters of a method are kept where its verb allows their location, and gathered by location.
A location has a group just if a parameter was kept there, and the group holds all of those.
-/

namespace ApiClient.Parameter

theorem addToGroup_eq (parameter : Parameter) (groups : List (Location × List Parameter)) :
    addToGroup parameter groups = gatherOne parameter.location parameter groups := by
  induction groups with
  | nil => rfl
  | cons entry rest ih =>
    obtain ⟨location, group⟩ := entry
    simp only [addToGroup, gatherOne]
    split
    · rfl
    · rw [ih]

/-- The groups are the parameters that are kept, gathered. -/
theorem groups_eq_gather (allowed : List Location) (parameters : List Parameter) :
    groups allowed parameters = gather (·.location) id (retained allowed parameters) := by
  simp only [groups, gather, addToGroup_eq, id_eq]

/-- What is kept once is kept a second time. -/
theorem retained_retained (allowed : List Location) (parameters : List Parameter) :
    retained allowed (retained allowed parameters) = retained allowed parameters := by
  simp [retained]

theorem mem_retained {allowed : List Location} {parameters : List Parameter}
    {parameter : Parameter} :
    parameter ∈ retained allowed parameters ↔
      parameter ∈ parameters ∧ parameter.location ∈ allowed := by
  simp [retained]

theorem mem_groups {allowed : List Location} {parameters : List Parameter}
    {location : Location} {group : List Parameter} :
    (location, group) ∈ groups allowed parameters ↔
      (∃ parameter ∈ retained allowed parameters, parameter.location = location) ∧
        group = (retained allowed parameters).filter (·.location = location) := by
  rw [groups_eq_gather, gather_eq, List.mem_map]
  constructor
  · rintro ⟨key, hkey, h⟩
    obtain ⟨rfl, rfl⟩ := Prod.mk.inj h
    exact ⟨List.mem_map.mp (List.mem_eraseDups.mp hkey), List.map_id _⟩
  · rintro ⟨hkey, rfl⟩
    exact ⟨location, List.mem_eraseDups.mpr (List.mem_map.mpr hkey),
      Prod.ext rfl (List.map_id _)⟩

theorem nodup_locations (allowed : List Location) (parameters : List Parameter) :
    ((groups allowed parameters).map (·.1)).Nodup := by
  rw [groups_eq_gather]
  exact nodup_keys_gather _ _ _

/-- The group of a location is the one that is listed for it. -/
theorem group?_eq_some {allowed : List Location} {parameters : List Parameter}
    {location : Location} {group : List Parameter} :
    group? location (groups allowed parameters) = some group ↔
      (location, group) ∈ groups allowed parameters :=
  lookup_eq_some_of_nodup (nodup_locations allowed parameters)

/-- A location has a group if and only if a parameter is kept there. -/
theorem group?_isSome {allowed : List Location} {parameters : List Parameter}
    {location : Location} :
    (group? location (groups allowed parameters)).isSome ↔
      ∃ parameter ∈ retained allowed parameters, parameter.location = location := by
  rw [Option.isSome_iff_exists]
  constructor
  · rintro ⟨group, h⟩
    exact (mem_groups.mp (group?_eq_some.mp h)).1
  · intro h
    exact ⟨_, group?_eq_some.mpr (mem_groups.mpr ⟨h, rfl⟩)⟩

/-- A group is not empty. -/
theorem ne_nil_of_group? {allowed : List Location} {parameters : List Parameter}
    {location : Location} {group : List Parameter}
    (h : group? location (groups allowed parameters) = some group) : group ≠ [] := by
  obtain ⟨⟨parameter, hkept, hlocation⟩, rfl⟩ := mem_groups.mp (group?_eq_some.mp h)
  exact List.ne_nil_of_mem (List.mem_filter.mpr ⟨hkept, decide_eq_true hlocation⟩)

end ApiClient.Parameter
