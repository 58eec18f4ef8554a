import ApiClient.Proofs.Method.Compile

/-!
# What the groups of parameters are made of

Parameters are gathered by location. A location has a group if it is allowed and occurs, the
groups come in the order in which their locations occur first, and within a group parameters
keep their order. So nothing that is allowed gets lost or is repeated. Compiling drops what is
not allowed before it gathers, and gathering would drop it anyway: the groups of a method are
those of all its parameters.
-/

namespace ApiClient

namespace Parameter

/-- Groups that part the parameters at the allowed locations by their location. -/
structure Partitions (allowed : List Location) (parameters : List Parameter)
    (groups : List (Location × List Parameter)) : Prop where
  /-- The locations that have a group are the allowed ones that occur. -/
  locations : ∀ location, location ∈ groups.map (·.1) ↔
    location ∈ allowed ∧ ∃ parameter ∈ parameters, parameter.location = location
  /-- Each has one group, and they come in the order in which they occur first. -/
  ordered : (groups.map (·.1)).Pairwise
    (OccursBefore ((retained allowed parameters).map (·.location)))
  /-- A group has the parameters of its location, in their order. -/
  group : ∀ location group, (location, group) ∈ groups →
    group = parameters.filter (·.location = location)
  /-- Together they have each allowed parameter as often as it occurs, and no other. -/
  whole : (groups.flatMap (·.2)).Perm (parameters.filter (·.location ∈ allowed))

theorem locations_groups (allowed : List Location) (parameters : List Parameter) :
    (groups allowed parameters).map (·.1) =
      ((retained allowed parameters).map (·.location)).eraseDups := by
  rw [groups_eq_gather, gather_eq, List.map_map]
  exact List.map_id _

/-- At an allowed location nothing is dropped. -/
theorem filter_retained {allowed : List Location} {location : Location} (h : location ∈ allowed)
    (parameters : List Parameter) : (retained allowed parameters).filter (·.location = location) =
      parameters.filter (·.location = location) := by
  rw [retained, List.filter_filter]
  refine List.filter_congr fun parameter _ => ?_
  rw [Bool.and_eq_left_iff_imp, decide_eq_true_iff, List.contains_iff_mem]
  rintro rfl
  exact h

theorem partitions_groups (allowed : List Location) (parameters : List Parameter) :
    Partitions allowed parameters (groups allowed parameters) where
  locations := by
    intro location
    rw [locations_groups, List.mem_eraseDups, List.mem_map]
    constructor
    · rintro ⟨parameter, hkept, rfl⟩
      obtain ⟨hmem, hallowed⟩ := mem_retained.mp hkept
      exact ⟨hallowed, parameter, hmem, rfl⟩
    · rintro ⟨hallowed, parameter, hmem, rfl⟩
      exact ⟨parameter, mem_retained.mpr ⟨hmem, hallowed⟩, rfl⟩
  ordered := by
    rw [locations_groups]
    exact pairwise_eraseDups _
  group := by
    intro location group hgroup
    obtain ⟨⟨parameter, hkept, rfl⟩, rfl⟩ := mem_groups.mp hgroup
    exact filter_retained (mem_retained.mp hkept).2 parameters
  whole := by
    -- gathering keeps everything, and what is gathered is what is allowed
    have hgathered := perm_gather (·.location) id (retained allowed parameters)
    rw [← groups_eq_gather, List.map_id] at hgathered
    refine hgathered.trans (.of_eq (List.filter_congr fun parameter _ => ?_))
    rw [Bool.eq_iff_iff, decide_eq_true_iff, List.contains_iff_mem]

end Parameter

namespace Method

/-- **The groups part the allowed parameters by location,** and a method that is compiled has
the groups of all its parameters, though what is not allowed was dropped before. -/
theorem partitioned_groups (allowed : List Location) (parameters : List Parameter) :
    Parameter.Partitions allowed parameters (Parameter.groups allowed parameters) ∧
      ∀ (policy : Policy) (method : Method) (code : Code), compile policy method = .ok code →
        (policy.allowed.lookup method.verb).getD [] = allowed →
        method.parameters.getD [] = parameters →
        code.groups = Parameter.groups allowed parameters := by
  refine ⟨Parameter.partitions_groups allowed parameters, ?_⟩
  rintro policy method code h rfl rfl
  exact (compiled_of_compile h).grouped

/-- A text at a location. -/
def textAt (name : String) (location : Location) : Parameter :=
  ⟨name, location, true, .null, .object [("type", .string "string")], none⟩

/-- A method whose locations come in turns. One parameter is there
twice, and one is not allowed. -/
def crossing : Method where
  url := "/pets/{id}"
  name := "crossing"
  verb := "get"
  basePath := ""
  response := .void
  summary := .null
  description := .null
  docLink := ""
  parameters := some [textAt "tag" .query, textAt "id" .path, textAt "pet" .body,
    textAt "sort" .query, textAt "tag" .query]

theorem partitioned_groups_crossing :
    ∃ code, compile ⟨standardLocations, Arguments.standardSources, false⟩ crossing = .ok code ∧
      code.groups = [
        (.query, [textAt "tag" .query, textAt "sort" .query, textAt "tag" .query]),
        (.path, [textAt "id" .path])] := by
  have htext : ∃ type, Schema.resolve (.object [("type", .string "string")]) = .ok type :=
    ⟨_, by rw [Schema.resolve]; rfl⟩
  obtain ⟨code, hcode⟩ : ∃ code,
      compile ⟨standardLocations, Arguments.standardSources, false⟩ crossing = .ok code :=
    exists_compile_of_schema (n := 4) htext rfl
  exact ⟨code, hcode, (partitioned_groups _ _).2 _ crossing code hcode rfl rfl⟩

end Method

end ApiClient
