import ApiClient.Proofs.Method.Reads
import ApiClient.Proofs.Parameter.Declared

/-!
# The keys of a parameter interface

A parameter is told apart by its name and its location, and where it is gathered only its
group is in sight. An interface has the parameters of all locations side by side, and a
member has no location: its key is made of its name alone. So a name has one member for each
location at which it is kept.
-/

namespace ApiClient

namespace TypeScript

/-- Names that are quoted can be told apart, from one another and from those that are not. -/
theorem propertyKey_injective : Function.Injective propertyKey := by
  -- a quoted key begins with a quote, and no identifier does
  have hquoted : ∀ name other, isPropertyName name = true → name ≠ singleQuoted other := by
    rintro name other h rfl
    rw [isPropertyName, singleQuoted, String.append_assoc, String.toList_append] at h
    exact absurd h (by simp [isIdentifier, isIdentifierStart])
  intro name other h
  unfold propertyKey at h
  split at h <;> split at h
  case isTrue.isTrue => exact h
  case isTrue.isFalse hname _ => exact absurd h (hquoted name other hname)
  case isFalse.isTrue hother => exact absurd h.symm (hquoted other name hother)
  case isFalse.isFalse =>
    have hchars := congrArg String.toList h
    simp only [singleQuoted, String.toList_append, List.append_assoc] at hchars
    exact String.toList_injective (List.append_cancel_right (List.append_cancel_left hchars))

end TypeScript

namespace Parameter

/-- The key of a parameter in an interface. -/
def key (parameter : Parameter) : String := TypeScript.propertyKey parameter.name

/-- The keys of an interface, in order. -/
def Interface.keys (declared : Interface) : List String :=
  declared.fields.map (·.parameter.key)

/-- The locations at which a name stands. -/
def locationsOf (name : String) (parameters : List Parameter) : List Location :=
  (parameters.filter (·.name = name)).map (·.location)

section

variable {parameters : List Parameter}

/-- A name stands at a location once if the parameters can be told apart. -/
theorem nodup_locationsOf (hnd : (parameters.map identity).Nodup) (name : String) :
    (locationsOf name parameters).Nodup := by
  -- among parameters of one name, the identity is told apart by the location alone
  have hfound : ((parameters.filter (·.name = name)).map identity).Nodup :=
    hnd.sublist (List.filter_sublist.map _)
  refine List.Nodup.of_map (name, ·) ?_
  rw [locationsOf, List.map_map]
  refine Eq.subst (List.map_congr_left fun parameter hparameter => ?_) hfound
  obtain ⟨-, hname⟩ := List.mem_filter.mp hparameter
  exact Prod.ext (of_decide_eq_true hname) rfl

/-- A name has a key for each location at which it stands. -/
theorem count_keys (name : String) (parameters : List Parameter) :
    (parameters.map key).count (TypeScript.propertyKey name) =
      (locationsOf name parameters).length := by
  rw [locationsOf, List.length_map, List.count, List.countP_map, List.countP_eq_length_filter]
  refine congrArg List.length (List.filter_congr fun parameter _ => ?_)
  rw [Function.comp_apply, key, Bool.eq_iff_iff, beq_iff_eq, decide_eq_true_iff]
  exact TypeScript.propertyKey_injective.eq_iff

/-- The keys are apart just if no name stands at two locations. -/
theorem nodup_keys_iff (hnd : (parameters.map identity).Nodup) :
    (parameters.map key).Nodup ↔
      ∀ p ∈ parameters, ∀ q ∈ parameters, p.name = q.name → p.location = q.location := by
  constructor
  · intro hkeys p hp q hq hname
    exact congrArg location (List.inj_on_of_nodup_map hkeys hp hq
      (congrArg TypeScript.propertyKey hname))
  · intro hone
    refine (hnd.of_map _).map_on fun p hp q hq hkey => ?_
    have hname := TypeScript.propertyKey_injective hkey
    exact List.inj_on_of_nodup_map hnd hp hq (Prod.ext hname (hone p hp q hq hname))

end

end Parameter

namespace Method

/-- The keys of the interface that a method declares. -/
structure KeysOf (code : Code) (kept : List Parameter) : Prop where
  /-- A member of the interface is written under the key of its parameter. -/
  members : ∀ field ∈ code.declared.fields, ∃ comment,
    field.text = comment ++ field.parameter.key ++ field.mark ++ ": " ++ field.type.text ++ ";"
  /-- What is kept has a key, and there are no others. -/
  covered : code.declared.keys = kept.map (·.key)
  /-- A name has a key for each location at which it is kept. -/
  counted : ∀ name, (Parameter.locationsOf name kept).Nodup ∧
    code.declared.keys.count (TypeScript.propertyKey name) =
      (Parameter.locationsOf name kept).length
  /-- Every key stands once just if no name is kept at two locations. -/
  once : code.declared.keys.Nodup ↔
    ∀ p ∈ kept, ∀ q ∈ kept, p.name = q.name → p.location = q.location
  /-- What is gathered at one location is copied once, whatever is kept. -/
  gathered : ∀ statement ∈ code.statements, statement.reads.Nodup

/--
**How often an interface declares a key.** Where the parameters of a method can be told
apart by name and location, its interface has a key for each location at which a name is
kept. So a key is declared twice if a name is kept at two locations, though the objects that
are gathered never repeat one.
-/
theorem keysOf_of_compile {policy : Policy} {method : Method} {code : Code}
    (hnd : ((method.parameters.getD []).map Parameter.identity).Nodup)
    (h : compile policy method = .ok code) : KeysOf code (kept policy method) := by
  have hcode := compiled_of_compile h
  have hkept : ((kept policy method).map Parameter.identity).Nodup :=
    hnd.sublist (List.filter_sublist.map _)
  -- a member is made of each parameter that is kept
  have hkeys : code.declared.keys = (kept policy method).map (·.key) := by
    rw [← hcode.declared_parameters, List.map_map]
    rfl
  constructor
  case members => exact fun field _ => ⟨_, rfl⟩
  case covered => exact hkeys
  case counted =>
    intro name
    exact ⟨Parameter.nodup_locationsOf hkept name, hkeys ▸ Parameter.count_keys name _⟩
  case once => exact hkeys ▸ Parameter.nodup_keys_iff hkept
  case gathered =>
    intro statement hstatement
    obtain ⟨location, group, -, hmade⟩ := hcode.exists_group hstatement
    rw [(Statement.made_of_ofGroup hmade).1]
    exact nodup_eraseDups _

/-- A method with a parameter in the path and one of the same name in the query. -/
def lookUp : Method where
  url := "/pets/{id}"
  name := "lookUp"
  verb := "get"
  basePath := ""
  response := .void
  summary := .null
  description := .null
  docLink := ""
  parameters :=
    let text : Json := .object [("type", .string "string")]
    some [⟨"id", .path, true, .null, text, none⟩, ⟨"id", .query, false, .null, text, none⟩]

theorem not_nodup_keys_lookUp :
    ∃ code, compile ⟨standardLocations, Arguments.standardSources, false⟩ lookUp = .ok code ∧
      code.declared.keys.count "id" = 2 ∧ ¬ code.declared.keys.Nodup := by
  have htext : ∃ type, Schema.resolve (.object [("type", .string "string")]) = .ok type :=
    ⟨_, by rw [Schema.resolve]; rfl⟩
  obtain ⟨code, hcode⟩ : ∃ code,
      compile ⟨standardLocations, Arguments.standardSources, false⟩ lookUp = .ok code :=
    exists_compile_of_schema (n := 2) htext rfl
  have hkeys := keysOf_of_compile (by decide) hcode
  refine ⟨code, hcode, (hkeys.counted "id").2, fun hnd => ?_⟩
  have hone := hkeys.once.mp hnd _ List.mem_cons_self _ (List.mem_cons_of_mem _ List.mem_cons_self)
  exact absurd (hone rfl) (by decide)

end Method

end ApiClient
