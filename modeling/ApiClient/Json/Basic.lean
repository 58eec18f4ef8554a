import ApiClient.Binary64.Basic

/-!
# JSON values

A document as it was written: the members of an object keep their order, and a whole number is told
from a double. No object that is read or built here names a member twice.
-/

namespace ApiClient

/-- A JSON value. -/
inductive Json where
  | null
  | bool (value : Bool)
  | int (value : Int)
  | double (value : Binary64)
  | string (value : String)
  | array (items : List Json)
  | object (members : List (String × Json))

namespace Json

/-- Null, false, zero and whatever is empty: values that stand for nothing given. -/
def isBlank : Json → Bool
  | null => true
  | bool value => !value
  | int value => value == 0
  | double value => value.isZero
  | string value => value.isEmpty
  | array items => items.isEmpty
  | object members => members.isEmpty

/-- A value, or another in its place when it stands for nothing given. -/
def orElse (value fallback : Json) : Json :=
  if value.isBlank then fallback else value

/-! ## Members by name -/

/-- The value that an association list gives to `key`. -/
def lookup? (key : String) : List (String × Json) → Option Json
  | [] => none
  | (name, value) :: rest => if name = key then some value else lookup? key rest

/-- Gives `key` a value: in the place it already has, or at the end. -/
def put (key : String) (value : Json) : List (String × Json) → List (String × Json)
  | [] => [(key, value)]
  | (name, old) :: rest =>
    if name = key then (name, value) :: rest else (name, old) :: put key value rest

/-- The names in an association list. -/
def names (members : List (String × Json)) : List String := members.map (·.1)

theorem lookup?_eq_none_iff {key : String} {members : List (String × Json)} :
    lookup? key members = none ↔ key ∉ names members := by
  induction members with
  | nil => simp [lookup?, names]
  | cons member rest ih =>
    obtain ⟨name, value⟩ := member
    simp only [lookup?, names, List.map_cons, List.mem_cons, not_or]
    split
    · rename_i h
      simp [h]
    · rename_i h
      rw [ih]
      exact ⟨fun hr => ⟨fun he => h he.symm, hr⟩, fun hr => hr.2⟩

theorem mem_of_lookup?_eq_some {key : String} {value : Json} {members : List (String × Json)}
    (h : lookup? key members = some value) : (key, value) ∈ members := by
  induction members with
  | nil => simp [lookup?] at h
  | cons member rest ih =>
    obtain ⟨name, other⟩ := member
    simp only [lookup?] at h
    split at h
    · rename_i hn
      obtain rfl := Option.some.inj h
      exact hn ▸ List.mem_cons_self
    · exact List.mem_cons_of_mem _ (ih h)

/-- A member is smaller than the members of its object, which lets definitions recurse into it. -/
theorem sizeOf_lt_of_lookup? {key : String} {value : Json} {members : List (String × Json)}
    (h : lookup? key members = some value) : sizeOf value < sizeOf members := by
  have hmem := List.sizeOf_lt_of_mem (mem_of_lookup?_eq_some h)
  simp only [Prod.mk.sizeOf_spec] at hmem
  omega

/-- Putting a member adds its name at the end unless it is there. -/
theorem names_put (key : String) (value : Json) (members : List (String × Json)) :
    names (put key value members) =
      if key ∈ names members then names members else names members ++ [key] := by
  induction members with
  | nil => simp [put, names]
  | cons member rest ih =>
    obtain ⟨name, other⟩ := member
    simp only [put]
    split
    · rename_i h
      simp [names, h]
    · rename_i h
      have h' : ¬ key = name := fun he => h he.symm
      simp only [names, List.map_cons, List.mem_cons, h', false_or] at ih ⊢
      rw [ih]
      split <;> simp_all

end Json

end ApiClient
