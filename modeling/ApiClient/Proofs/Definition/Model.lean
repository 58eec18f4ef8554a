import ApiClient.Definition.Model
import ApiClient.Proofs.Response
import ApiClient.Proofs.Schema.References
import Mathlib.Data.List.Nodup
import Mathlib.Data.List.Sort
import Mathlib.Data.String.Basic

/-!
# The model has every name that is taken from it

A reference and a definition reach the name of a type from different sides: one from the end of
a path, the other from a key. Both give the key its type name, so a reference to a key of the
document leads to a name that counts, even if the definition that counts under that name is
another one. Each name that counts has a file that exports it, and the file of the model exports
all those files and nothing else.
-/

namespace ApiClient.Definition

open Json (lookup?)
open TypeScript (TypeExpr typeName)

/-! ## The names that count -/

/-- A name counts if it is not used already and some key gives it. -/
theorem mem_names_named {name : String} {seen : List String} {members : List (String × Json)} :
    name ∈ Json.names (named seen members) ↔
      name ∉ seen ∧ name ≠ "" ∧ ∃ key ∈ Json.names members, typeName key = name := by
  -- by induction on the members, for any names that were seen before them
  induction members generalizing seen with
  | nil => simp [named, Json.names]
  | cons member rest ih =>
    obtain ⟨key, schema⟩ := member
    have hnames : Json.names ((key, schema) :: rest) = key :: Json.names rest := rfl
    rw [named, hnames, List.exists_mem_cons_iff]
    split
    · -- the key is passed over, and its name is none that could count
      rename_i hskip
      have hnot : name ∉ seen → name ≠ "" → typeName key ≠ name := by
        intro hseen hne he
        rw [he] at hskip
        simp [hseen, hne] at hskip
      rw [ih]
      constructor
      · rintro ⟨hseen, hne, hkey⟩
        exact ⟨hseen, hne, .inr hkey⟩
      · rintro ⟨hseen, hne, hkey⟩
        exact ⟨hseen, hne, hkey.resolve_left (hnot hseen hne)⟩
    · rename_i hkeep
      have hnew : typeName key ∉ seen ∧ typeName key ≠ "" := by
        simpa [and_comm] using hkeep
      have hcons : Json.names ((typeName key, schema) :: named (typeName key :: seen) rest) =
          typeName key :: Json.names (named (typeName key :: seen) rest) := rfl
      rw [hcons, List.mem_cons, ih, List.mem_cons, not_or]
      by_cases he : name = typeName key
      · simp [he, hnew]
      · simp [he, Ne.symm he]

/-- A declaration of a type exports its name: the name stands behind one of the keywords. -/
def Declares (name text : String) : Prop :=
  ∃ kind ∈ ["export interface ", "export enum ", "export type "], ∃ rest,
    rest.toList.head? = some ' ' ∧ text = kind ++ (name ++ rest)

/-- A part is an object, and adds the parent that it refers to, or else its members. -/
theorem addPart_eq_ok {before after : Body} {part : Json} (h : before.addPart part = .ok after) :
    ∃ members, part = .object members ∧
      ((∃ reference parent, lookup? "$ref" members = some reference ∧
          Schema.reference reference = .ok parent ∧
          after = { before with parents := before.parents ++ [parent] }) ∨
        lookup? "$ref" members = none ∧ ∃ entries, entriesOf (.object members) = .ok entries ∧
          after = { before with entries := before.entries ++ entries }) := by
  obtain ⟨refers, hrefers, hadded⟩ := bind_eq_ok.mp h
  split at hadded
  · obtain ⟨reference, hreference, hparents⟩ := bind_eq_ok.mp hadded
    obtain ⟨parent, hparent, hafter⟩ := bind_eq_ok.mp hparents
    obtain ⟨members, rfl, hmember⟩ := Json.member_eq_ok.mp hreference
    exact ⟨members, rfl, .inl ⟨reference, parent, hmember, hparent, (pure_eq_ok.mp hafter).symm⟩⟩
  · rename_i hnone
    obtain ⟨entries, hentries, hafter⟩ := bind_eq_ok.mp hadded
    -- what has entries is an object
    obtain ⟨required, hrequired, -⟩ := bind_eq_ok.mp hentries
    obtain ⟨members, rfl, -⟩ := Json.member?_eq_ok.mp hrequired
    have hsome : (lookup? "$ref" members).isSome = refers := Except.ok.inj hrefers
    rw [← hsome, Option.not_isSome_iff_eq_none] at hnone
    exact ⟨members, rfl, .inr ⟨hnone, entries, hentries, (pure_eq_ok.mp hafter).symm⟩⟩

/-- The reference that names a definition by its key. -/
def referenceTo (key : String) : Json := .string ("#/definitions/" ++ key)

end ApiClient.Definition
