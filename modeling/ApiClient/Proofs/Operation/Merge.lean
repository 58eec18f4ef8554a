import ApiClient.Operation.Merge
import ApiClient.Proofs.Outcome
import Mathlib.Data.List.Nodup

/-!
# Merging two levels of declarations

Declarations are merged one after the other: each takes the place of the one that has its key,
or comes last. If all keys are texts, merging is therefore replacing under a key, about which
two things have to be known. What one step keeps is what has another key, so the declarations of
a later level are all there in the end, and those of an earlier one are if nothing later has
their key. And no key is ever there twice.
-/

namespace ApiClient

/-! ## Replacing under a key -/

section

variable {α κ : Type} [DecidableEq κ] {key : α → κ} {item other : α} {items later : List α}

/-- Puts an item in the place of the one with its key, or at the end. -/
def replaceOne (key : α → κ) (item : α) : List α → List α
  | [] => [item]
  | other :: rest =>
      if key item = key other then item :: rest else other :: replaceOne key item rest

/-- The keys stay, and a new one comes last. -/
theorem keys_replaceOne (key : α → κ) (item : α) (items : List α) :
    (replaceOne key item items).map key =
      if key item ∈ items.map key then items.map key else items.map key ++ [key item] := by
  induction items with
  | nil => rfl
  | cons other rest ih =>
    rw [replaceOne]
    by_cases hkey : key item = key other
    · rw [if_pos hkey, List.map_cons, List.map_cons, hkey, if_pos List.mem_cons_self]
    · rw [if_neg hkey, List.map_cons, ih, List.map_cons]
      by_cases hmem : key item ∈ rest.map key
      · rw [if_pos hmem, if_pos (List.mem_cons_of_mem _ hmem)]
      · rw [if_neg hmem, if_neg fun h => (List.mem_cons.mp h).elim hkey hmem]
        rfl

/-- Keys that stand once still do. -/
theorem nodup_replaceOne (h : (items.map key).Nodup) :
    ((replaceOne key item items).map key).Nodup := by
  rw [keys_replaceOne]
  split
  · exact h
  · rename_i hnew
    rw [List.nodup_append]
    refine ⟨h, List.nodup_singleton _, fun k hk k' hk' he => hnew ?_⟩
    rw [← List.mem_singleton.mp hk', ← he]
    exact hk

/-- The item is there, and of the others those that have another key. -/
theorem mem_replaceOne (h : (items.map key).Nodup) :
    other ∈ replaceOne key item items ↔ other = item ∨ other ∈ items ∧ key item ≠ key other := by
  induction items with
  | nil => simp [replaceOne]
  | cons first rest ih =>
    obtain ⟨hnew, hrest⟩ := List.nodup_cons.mp h
    rw [replaceOne]
    by_cases hkey : key item = key first
    · -- the first is replaced, and its key stands nowhere else
      have hother : ∀ other ∈ rest, key item ≠ key other := by
        intro other hother he
        exact hnew (List.mem_map.mpr ⟨other, hother, he.symm.trans hkey⟩)
      rw [if_pos hkey, List.mem_cons]
      constructor
      · intro hmem
        exact hmem.imp_right fun hmem => ⟨List.mem_cons_of_mem _ hmem, hother other hmem⟩
      · rintro (rfl | ⟨hmem, hne⟩)
        · exact .inl rfl
        · rcases List.mem_cons.mp hmem with rfl | hmem
          · exact absurd hkey hne
          · exact .inr hmem
    · rw [if_neg hkey, List.mem_cons, ih hrest, List.mem_cons]
      constructor
      · rintro (rfl | rfl | ⟨hmem, hne⟩)
        · exact .inr ⟨.inl rfl, hkey⟩
        · exact .inl rfl
        · exact .inr ⟨.inr hmem, hne⟩
      · rintro (rfl | ⟨rfl | hmem, hne⟩)
        · exact .inr (.inl rfl)
        · exact .inl rfl
        · exact .inr (.inr ⟨hmem, hne⟩)

/-- Puts later items in their places, in order. -/
def replaceEach (key : α → κ) (items later : List α) : List α :=
  later.foldl (fun items item => replaceOne key item items) items

theorem nodup_replaceEach (h : (items.map key).Nodup) (later : List α) :
    ((replaceEach key items later).map key).Nodup := by
  unfold replaceEach
  induction later generalizing items with
  | nil => exact h
  | cons item rest ih => exact ih (nodup_replaceOne h)

/-- The later items are there, and of the earlier ones those whose key no later one has. -/
theorem mem_replaceEach (hitems : (items.map key).Nodup) (hlater : (later.map key).Nodup) :
    other ∈ replaceEach key items later ↔
      other ∈ later ∨ other ∈ items ∧ ∀ item ∈ later, key item ≠ key other := by
  unfold replaceEach
  -- the first of the later items is put in its place, and the others have other keys than it
  induction later generalizing items with
  | nil => simp
  | cons item rest ih =>
    obtain ⟨hnew, hrest⟩ := List.nodup_cons.mp hlater
    rw [List.foldl_cons, ih (nodup_replaceOne hitems) hrest, mem_replaceOne hitems, List.mem_cons,
      List.forall_mem_cons]
    constructor
    · rintro (hmem | ⟨rfl | ⟨hmem, hne⟩, hall⟩)
      · exact .inl (.inr hmem)
      · exact .inl (.inl rfl)
      · exact .inr ⟨hmem, hne, hall⟩
    · rintro ((rfl | hmem) | ⟨hmem, hne, hall⟩)
      · exact .inr ⟨.inl rfl, fun item hitem he => hnew (List.mem_map.mpr ⟨item, hitem, he⟩)⟩
      · exact .inl hmem
      · exact .inr ⟨.inr ⟨hmem, hne⟩, hall⟩

/-- Two levels, put one after the other into nothing. -/
theorem mem_replaceEach_append (hitems : (items.map key).Nodup) (hlater : (later.map key).Nodup) :
    other ∈ replaceEach key [] (items ++ later) ↔
      other ∈ later ∨ other ∈ items ∧ ∀ item ∈ later, key item ≠ key other := by
  have hfirst : ∀ other, other ∈ replaceEach key [] items ↔ other ∈ items := by
    intro other
    rw [mem_replaceEach (by simp) hitems]
    simp
  have htwo : replaceEach key [] (items ++ later) =
      replaceEach key (replaceEach key [] items) later :=
    List.foldl_append
  rw [htwo, mem_replaceEach (nodup_replaceEach (by simp) items) hlater, hfirst]

end

/-! ## Merging under texts -/

namespace Operation

section

variable {α : Type} {key : α → String × String} {declaration : α → Json} {items later : List α}

/-- A key of two texts, as it is used in merging. -/
def asTexts (key : String × String) : Json × Json := (.string key.1, .string key.2)

/-- What is merged is listed with its key. -/
def entryOf (key : α → String × String) (declaration : α → Json) (item : α) :
    (Json × Json) × Json :=
  (asTexts (key item), declaration item)

theorem sameKey_asTexts (left right : String × String) :
    (sameKey (asTexts left).1 (asTexts right).1 && sameKey (asTexts left).2 (asTexts right).2) =
      decide (left = right) := by
  rw [Bool.eq_iff_iff]
  simp [sameKey, asTexts, Prod.ext_iff]

theorem putDeclaration_entries (item : α) (items : List α) :
    putDeclaration (asTexts (key item)) (declaration item) (items.map (entryOf key declaration)) =
      (replaceOne key item items).map (entryOf key declaration) := by
  induction items with
  | nil => rfl
  | cons other rest ih =>
    rw [List.map_cons, entryOf, putDeclaration, sameKey_asTexts, replaceOne]
    by_cases hkey : key item = key other
    · -- the place keeps the key that it had, which is the same
      rw [if_pos (decide_eq_true hkey), if_pos hkey, List.map_cons, entryOf, hkey]
    · rw [if_neg (mt of_decide_eq_true hkey), if_neg hkey, ih]
      rfl

/-- Merging declarations whose keys are texts is replacing under them. -/
theorem mergeAll_entries (h : ∀ item ∈ later,
      declarationKey (declaration item) = .ok (asTexts (key item))) :
    mergeAll (items.map (entryOf key declaration)) (later.map declaration) =
      .ok ((replaceEach key items later).map (entryOf key declaration)) := by
  induction later generalizing items with
  | nil => rfl
  | cons item rest ih =>
    rw [List.map_cons, mergeAll, h item List.mem_cons_self]
    refine (congrArg (fun merged => mergeAll merged (rest.map declaration)) ?_).trans
      (ih fun other hother => h other (List.mem_cons_of_mem _ hother))
    exact putDeclaration_entries item items

theorem orElse_array (items : List Json) :
    (Json.array items).orElse (.array []) = .array items := by
  cases items with
  | nil => rfl
  | cons item rest => rfl

/-- Two levels of declarations whose keys are texts are merged by replacing under them. -/
theorem mergeDeclarations_eq
    (h : ∀ item ∈ items ++ later, declarationKey (declaration item) = .ok (asTexts (key item))) :
    mergeDeclarations (.array (items.map declaration)) (.array (later.map declaration)) =
      .ok (.array ((replaceEach key [] (items ++ later)).map declaration)) := by
  have hjoined : joined (.array (items.map declaration)) (.array (later.map declaration)) =
      .ok ((items ++ later).map declaration) := by
    unfold joined
    rw [orElse_array, orElse_array, List.map_append]
  have hmerged :
      mergeAll (([] : List α).map (entryOf key declaration)) ((items ++ later).map declaration) =
      .ok ((replaceEach key [] (items ++ later)).map (entryOf key declaration)) :=
    mergeAll_entries h
  refine bind_eq_ok.mpr ⟨_, hjoined, bind_eq_ok.mpr ⟨_, hmerged, ?_⟩⟩
  rw [List.map_map]
  rfl

end

end Operation

end ApiClient
