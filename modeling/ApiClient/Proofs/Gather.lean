import Mathlib.Data.List.Induction
import Mathlib.Data.List.Nodup
import Mathlib.Data.Set.Function

/-!
# Gathering under keys

Operations are gathered by controller and parameters by location, in the same way: an item joins
the group of its key, and the first item of a key opens that group behind the others. Gathering
a whole list therefore has a plain description, `gather_eq`: the keys, each once and in order of
first appearance, and under each of them its items in order. What either user of it needs is
read off that description, and never off the insertion.
-/

namespace ApiClient

variable {ι κ α : Type} [DecidableEq κ]

/-- A key is kept once, so what is left names no key twice. -/
theorem nodup_eraseDups (ks : List κ) : ks.eraseDups.Nodup := by
  cases ks with
  | nil => exact List.nodup_nil
  | cons k ks =>
    rw [List.eraseDups_cons, List.nodup_cons]
    refine ⟨?_, nodup_eraseDups _⟩
    rw [List.mem_eraseDups]
    simp
termination_by ks.length
decreasing_by
  have := List.length_filter_le (fun b => !b == k) ks
  simp only [List.length_cons]
  omega

/-- Of a list with one more key, that key is kept if it is new. -/
theorem eraseDups_concat (ks : List κ) (k : κ) :
    (ks ++ [k]).eraseDups = if k ∈ ks then ks.eraseDups else ks.eraseDups ++ [k] := by
  rw [List.eraseDups_append]
  by_cases hk : k ∈ ks
  · have hold : ([k].removeAll ks).eraseDups = [] := by simp [List.removeAll, hk]
    rw [if_pos hk, hold, List.append_nil]
  · have hkeep : [k].removeAll ks = [k] := by simp [List.removeAll, hk]
    rw [if_neg hk, hkeep]
    rfl

theorem eraseDups_of_nodup {ks : List κ} (h : ks.Nodup) : ks.eraseDups = ks := by
  induction ks using List.reverseRecOn with
  | nil => rfl
  | append_singleton ks k ih =>
    obtain ⟨hks, -, hdisjoint⟩ := List.nodup_append.mp h
    have hk : k ∉ ks := fun hmem => hdisjoint k hmem k List.mem_cons_self rfl
    rw [eraseDups_concat, if_neg hk, ih hks]

/-- To the keys that are kept, keys among them add nothing. -/
theorem eraseDups_append_of_subset {ks more : List κ} (h : ∀ k ∈ more, k ∈ ks) :
    (ks.eraseDups ++ more).eraseDups = ks.eraseDups := by
  have hnone : more.removeAll ks.eraseDups = [] := by
    refine List.filter_eq_nil_iff.mpr fun k hk => ?_
    simpa using h k hk
  rw [List.eraseDups_append, hnone, List.eraseDups_nil, List.append_nil,
    eraseDups_of_nodup (nodup_eraseDups ks)]

/-- Among some keys, the first one occurs where the second one has not yet occurred. -/
def OccursBefore (ks : List κ) (first second : κ) : Prop :=
  ∃ before after, ks = before ++ after ∧ first ∈ before ∧ second ∉ before

/-- Keys that are kept are in the order in which they occur first. -/
theorem pairwise_eraseDups (ks : List κ) : ks.eraseDups.Pairwise (OccursBefore ks) := by
  induction ks using List.reverseRecOn with
  | nil => exact .nil
  | append_singleton ks k ih =>
    have hbefore : ks.eraseDups.Pairwise (OccursBefore (ks ++ [k])) := by
      refine ih.imp ?_
      rintro first second ⟨before, after, rfl, hfirst, hsecond⟩
      exact ⟨before, after ++ [k], List.append_assoc _ _ _, hfirst, hsecond⟩
    rw [eraseDups_concat]
    by_cases hk : k ∈ ks
    · rwa [if_pos hk]
    · rw [if_neg hk, List.pairwise_append]
      refine ⟨hbefore, List.pairwise_singleton _ _, fun first hfirst second hsecond => ?_⟩
      obtain rfl := List.mem_singleton.mp hsecond
      exact ⟨ks, [second], rfl, List.mem_eraseDups.mp hfirst, hk⟩

/-- Adds an item to the group of its key; the first of a key opens its group. -/
def gatherOne (key : κ) (item : α) : List (κ × List α) → List (κ × List α)
  | [] => [(key, [item])]
  | (other, items) :: rest =>
    if other = key then (other, items ++ [item]) :: rest
    else (other, items) :: gatherOne key item rest

/-- Adding to groups that are listed by their keys: the item joins the group of its key. -/
theorem gatherOne_map_of_mem {key : κ} {item : α} {group : κ → List α} :
    ∀ {ks : List κ}, ks.Nodup → key ∈ ks →
      gatherOne key item (ks.map fun k => (k, group k)) =
        ks.map fun k => (k, if k = key then group k ++ [item] else group k) := by
  intro ks
  induction ks with
  | nil => intro _ hk; simp at hk
  | cons k ks ih =>
    intro hnd hk
    obtain ⟨hnew, hnd⟩ := List.nodup_cons.mp hnd
    simp only [List.map_cons, gatherOne]
    by_cases he : k = key
    · subst he
      rw [if_pos rfl, if_pos rfl]
      -- the key stands nowhere else, so the other groups stay
      refine congrArg _ (List.map_congr_left fun k' hk' => ?_)
      have hne : k' ≠ k := fun h => hnew (h ▸ hk')
      rw [if_neg hne]
    · rw [if_neg he, if_neg he]
      rcases List.mem_cons.mp hk with h | h
      · exact absurd h.symm he
      · rw [ih hnd h]

/-- Adding to groups that are listed by their keys: a new key comes last. -/
theorem gatherOne_map_of_not_mem {key : κ} {item : α} {group : κ → List α} :
    ∀ {ks : List κ}, key ∉ ks →
      gatherOne key item (ks.map fun k => (k, group k)) =
        (ks.map fun k => (k, group k)) ++ [(key, [item])] := by
  intro ks
  induction ks with
  | nil => intro _; rfl
  | cons k ks ih =>
    intro hk
    obtain ⟨hne, hk⟩ := not_or.mp (mt List.mem_cons.mpr hk)
    simp only [List.map_cons, gatherOne, List.cons_append]
    rw [if_neg (Ne.symm hne), ih hk]

/-- Gathers a list of things, each with a key and an item. -/
def gather (keyOf : ι → κ) (itemOf : ι → α) (xs : List ι) : List (κ × List α) :=
  xs.foldl (fun groups x => gatherOne (keyOf x) (itemOf x) groups) []

theorem gather_concat (keyOf : ι → κ) (itemOf : ι → α) (xs : List ι) (x : ι) :
    gather keyOf itemOf (xs ++ [x]) = gatherOne (keyOf x) (itemOf x) (gather keyOf itemOf xs) := by
  simp [gather, List.foldl_append]

/-- **Each key once, in order of first appearance, with its items in order.** -/
theorem gather_eq (keyOf : ι → κ) (itemOf : ι → α) (xs : List ι) :
    gather keyOf itemOf xs =
      (xs.map keyOf).eraseDups.map fun k => (k, (xs.filter (keyOf · = k)).map itemOf) := by
  induction xs using List.reverseRecOn with
  | nil => rfl
  | append_singleton xs x ih =>
    have hnd : (xs.map keyOf).eraseDups.Nodup := nodup_eraseDups _
    rw [gather_concat, ih, List.map_append, List.map_singleton, eraseDups_concat]
    -- the key is known and its group grows, or it begins a group
    by_cases hx : keyOf x ∈ xs.map keyOf
    · rw [if_pos hx, gatherOne_map_of_mem hnd (List.mem_eraseDups.mpr hx)]
      refine List.map_congr_left fun k _ => ?_
      by_cases hk : k = keyOf x
      · simp [hk, List.filter_append]
      · have hk' : keyOf x ≠ k := fun h => hk h.symm
        simp [hk, hk', List.filter_append]
    · rw [if_neg hx, gatherOne_map_of_not_mem (fun h => hx (List.mem_eraseDups.mp h)),
        List.map_append]
      refine congrArg₂ _ (List.map_congr_left fun k hk => ?_) ?_
      · have hk' : keyOf x ≠ k := fun h => hx (h ▸ List.mem_eraseDups.mp hk)
        simp [hk', List.filter_append]
      · have hnone : xs.filter (keyOf · = keyOf x) = [] := by
          refine List.filter_eq_nil_iff.mpr fun y hy he => hx ?_
          exact List.mem_map.mpr ⟨y, hy, of_decide_eq_true he⟩
        simp [List.filter_append, hnone]

/-- The keys of what is gathered are pairwise distinct. -/
theorem nodup_keys_gather (keyOf : ι → κ) (itemOf : ι → α) (xs : List ι) :
    ((gather keyOf itemOf xs).map (·.1)).Nodup := by
  rw [gather_eq, List.map_map]
  simpa [Function.comp_def] using nodup_eraseDups (xs.map keyOf)

/-- An item that is added is in some group, and the groups have what they had before. -/
theorem perm_gatherOne (key : κ) (item : α) (groups : List (κ × List α)) :
    ((gatherOne key item groups).flatMap (·.2)).Perm (item :: groups.flatMap (·.2)) := by
  induction groups with
  | nil => exact .refl _
  | cons group rest ih =>
    obtain ⟨other, items⟩ := group
    rw [gatherOne]
    by_cases he : other = key
    · rw [if_pos he, List.flatMap_cons, List.flatMap_cons, List.append_assoc]
      exact List.perm_middle
    · rw [if_neg he, List.flatMap_cons, List.flatMap_cons]
      exact (ih.append_left items).trans List.perm_middle

/-- Nothing gets lost when a list is gathered, and nothing is added. -/
theorem perm_gather (keyOf : ι → κ) (itemOf : ι → α) (xs : List ι) :
    ((gather keyOf itemOf xs).flatMap (·.2)).Perm (xs.map itemOf) := by
  induction xs using List.reverseRecOn with
  | nil => exact .refl _
  | append_singleton xs x ih =>
    rw [gather_concat, List.map_append, List.map_singleton]
    exact (perm_gatherOne _ _ _).trans ((ih.cons _).trans (List.perm_append_singleton _ _).symm)

/-! ## Tables -/

/-- In a table that has each key once, a key is found with what stands beside it. -/
theorem lookup_eq_some_of_nodup {β : Type} {key : κ} {value : β} :
    ∀ {table : List (κ × β)}, (table.map (·.1)).Nodup →
      (table.lookup key = some value ↔ (key, value) ∈ table) := by
  intro table
  induction table with
  | nil => intro _; simp
  | cons entry rest ih =>
    obtain ⟨other, first⟩ := entry
    intro hnd
    obtain ⟨hnew, hnd⟩ := List.nodup_cons.mp hnd
    rw [List.lookup_cons, List.mem_cons, Prod.mk.injEq]
    -- the first entry of a key is its only one
    by_cases he : key = other
    · subst he
      rw [beq_self_eq_true]
      constructor
      · intro h
        exact .inl ⟨rfl, (Option.some.inj h).symm⟩
      · rintro (⟨_, rfl⟩ | h)
        · rfl
        · exact absurd (List.mem_map.mpr ⟨_, h, rfl⟩) hnew
    · rw [beq_false_of_ne he, or_iff_right (fun h => he h.1)]
      exact ih hnd

/-- A table that has each key once is a function. -/
theorem exists_function_of_table {β : Type} [Inhabited β] :
    ∀ {table : List (κ × β)}, (table.map (·.1)).Nodup → ∃ f : κ → β, ∀ p ∈ table, f p.1 = p.2 := by
  intro table
  induction table with
  | nil => intro _; exact ⟨fun _ => default, fun _ h => absurd h List.not_mem_nil⟩
  | cons entry rest ih =>
    intro hnd
    obtain ⟨hnew, hnd⟩ := List.nodup_cons.mp hnd
    obtain ⟨f, hf⟩ := ih hnd
    refine ⟨fun k => if k = entry.1 then entry.2 else f k, fun p hp => ?_⟩
    dsimp only
    rcases List.mem_cons.mp hp with rfl | hp
    · rw [if_pos rfl]
    · have hne : p.1 ≠ entry.1 := fun he => hnew (List.mem_map.mpr ⟨p, hp, he⟩)
      rw [if_neg hne, hf p hp]

/-- A table that has each key and each value once is a one-to-one correspondence. -/
theorem bijOn_of_table {δ β : Type} {f : δ → β} {table : List (δ × β)}
    (hf : ∀ p ∈ table, f p.1 = p.2) (hvalues : (table.map (·.2)).Nodup) :
    Set.BijOn f {k | k ∈ table.map (·.1)} {b | b ∈ table.map (·.2)} := by
  have hvalue : table.map (·.2) = (table.map (·.1)).map f := by
    rw [List.map_map]
    exact (List.map_congr_left hf).symm
  refine ⟨?_, ?_, ?_⟩
  · intro k hk
    exact hvalue ▸ List.mem_map_of_mem hk
  · intro k hk k' hk' he
    rw [hvalue] at hvalues
    exact List.inj_on_of_nodup_map hvalues hk hk' he
  · intro b hb
    obtain ⟨k, hk, he⟩ := List.mem_map.mp (hvalue ▸ hb)
    exact ⟨k, hk, he⟩

end ApiClient
