import ApiClient.Proofs.Gather
import ApiClient.Proofs.Operation.Merge

/-!
# Which declaration stands where

An item that is put under a key takes the place of the one before it. So place and item stem
from different occurrences of the key: the place from the first, the item from the last. With
two levels of declarations the last one is the operation's if it has one with the key, and the
path's otherwise. Merging the operation's declarations once more finds all keys in their places,
and under its own the items that are put there again.
-/

namespace ApiClient

/-! ## First places and last items -/

section

variable {α κ : Type} [DecidableEq κ] {key : α → κ} {item : α} {items later : List α} {k : κ}

/-- The last of some items that has a key. -/
def lastWith? (key : α → κ) (k : κ) (items : List α) : Option α :=
  (items.filter (key · = k)).getLast?

theorem lastWith?_append : lastWith? key k (items ++ later) =
    (lastWith? key k later).or (lastWith? key k items) := by
  rw [lastWith?, List.filter_append, List.getLast?_append]
  rfl

theorem lastWith?_concat : lastWith? key k (items ++ [item]) =
    if key item = k then some item else lastWith? key k items := by
  rw [lastWith?_append]
  by_cases hkey : key item = k <;> simp [lastWith?, hkey]

theorem mem_of_lastWith? (h : lastWith? key k items = some item) :
    item ∈ items ∧ key item = k := by
  obtain ⟨hmem, hkey⟩ := List.mem_filter.mp (List.mem_of_getLast? h)
  exact ⟨hmem, of_decide_eq_true hkey⟩

theorem lastWith?_eq_none : lastWith? key k items = none ↔ k ∉ items.map key := by
  simp [lastWith?]

theorem replaceEach_concat (key : α → κ) (items : List α) (item : α) :
    replaceEach key [] (items ++ [item]) = replaceOne key item (replaceEach key [] items) := by
  simp [replaceEach, List.foldl_append]

/-- Each key stands once, in the order in which the keys occur first. -/
theorem keys_replaceEach (key : α → κ) (items : List α) :
    (replaceEach key [] items).map key = (items.map key).eraseDups := by
  induction items using List.reverseRecOn with
  | nil => rfl
  | append_singleton items item ih =>
    rw [replaceEach_concat, keys_replaceOne, ih, List.map_append, List.map_singleton,
      eraseDups_concat]
    simp only [List.mem_eraseDups]

theorem mem_keys_replaceEach : k ∈ (replaceEach key [] items).map key ↔ k ∈ items.map key := by
  rw [keys_replaceEach, List.mem_eraseDups]

/-- What stands under a key is the last item that has it. -/
theorem lastWith?_of_mem_replaceEach (h : item ∈ replaceEach key [] items) :
    lastWith? key (key item) items = some item := by
  induction items using List.reverseRecOn with
  | nil => cases h
  | append_singleton items last ih =>
    have hnd : ((replaceEach key [] items).map key).Nodup := nodup_replaceEach (by simp) items
    rw [replaceEach_concat, mem_replaceOne hnd] at h
    rw [lastWith?_concat]
    rcases h with rfl | ⟨hmem, hne⟩
    · exact if_pos rfl
    · rw [if_neg hne, ih hmem]

omit [DecidableEq κ] in
/-- Items are told by their keys, if each is the one that its key stands for. -/
theorem eq_filterMap_of_keys {f : κ → Option α} (h : ∀ item ∈ items, f (key item) = some item) :
    items = (items.map key).filterMap f := by
  induction items with
  | nil => rfl
  | cons item rest ih =>
    obtain ⟨hitem, hrest⟩ := List.forall_mem_cons.mp h
    rw [List.map_cons, List.filterMap_cons_some hitem, ← ih hrest]

/-- **Under each key, at its first place, stands the last item that has it.** -/
theorem replaceEach_eq (key : α → κ) (items : List α) :
    replaceEach key [] items = (items.map key).eraseDups.filterMap (lastWith? key · items) := by
  rw [← keys_replaceEach]
  exact eq_filterMap_of_keys fun _ hitem => lastWith?_of_mem_replaceEach hitem

theorem lastWith?_replaceEach (key : α → κ) (k : κ) (items : List α) :
    lastWith? key k (replaceEach key [] items) = lastWith? key k items := by
  cases hlast : lastWith? key k (replaceEach key [] items) with
  | none =>
    rw [lastWith?_eq_none, mem_keys_replaceEach, ← lastWith?_eq_none] at hlast
    exact hlast.symm
  | some item =>
    obtain ⟨hmem, rfl⟩ := mem_of_lastWith? hlast
    exact (lastWith?_of_mem_replaceEach hmem).symm

/-- Items that are put again change nothing. -/
theorem replaceEach_again (key : α → κ) (items later : List α) :
    replaceEach key [] (replaceEach key [] (items ++ later) ++ later) =
      replaceEach key [] (items ++ later) := by
  have hlast : ∀ k, lastWith? key k (replaceEach key [] (items ++ later) ++ later) =
      lastWith? key k (items ++ later) := by
    intro k
    rw [lastWith?_append, lastWith?_replaceEach, lastWith?_append, ← Option.or_assoc,
      Option.or_self]
  -- the keys of the later items are there already
  have hkeys : ((replaceEach key [] (items ++ later) ++ later).map key).eraseDups =
      ((items ++ later).map key).eraseDups := by
    rw [List.map_append, keys_replaceEach]
    refine eraseDups_append_of_subset fun k hk => ?_
    rw [List.map_append]
    exact List.mem_append_right _ hk
  rw [replaceEach_eq, hkeys]
  simp only [hlast]
  exact (replaceEach_eq key (items ++ later)).symm

end

/-! ## Declarations in place -/

namespace Operation

open Json (lookup?)

/-- A declaration in place: an object without a reference, whose name and location are texts. -/
structure InPlace where
  members : List (String × Json)
  name : String
  location : String
  unreferenced : lookup? "$ref" members = none
  named : lookup? "name" members = some (.string name)
  located : lookup? "in" members = some (.string location)

namespace InPlace

/-- A declaration as the document has it. -/
def value (declared : InPlace) : Json := .object declared.members

/-- What a declaration is told apart by. -/
def key (declared : InPlace) : String × String := (declared.name, declared.location)

theorem declarationKey_value (declared : InPlace) :
    declarationKey declared.value = .ok (asTexts declared.key) := by
  refine bind_eq_ok.mpr ⟨_, rfl, bind_eq_ok.mpr ⟨_, rfl, bind_eq_ok.mpr ⟨_, rfl, ?_⟩⟩⟩
  dsimp only
  rw [declared.unreferenced, declared.named, declared.located]
  rfl

/-- The declarations of a level, which need not have any list of them. -/
def level : Option (List InPlace) → Json
  | none => .null
  | some listed => .array (listed.map value)

end InPlace

/-- What two levels of declarations are merged to. -/
structure Merged (ofPath ofOperation merged : List InPlace) : Prop where
  /-- The keys are those that are declared. -/
  keys : ∀ key, key ∈ merged.map InPlace.key ↔ key ∈ (ofPath ++ ofOperation).map InPlace.key
  /-- Each stands once, and they come in the order in which they are declared first. -/
  ordered : (merged.map InPlace.key).Pairwise
    (OccursBefore ((ofPath ++ ofOperation).map InPlace.key))
  /-- Under a key stands the operation's last declaration, or else the path's. -/
  latest : ∀ declared ∈ merged,
    (lastWith? InPlace.key declared.key ofOperation).or
      (lastWith? InPlace.key declared.key ofPath) =
      some declared

theorem merged_replaceEach (ofPath ofOperation : List InPlace) :
    Merged ofPath ofOperation (replaceEach InPlace.key [] (ofPath ++ ofOperation)) where
  keys := fun _ => mem_keys_replaceEach
  ordered := by
    rw [keys_replaceEach]
    exact pairwise_eraseDups _
  latest := by
    intro declared hmem
    rw [← lastWith?_append]
    exact lastWith?_of_mem_replaceEach hmem

/-- A level without a list adds nothing to one with a list. -/
theorem mergeDeclarations_level {ofPath ofOperation : Option (List InPlace)}
    (h : ¬ (ofPath = none ∧ ofOperation = none)) :
    mergeDeclarations (InPlace.level ofPath) (InPlace.level ofOperation) =
      .ok (InPlace.level
        (some (replaceEach InPlace.key [] (ofPath.getD [] ++ ofOperation.getD [])))) := by
  have hlists : ∀ listed listed' : List InPlace,
      mergeDeclarations (.array (listed.map InPlace.value)) (.array (listed'.map InPlace.value)) =
        .ok (.array ((replaceEach InPlace.key [] (listed ++ listed')).map InPlace.value)) :=
    fun _ _ => mergeDeclarations_eq fun declared _ => declared.declarationKey_value
  cases ofPath with
  | none =>
    cases ofOperation with
    | none => exact absurd ⟨rfl, rfl⟩ h
    | some listed => exact hlists [] listed
  | some listed =>
    cases ofOperation with
    | none => exact hlists listed []
    | some listed' => exact hlists listed listed'

/-- **Merging two levels of declarations in place.** There is no list just if neither level has
one. Otherwise each name and location that is declared has one declaration: at the place where
it is first declared stands the one that the operation declares last, or else the path. Merging
the operation's declarations into that changes nothing. -/
theorem merged_levels (ofPath ofOperation : Option (List InPlace)) :
    ∃ merged, mergeDeclarations (InPlace.level ofPath) (InPlace.level ofOperation) =
        .ok (InPlace.level merged) ∧
      (merged = none ↔ ofPath = none ∧ ofOperation = none) ∧
      (∀ listed ∈ merged, Merged (ofPath.getD []) (ofOperation.getD []) listed) ∧
      mergeDeclarations (InPlace.level merged) (InPlace.level ofOperation) =
        .ok (InPlace.level merged) := by
  by_cases hnone : ofPath = none ∧ ofOperation = none
  · obtain ⟨rfl, rfl⟩ := hnone
    exact ⟨none, rfl, by simp, by simp, rfl⟩
  · refine ⟨_, mergeDeclarations_level hnone, by simp [hnone], ?_, ?_⟩
    · rintro listed ⟨⟩
      exact merged_replaceEach _ _
    · rw [mergeDeclarations_level (by simp), Option.getD_some, replaceEach_again]

/-- A declaration with a type, in place. -/
def typed (name location type : String) : InPlace where
  members := [("name", .string name), ("in", .string location), ("type", .string type)]
  name := name
  location := location
  unreferenced := rfl
  named := rfl
  located := rfl

/-- The declarations of a path: one of them twice, and another of the same name. -/
def pathLevel : List InPlace :=
  [typed "id" "path" "string", typed "id" "query" "string", typed "id" "path" "integer"]

/-- The declarations of an operation: one that the path declares too, twice, and a new one. -/
def operationLevel : List InPlace :=
  [typed "id" "query" "number", typed "tag" "query" "string", typed "id" "query" "boolean"]

/-- The places are those of the first declarations, and the types those of the last. -/
theorem merged_pathLevel_operationLevel :
    mergeDeclarations (InPlace.level (some pathLevel)) (InPlace.level (some operationLevel)) =
      .ok (InPlace.level (some
        [typed "id" "path" "integer", typed "id" "query" "boolean",
          typed "tag" "query" "string"])) ∧
    ∃ merged, mergeDeclarations (InPlace.level (some pathLevel))
      (InPlace.level (some operationLevel)) =
        .ok (InPlace.level merged) ∧
      (merged = none ↔ some pathLevel = none ∧ some operationLevel = none) ∧
      (∀ listed ∈ merged, Merged pathLevel operationLevel listed) ∧
      mergeDeclarations (InPlace.level merged) (InPlace.level (some operationLevel)) =
        .ok (InPlace.level merged) :=
  ⟨rfl, merged_levels (some pathLevel) (some operationLevel)⟩

end Operation

end ApiClient
