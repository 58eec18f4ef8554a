import ApiClient.Client.Run
import Mathlib.Data.List.Basic

/-!
# What a step on files can change

Every operation works at the place of its path, and makes folders only where nothing lies.
There are no links, so that place can be told from the names alone: `walk` looks at the
folders on its way, but only to see that they are there. What a step does is therefore bounded
by its path, whether or not it succeeds, and bounds of steps are bounds of what is done by
taking them one after the other.
-/

namespace ApiClient.FileSystem

/-! ## Places -/

/-- A table that keeps some places finds what it found at those, and nothing elsewhere. -/
theorem lookup_filter (keep : Place → Bool) (place : Place) (table : List (Place × FileNode)) :
    (table.filter fun entry => keep entry.1).lookup place =
      if keep place then table.lookup place else none := by
  induction table with
  | nil => simp
  | cons entry rest ih =>
    obtain ⟨other, node⟩ := entry
    rw [List.filter_cons]
    by_cases he : place = other
    · subst he
      split
      · rw [List.lookup_cons_self, List.lookup_cons_self]
      · rw [ih, if_neg ‹_›]
    · rw [List.lookup_cons, beq_false_of_ne he]
      split
      · rw [List.lookup_cons, beq_false_of_ne he]
        exact ih
      · exact ih

section

variable {files : FileSystem} {place other : Place}

/-- What is laid at a place leaves all other places as they are. -/
theorem node?_put_of_ne (node : FileNode) (h : other ≠ place) :
    (files.put place node).node? other = files.node? other := by
  unfold node? put
  split
  · rfl
  · rw [List.lookup_cons, beq_false_of_ne h]
    exact (lookup_filter (· != place) other files.nodes).trans (if_pos (bne_iff_ne.mpr h))

/-- What lies at a place is what was laid there, unless it is the top. -/
theorem node?_put_self (node : FileNode) (h : place ≠ []) :
    (files.put place node).node? place = some node := by
  unfold node? put
  rw [if_neg (by simpa using h), List.lookup_cons_self]

/-- Taking away leaves what is not below the place, and nothing else but the top. -/
theorem node?_erase (files : FileSystem) (place other : Place) :
    (files.erase place).node? other =
      if other ≠ [] ∧ place <+: other then none else files.node? other := by
  unfold node? erase
  by_cases htop : other = []
  · simp [htop]
  · have hother : ¬ other.isEmpty = true := by simpa using htop
    rw [if_neg hother, if_neg hother]
    refine (lookup_filter (fun entry => !place.isPrefixOf entry) other files.nodes).trans ?_
    -- exactly what is at the place or below it goes
    by_cases hlead : place <+: other
    · have hdropped : (!place.isPrefixOf other) = false := by
        rw [List.isPrefixOf_iff_prefix.mpr hlead, Bool.not_true]
      rw [hdropped, if_neg Bool.false_ne_true, if_pos ⟨htop, hlead⟩]
    · have hkept : (!place.isPrefixOf other) = true := by
        rw [Bool.not_eq_true', ← Bool.not_eq_true, List.isPrefixOf_iff_prefix]
        exact hlead
      rw [if_pos hkept, if_neg fun h => hlead h.2]

end

/-- The place to which names lead, whether or not anything lies on the way. -/
def lead (place : Place) : List String → Place
  | [] => place
  | name :: rest => lead (if name = ".." then place.dropLast else place ++ [name]) rest

theorem lead_append (place : Place) (front rest : List String) :
    lead place (front ++ rest) = lead (lead place front) rest := by
  induction front generalizing place with
  | nil => rfl
  | cons name front ih => exact ih _

/-- Names that do not lead up lead below. -/
theorem lead_of_forall_ne {names : List String} (h : ∀ name ∈ names, name ≠ "..") (place : Place) :
    lead place names = place ++ names := by
  induction names generalizing place with
  | nil => exact (List.append_nil place).symm
  | cons name rest ih =>
    rw [lead, if_neg (h name List.mem_cons_self),
      ih fun other hother => h other (List.mem_cons_of_mem _ hother)]
    simp

/-- A place that is found is the one to which the names lead. -/
theorem lead_of_walk {files : FileSystem} {place found : Place} {names : List String}
    (h : files.walk place names = .ok found) : found = lead place names := by
  induction names generalizing place with
  | nil => exact (Except.ok.inj h).symm
  | cons name rest ih =>
    rw [walk] at h
    split at h
    · cases h
    · cases h
    · rw [lead]
      split at h
      · rename_i hup
        rw [if_pos hup]
        exact ih h
      · rename_i hname
        rw [if_neg hname]
        split at h
        · cases h
        · exact ih h

/-- Where a path begins, if `workingFolder` is the working folder. -/
def startOf (workingFolder : Place) (path : FilePath) : Place :=
  if path.root.isEmpty then workingFolder else []

/-- The place of a path. -/
def placeOf (workingFolder : Place) (path : FilePath) : Place :=
  lead (startOf workingFolder path) path.names

theorem place_of_locate {files : FileSystem} {path : FilePath} {place : Place}
    (h : files.locate path = .ok place) : place = placeOf files.workingFolder path := by
  unfold locate at h
  split at h
  · cases h
  · split at h
    · cases h
    · exact lead_of_walk h

/-- The place of a path that goes on through names, none of which leads up. -/
theorem placeOf_below {names : List String} (h : ∀ name ∈ names, name ≠ "..")
    (workingFolder : Place) (path : FilePath) :
    placeOf workingFolder (path.below names) = placeOf workingFolder path ++ names := by
  unfold placeOf FilePath.below
  rw [lead_append, lead_of_forall_ne h]
  rfl

/-- The places on the way to a path, its own included. -/
def OnWay (workingFolder : Place) (path : FilePath) (place : Place) : Prop :=
  ∃ front, front <+: path.names ∧ place = lead (startOf workingFolder path) front

/-! ## Bounds -/

/--
What was done between two states: folders were made where nothing lay, at places of which `made`
holds, files were written at places of which `written` holds, and nothing else was changed but
at places of which `changed` holds.
-/
structure Bounded (made changed written : Place → Prop) (before after : FileSystem) : Prop where
  workingFolder : after.workingFolder = before.workingFolder
  elsewhere : ∀ place, ¬ changed place → after.node? place = before.node? place ∨
    made place ∧ before.node? place = none ∧ after.node? place = some .folder
  files : ∀ place bytes, after.node? place = some (.file bytes) →
    before.node? place = some (.file bytes) ∨ written place

namespace Bounded

variable {made changed written made' changed' written' : Place → Prop}
  {before middle after files : FileSystem}

/-- Nothing was done. -/
theorem refl (files : FileSystem) : Bounded made changed written files files :=
  ⟨rfl, fun _ _ => .inl rfl, fun _ _ h => .inl h⟩

/-- What is there already is not made, and so it is as it was, unless it may be changed. -/
theorem node?_eq (h : Bounded made changed written before after) {place : Place}
    (hplace : ¬ changed place)
    (hthere : made place → before.node? place ≠ none) :
    after.node? place = before.node? place := by
  rcases h.elsewhere place hplace with hsame | ⟨hmade, hnone, -⟩
  · exact hsame
  · exact absurd hnone (hthere hmade)

/-- Bounds of two steps are bounds of both together. -/
theorem trans (first : Bounded made changed written before middle)
    (second : Bounded made changed written middle after) :
    Bounded made changed written before after := by
  refine ⟨second.workingFolder.trans first.workingFolder, fun place hplace => ?_,
    fun place bytes h => ?_⟩
  · rcases first.elsewhere place hplace with hfirst | ⟨hmade, hnone, hfolder⟩
    · rcases second.elsewhere place hplace with hsecond | ⟨hmade, hnone, hfolder⟩
      · exact .inl (hsecond.trans hfirst)
      · exact .inr ⟨hmade, hfirst ▸ hnone, hfolder⟩
    · -- a folder that was made is there, so it is not made again
      rcases second.elsewhere place hplace with hsecond | ⟨-, hnone', -⟩
      · exact .inr ⟨hmade, hnone, hsecond.trans hfolder⟩
      · rw [hfolder] at hnone'
        cases hnone'
  · rcases second.files place bytes h with h | h
    · exact first.files place bytes h
    · exact .inr h

/-- Wider bounds hold of what narrower bounds hold of. -/
theorem mono (h : Bounded made changed written before after)
    (hmade : ∀ place, made place → made' place ∨ changed' place)
    (hchanged : ∀ place, changed place → changed' place)
    (hwritten : ∀ place, written place → written' place) :
    Bounded made' changed' written' before after := by
  refine ⟨h.workingFolder, fun place hplace => ?_, fun place bytes hfile => ?_⟩
  · rcases h.elsewhere place (fun hc => hplace (hchanged place hc)) with
      hsame | ⟨hm, hnone, hfolder⟩
    · exact .inl hsame
    · rcases hmade place hm with hm | hc
      · exact .inr ⟨hm, hnone, hfolder⟩
      · exact absurd hc hplace
  · exact (h.files place bytes hfile).imp_right (hwritten place)

end Bounded

/-! ## Steps -/

section

variable {files after : FileSystem} {path : FilePath}

/-- A folder is made at the place of its path, where nothing lies. -/
theorem bounded_of_makeFolder (h : files.makeFolder path = .ok after) :
    Bounded (· = placeOf files.workingFolder path) (fun _ => False)
      (fun _ => False) files after := by
  unfold makeFolder at h
  cases hlocate : files.locate path with
  | error fault => rw [hlocate] at h; cases h
  | ok place =>
    rw [hlocate] at h
    obtain rfl := place_of_locate hlocate
    change (if (files.node? _).isSome then _ else _) = Except.ok after at h
    split at h
    · cases h
    · rename_i hfree
      obtain rfl := Except.ok.inj h
      have hnone : files.node? (placeOf files.workingFolder path) = none := by simpa using hfree
      -- the top is there, so it is not made
      have htop : placeOf files.workingFolder path ≠ [] := by
        intro htop
        rw [htop] at hnone
        cases hnone
      refine ⟨rfl, fun place _ => ?_, fun place bytes hfile => ?_⟩
      · by_cases hplace : place = placeOf files.workingFolder path
        · subst hplace
          exact .inr ⟨rfl, hnone, node?_put_self _ htop⟩
        · exact .inl (node?_put_of_ne _ hplace)
      · by_cases hplace : place = placeOf files.workingFolder path
        · subst hplace
          rw [node?_put_self _ htop] at hfile
          cases hfile
        · rw [node?_put_of_ne _ hplace] at hfile
          exact .inl hfile

theorem bounded_makeFolderIfMissing :
    Bounded (· = placeOf files.workingFolder path) (fun _ => False) (fun _ => False) files
      (files.makeFolderIfMissing path).1 := by
  unfold makeFolderIfMissing
  split
  · exact bounded_of_makeFolder ‹_›
  · split
    · exact .refl files
    · exact .refl files

/-- Folders are made on the way only. -/
theorem bounded_makeFoldersUpTo (count : Nat) :
    Bounded (OnWay files.workingFolder path) (fun _ => False) (fun _ => False) files
      (files.makeFoldersUpTo path count).1 := by
  have hone : ∀ (state : FileSystem) (count : Nat), state.workingFolder = files.workingFolder →
      Bounded (OnWay files.workingFolder path) (fun _ => False) (fun _ => False) state
        (state.makeFolderIfMissing { path with names := path.names.take count }).1 := by
    intro state count hfolder
    refine bounded_makeFolderIfMissing.mono ?_ (fun _ h => h) fun _ h => h
    rintro place rfl
    rw [hfolder]
    exact .inl ⟨path.names.take count, List.take_prefix count path.names, rfl⟩
  -- the folder of the shorter path is made first, and what it leaves has the same working folder
  induction count with
  | zero =>
    unfold makeFoldersUpTo
    dsimp only
    split
    · contradiction
    · exact hone files 0 rfl
  | succ count ih =>
    unfold makeFoldersUpTo
    dsimp only
    split
    · rename_i _ n hn
      obtain rfl := Nat.succ.inj hn
      split
      · rename_i state hstate
        rw [hstate] at ih
        exact ih.trans (hone state (count + 1) ih.workingFolder)
      · exact ih
    · exact hone files (count + 1) rfl

theorem bounded_makeFolders :
    Bounded (OnWay files.workingFolder path) (fun _ => False) (fun _ => False) files
      (files.makeFolders path).1 :=
  bounded_makeFoldersUpTo _

/-- A file is written at the place of its path. -/
theorem bounded_of_writeFile {bytes : List UInt8} (h : files.writeFile path bytes = .ok after) :
    Bounded (fun _ => False) (· = placeOf files.workingFolder path)
      (· = placeOf files.workingFolder path) files after := by
  unfold writeFile at h
  cases hlocate : files.locate path with
  | error fault => rw [hlocate] at h; cases h
  | ok place =>
    rw [hlocate] at h
    obtain rfl := place_of_locate hlocate
    change (if files.node? _ == some .folder then _ else _) = Except.ok after at h
    split at h
    · cases h
    · -- one node is put, and every other stays
      obtain rfl := Except.ok.inj h
      refine ⟨rfl, fun place hplace => .inl (node?_put_of_ne _ hplace),
        fun place bytes hfile => ?_⟩
      by_cases hplace : place = placeOf files.workingFolder path
      · exact .inr hplace
      · rw [node?_put_of_ne _ hplace] at hfile
        exact .inl hfile

/-- A file is written at the place of its path, and folders are made on the way to it. -/
theorem bounded_write {bytes : List UInt8} :
    Bounded (OnWay files.workingFolder path.parent) (· = placeOf files.workingFolder path)
      (· = placeOf files.workingFolder path) files (files.write path bytes).1 := by
  have hfolders : Bounded (OnWay files.workingFolder path.parent)
      (· = placeOf files.workingFolder path) (· = placeOf files.workingFolder path) files
      (files.makeFolders path.parent).1 :=
    bounded_makeFolders.mono (fun _ h => .inl h) (fun _ h => h.elim) fun _ h => h.elim
  unfold write
  split
  · rename_i state hstate
    rw [hstate] at hfolders
    split
    · rename_i written hwritten
      refine hfolders.trans ?_
      rw [← hfolders.workingFolder]
      exact (bounded_of_writeFile hwritten).mono (fun _ h => h.elim) (fun _ h => h) fun _ h => h
    · exact hfolders
  · exact hfolders

/-- Only a folder is taken away, with all that is below it. -/
theorem bounded_clear (text : String) :
    Bounded (fun _ => False) (placeOf files.workingFolder (.ofString text) <+: ·) (fun _ => False)
      files (files.clear text) := by
  unfold clear
  split
  · exact .refl files
  · split
    · rename_i place hlocate
      obtain rfl := place_of_locate hlocate
      split
      · refine ⟨rfl, fun place hplace => .inl ?_, fun place bytes hfile => .inl ?_⟩
        · rw [node?_erase, if_neg fun h => hplace h.2]
        · rw [node?_erase] at hfile
          split at hfile
          · cases hfile
          · exact hfile
      · exact .refl files
    · exact .refl files

end

/-- What bounds every step of some steps bounds taking them until one fails. -/
theorem bounded_performAll {made changed written : Place → Prop} {workingFolder : Place}
    {actions : List Action}
    (h : ∀ action ∈ actions, ∀ state : FileSystem, state.workingFolder = workingFolder →
      Bounded made changed written state (state.perform action).1) :
    ∀ {files : FileSystem}, files.workingFolder = workingFolder →
      Bounded made changed written files (files.performAll actions).1 := by
  -- every state on the way has the same working folder, so the bounds are
  -- the same places throughout
  induction actions with
  | nil => exact fun _ => .refl _
  | cons action rest ih =>
    intro files hfolder
    have hfirst := h action List.mem_cons_self files hfolder
    unfold performAll
    split
    · rename_i next hnext
      rw [hnext] at hfirst
      exact hfirst.trans (ih (fun other hother => h other (List.mem_cons_of_mem _ hother))
        (hfirst.workingFolder.trans hfolder))
    · exact hfirst

end ApiClient.FileSystem
