import ApiClient.Proofs.FileSystem.Bounded
import ApiClient.Proofs.Outcome
import Mathlib.Data.List.Infix

/-!
# When a step on files succeeds, and what it leaves

The bounds of a step tell what it does not touch. The rest is told here: folders are made just
if their path can be used and nothing but folders lies on the way, and then all the way consists
of folders; a file is written just if that holds of the way to it and no folder lies at its
place. So what a step leaves is known place by place, and how it ends depends on nothing else.
-/

namespace ApiClient

/-! ## Paths that can be used -/

namespace FilePath

/-- A name that can be gone through. -/
def IsShort (name : String) : Prop := name = ".." ∨ name.utf8ByteSize ≤ nameLimit

instance (name : String) : Decidable (IsShort name) :=
  inferInstanceAs (Decidable (_ ∨ _))

/-- A path that nothing but files can stand in the way of. -/
structure Usable (path : FilePath) : Prop where
  noNul : path.hasNul = false
  notLong : isTooLong path.text = false
  short : ∀ name ∈ path.names, IsShort name

/-- The text of a path is not shorter than that of a path on its way. -/
theorem utf8ByteSize_text_le {root : String} {front names : List String} (h : front <+: names)
    (hne : front ≠ [] ∨ root ≠ "") :
    (text ⟨root, front⟩).utf8ByteSize ≤ (text ⟨root, names⟩).utf8ByteSize := by
  obtain ⟨rest, rfl⟩ := h
  have hjoined : ("/".intercalate front).utf8ByteSize ≤
      ("/".intercalate (front ++ rest)).utf8ByteSize := by
    by_cases hfront : front = []
    · subst hfront
      simp
    · by_cases hrest : rest = []
      · simp [hrest]
      · rw [String.intercalate_append_of_ne_nil hfront hrest, String.append_assoc,
          String.utf8ByteSize_append]
        exact Nat.le_add_right _ _
  -- a path without names and without a root is written as a point, which is excluded
  have htext : ∀ names : List String, names ≠ [] ∨ root ≠ "" →
      text ⟨root, names⟩ = root ++ "/".intercalate names := by
    intro names hnames
    unfold text
    rw [if_neg]
    simpa [Bool.and_eq_true, or_iff_not_imp_left] using fun hroot hnil =>
      hnames.elim (· hnil) (· hroot)
  rw [htext front hne, htext (front ++ rest) (hne.imp_left fun hne hnil =>
    hne (List.append_eq_nil_iff.mp hnil).1), String.utf8ByteSize_append,
    String.utf8ByteSize_append]
  exact Nat.add_le_add_left hjoined _

/-- A path on the way to one that can be used can be used. -/
theorem Usable.of_prefix {path : FilePath} (h : path.Usable) {front : List String}
    (hfront : front <+: path.names) : Usable { path with names := front } where
  noNul := by
    have hall := h.noNul
    unfold hasNul at hall ⊢
    rw [List.any_eq_false] at hall ⊢
    exact fun name hname => hall name (hfront.subset hname)
  notLong := by
    have hlong := h.notLong
    unfold isTooLong at hlong ⊢
    rw [decide_eq_false_iff_not] at hlong ⊢
    by_cases hne : front ≠ [] ∨ path.root ≠ ""
    · exact fun hle => hlong (Nat.le_trans hle (utf8ByteSize_text_le hfront hne))
    · rw [not_or, not_not, not_not] at hne
      obtain ⟨rfl, hroot⟩ := hne
      rw [hroot]
      decide
  short name hname := h.short name (hfront.subset hname)

end FilePath

namespace FileSystem

open FilePath (IsShort Usable)

variable {files after : FileSystem}

/-! ## Finding a place -/

/-- Nothing lies at a place, or a folder: folders can be made through it. -/
def Passable (files : FileSystem) (place : Place) : Prop :=
  files.node? place = none ∨ files.node? place = some .folder

instance (files : FileSystem) (place : Place) : Decidable (files.Passable place) :=
  inferInstanceAs (Decidable (_ ∨ _))

/-- **A place is found just if all names before it lead through folders**
and none of them is too long. -/
theorem walk_eq_ok_iff {place found : Place} {names : List String} :
    files.walk place names = .ok found ↔
      (∀ name ∈ names, IsShort name) ∧
        (∀ front, front <+: names → front ≠ names →
          files.node? (lead place front) = some .folder) ∧
        found = lead place names := by
  induction names generalizing place with
  | nil =>
    refine ⟨fun h => ⟨fun _ h => absurd h List.not_mem_nil, fun front hfront hne => ?_,
      lead_of_walk h⟩, fun h => congrArg _ h.2.2.symm⟩
    exact absurd (List.prefix_nil.mp hfront) hne
  | cons name rest ih =>
    -- the places that the walk passes are this one and those of the rest
    have hproper : (∀ front, front <+: name :: rest → front ≠ name :: rest →
          files.node? (lead place front) = some .folder) ↔
        files.node? place = some .folder ∧ ∀ front, front <+: rest → front ≠ rest →
          files.node? (lead (if name = ".." then place.dropLast else place ++ [name]) front) =
            some .folder := by
      constructor
      · refine fun h =>
          ⟨h [] List.nil_prefix (List.cons_ne_nil _ _).symm, fun front hfront hne => ?_⟩
        exact h (name :: front) (List.cons_prefix_cons.mpr ⟨rfl, hfront⟩) fun he =>
          hne (List.cons.inj he).2
      · rintro ⟨hhere, hrest⟩ front hfront hne
        cases front with
        | nil => exact hhere
        | cons first front =>
          obtain ⟨rfl, hbelow⟩ := List.cons_prefix_cons.mp hfront
          exact hrest front hbelow fun he => hne (he ▸ rfl)
    rw [hproper, List.forall_mem_cons, walk, lead]
    split
    · rename_i hnode
      simp [hnode]
    · rename_i hnode
      simp [hnode]
    · rename_i hnode
      by_cases hup : name = ".."
      · have hshort : IsShort name := .inl hup
        rw [if_pos hup, if_pos hup, ih]
        simp [hshort, hnode]
      · rw [if_neg hup, if_neg hup]
        split
        · rename_i hlong
          have hlong : ¬ IsShort name := fun h => Nat.not_le.mpr hlong (h.resolve_left hup)
          simp [hlong]
        · rename_i hshort
          have hshort : IsShort name := .inr (Nat.not_lt.mp hshort)
          rw [ih]
          simp [hshort, hnode]

/-- A walk that meets no file and no name that is too long can only miss a folder. -/
theorem walk_error_of_passable {place : Place} {names : List String} {fault : FileFault}
    (hshort : ∀ name ∈ names, IsShort name)
    (hway : ∀ front, front <+: names → files.Passable (lead place front))
    (h : files.walk place names = .error fault) : fault = .notFound := by
  induction names generalizing place with
  | nil => cases h
  | cons name rest ih =>
    rw [walk] at h
    have hrest : ∀ front, front <+: rest →
        files.Passable (lead (if name = ".." then place.dropLast else place ++ [name]) front) :=
      fun front hfront => hway (name :: front) (List.cons_prefix_cons.mpr ⟨rfl, hfront⟩)
    split at h
    · exact (Except.error.inj h).symm
    · rename_i bytes hfile
      -- a file in the way would not be passable
      rcases hway [] List.nil_prefix with hnone | hfolder
      · rw [lead, hfile] at hnone
        cases hnone
      · rw [lead, hfile] at hfolder
        cases hfolder
    · rw [List.forall_mem_cons] at hshort
      split at h
      · rename_i hup
        rw [if_pos hup] at hrest
        exact ih hshort.2 hrest h
      · rename_i hup
        rw [if_neg hup] at hrest
        rw [if_neg (Nat.not_lt.mpr (hshort.1.resolve_left hup))] at h
        exact ih hshort.2 hrest h

/-- The place of a path is found just if the path can be used and leads through folders. -/
theorem locate_eq_ok_iff {path : FilePath} {found : Place} :
    files.locate path = .ok found ↔
      path.Usable ∧
        (∀ front, front <+: path.names → front ≠ path.names →
          files.node? (lead (startOf files.workingFolder path) front) = some .folder) ∧
        found = placeOf files.workingFolder path := by
  have hwalk : files.walk (startOf files.workingFolder path) path.names = .ok found ↔ _ :=
    walk_eq_ok_iff
  unfold locate
  split
  · rename_i hnul
    refine ⟨nofun, fun h => ?_⟩
    rw [h.1.noNul] at hnul
    cases hnul
  · rename_i hnul
    split
    · rename_i hlong
      refine ⟨nofun, fun h => ?_⟩
      rw [h.1.notLong] at hlong
      cases hlong
    · rename_i hlong
      -- once the text as a whole is fine, its names decide
      have husable : path.Usable ↔ ∀ name ∈ path.names, IsShort name :=
        ⟨Usable.short, fun h => ⟨by simpa using hnul, by simpa using hlong, h⟩⟩
      rw [husable]
      exact hwalk

/-- A path leads to a folder just if it can be used and all of its way consists of folders. -/
theorem isFolder_iff {path : FilePath} :
    files.isFolder path = true ↔
      path.Usable ∧ ∀ place, OnWay files.workingFolder path place →
      files.node? place = some .folder := by
  constructor
  · intro h
    unfold isFolder at h
    split at h
    · rename_i found hlocate
      obtain ⟨husable, hway, rfl⟩ := locate_eq_ok_iff.mp hlocate
      refine ⟨husable, ?_⟩
      rintro place ⟨front, hfront, rfl⟩
      -- the way ends at the folder itself
      by_cases he : front = path.names
      · rw [he]
        exact beq_iff_eq.mp h
      · exact hway front hfront he
    · cases h
  · rintro ⟨husable, hway⟩
    have hlocate : files.locate path = .ok (placeOf files.workingFolder path) :=
      locate_eq_ok_iff.mpr ⟨husable, fun front hfront _ => hway _ ⟨front, hfront, rfl⟩, rfl⟩
    unfold isFolder
    rw [hlocate]
    exact beq_iff_eq.mpr (hway _ ⟨path.names, List.prefix_rfl, rfl⟩)

/-! ## Reading -/

theorem walk_congr {other : FileSystem} {place : Place} {names : List String}
    (h : ∀ front, front <+: names → other.node? (lead place front) =
      files.node? (lead place front)) :
    other.walk place names = files.walk place names := by
  induction names generalizing place with
  | nil => rfl
  | cons name rest ih =>
    have hhere : other.node? place = files.node? place := h [] List.nil_prefix
    have hrest : ∀ front, front <+: rest →
        other.node? (lead (if name = ".." then place.dropLast else place ++ [name]) front) =
          files.node? (lead (if name = ".." then place.dropLast else place ++ [name]) front) :=
      fun front hfront => h (name :: front) (List.cons_prefix_cons.mpr ⟨rfl, hfront⟩)
    unfold walk
    rw [hhere]
    -- a name goes down, two points go up again
    by_cases hup : name = ".."
    · rw [if_pos hup] at hrest
      simp only [if_pos hup, ih hrest]
    · rw [if_neg hup] at hrest
      simp only [if_neg hup, ih hrest]

/-- Reading looks at what lies on the way, and at nothing else. -/
theorem read_congr {other : FileSystem} {path : FilePath}
    (hfolder : other.workingFolder = files.workingFolder)
    (h : ∀ place, OnWay files.workingFolder path place → other.node? place = files.node? place) :
    other.read path = files.read path := by
  -- the path leads to the same place, and the same lies there
  have hlocate : other.locate path = files.locate path := by
    have hwalk : other.walk (startOf files.workingFolder path) path.names =
        files.walk (startOf files.workingFolder path) path.names :=
      walk_congr fun front hfront => h _ ⟨front, hfront, rfl⟩
    unfold locate
    rw [hfolder]
    exact if_congr .rfl rfl (if_congr .rfl rfl hwalk)
  unfold read
  rw [hlocate]
  cases hplace : files.locate path with
  | error fault => rfl
  | ok place =>
    obtain rfl := place_of_locate hplace
    have hsame : other.node? (placeOf files.workingFolder path) =
        files.node? (placeOf files.workingFolder path) := h _ ⟨path.names, List.prefix_rfl, rfl⟩
    simp only [bind, Except.bind, hsame]

/-- What is read lies on a way that is there. -/
theorem node?_of_read {path : FilePath} {bytes : List UInt8} (h : files.read path = .ok bytes)
    {place : Place} (hplace : OnWay files.workingFolder path place) :
    files.node? place ≠ none := by
  unfold read at h
  obtain ⟨found, hlocate, h⟩ := bind_eq_ok.mp h
  obtain ⟨-, hway, rfl⟩ := locate_eq_ok_iff.mp hlocate
  obtain ⟨front, hfront, rfl⟩ := hplace
  -- on the way stand folders, and at the end the file that is read
  by_cases he : front = path.names
  · subst he
    intro hnone
    change files.node? (placeOf files.workingFolder path) = none at hnone
    rw [hnone] at h
    cases h
  · rw [hway front hfront he]
    exact nofun

/-! ## Making folders -/

/-- Where folders are only made, those that are there stay. -/
theorem Bounded.folder {made written : Place → Prop}
    (h : Bounded made (fun _ => False) written files after)
    {place : Place} (hfolder : files.node? place = some .folder) :
    after.node? place = some .folder := by
  rcases h.elsewhere place not_false with hsame | ⟨-, -, hmade⟩
  · exact hsame.trans hfolder
  · exact hmade

/-- Where folders are only made, what could be passed could be passed before. -/
theorem Bounded.passable_iff {made written : Place → Prop}
    (h : Bounded made (fun _ => False) written files after) {place : Place} :
    after.Passable place ↔ files.Passable place := by
  unfold Passable
  rcases h.elsewhere place not_false with hsame | ⟨-, hnone, hmade⟩
  · rw [hsame]
  · simp [hnone, hmade]

theorem isFolder_of_makeFolder {path : FilePath} (h : files.makeFolder path = .ok after) :
    after.isFolder path = true := by
  have hbounded := bounded_of_makeFolder h
  rw [isFolder_iff, hbounded.workingFolder]
  unfold makeFolder at h
  cases hlocate : files.locate path with
  | error fault => rw [hlocate] at h; cases h
  | ok place =>
    rw [hlocate] at h
    obtain ⟨husable, hway, rfl⟩ := locate_eq_ok_iff.mp hlocate
    change (if (files.node? _).isSome then _ else _) = Except.ok after at h
    split at h
    · cases h
    · rename_i hfree
      refine ⟨husable, ?_⟩
      rintro place ⟨front, hfront, rfl⟩
      by_cases he : front = path.names
      · -- the top is there, so it is not made
        have htop : placeOf files.workingFolder path ≠ [] := fun htop => hfree (by rw [htop]; rfl)
        rw [he, ← Except.ok.inj h]
        exact node?_put_self _ htop
      · exact hbounded.folder (hway front hfront he)

theorem isFolder_of_makeFolderIfMissing {path : FilePath}
    (h : (files.makeFolderIfMissing path).2 = none) :
    (files.makeFolderIfMissing path).1.isFolder path = true := by
  unfold makeFolderIfMissing at h ⊢
  split at h
  · exact isFolder_of_makeFolder ‹_›
  · split at h
    · rename_i hthere
      rw [if_pos hthere]
      exact hthere.2
    · cases h

/-- If folders are made, the last of them is there. -/
theorem isFolder_of_makeFoldersUpTo {path : FilePath} {count : Nat}
    (h : (files.makeFoldersUpTo path count).2 = none) :
    (files.makeFoldersUpTo path count).1.isFolder { path with names := path.names.take count } =
      true := by
  unfold makeFoldersUpTo at h ⊢
  dsimp only at h ⊢
  split at h
  · split at h
    · exact isFolder_of_makeFolderIfMissing h
    · rename_i hfailed
      exact (hfailed _ (Prod.ext rfl h)).elim
  · exact isFolder_of_makeFolderIfMissing h

/-- On a way that can be passed, one folder is missing or it can be made. -/
theorem makeFolderIfMissing_of_passable {path : FilePath} (husable : path.Usable)
    (hway : ∀ place, OnWay files.workingFolder path place → files.Passable place) :
    (files.makeFolderIfMissing path).2 = none ∨
      (files.makeFolderIfMissing path).2 = some .notFound ∧
      files.locate path = .error .notFound := by
  cases hlocate : files.locate path with
  | error fault =>
    -- on a passable way only a missing folder can stop the walk
    obtain rfl : fault = .notFound := by
      unfold locate at hlocate
      rw [husable.noNul, if_neg Bool.false_ne_true, husable.notLong,
        if_neg Bool.false_ne_true] at hlocate
      exact walk_error_of_passable husable.short (fun front hfront =>
        hway _ ⟨front, hfront, rfl⟩) hlocate
    refine .inr ⟨?_, rfl⟩
    unfold makeFolderIfMissing makeFolder
    rw [hlocate]
    rfl
  | ok place =>
    refine .inl ?_
    obtain ⟨-, -, rfl⟩ := locate_eq_ok_iff.mp hlocate
    unfold makeFolderIfMissing makeFolder isFolder
    rw [hlocate]
    rcases hway _ ⟨path.names, List.prefix_rfl, rfl⟩ with hnone | hfolder
    · change files.node? (placeOf files.workingFolder path) = none at hnone
      simp [bind, Except.bind, hnone, pure, Except.pure]
    · change files.node? (placeOf files.workingFolder path) = some .folder at hfolder
      simp [bind, Except.bind, hfolder, throw, throwThe, MonadExceptOf.throw]

/-- From a folder, one name more is found. -/
theorem locate_of_isFolder_take {path : FilePath} {count : Nat} (husable : path.Usable)
    (h : files.isFolder { path with names := path.names.take count } = true) :
    files.locate { path with names := path.names.take (count + 1) } =
      .ok (placeOf files.workingFolder { path with names := path.names.take (count + 1) }) := by
  obtain ⟨-, hfolders⟩ := isFolder_iff.mp h
  refine locate_eq_ok_iff.mpr ⟨husable.of_prefix (List.take_prefix _ _),
    fun front hfront hne => ?_, rfl⟩
  have hlength : front.length < (path.names.take (count + 1)).length :=
    Nat.lt_of_le_of_ne hfront.length_le fun he => hne (hfront.eq_of_length he)
  have hle : front.length ≤ count :=
    Nat.lt_succ_iff.mp (Nat.lt_of_lt_of_le hlength (List.length_take_le _ _))
  exact hfolders _ ⟨front, List.prefix_take_iff.mpr ⟨hfront.trans (List.take_prefix _ _), hle⟩,
    rfl⟩

section

variable {path : FilePath} (husable : path.Usable)
  (hway : ∀ place, OnWay files.workingFolder path place → files.Passable place)

include husable hway

/-- As long as the way can be passed as before, a folder on it is made,
unless the one above is missing. -/
theorem makeFolderIfMissing_onWay {state : FileSystem}
    (hfolder : state.workingFolder = files.workingFolder)
    (hpassable : ∀ place, state.Passable place ↔ files.Passable place) (count : Nat) :
    (state.makeFolderIfMissing { path with names := path.names.take count }).2 = none ∨
      (state.makeFolderIfMissing { path with names := path.names.take count }).2 = some .notFound ∧
        state.locate { path with names := path.names.take count } = .error .notFound := by
  refine makeFolderIfMissing_of_passable (husable.of_prefix (List.take_prefix _ _)) ?_
  rintro place ⟨front, hfront, rfl⟩
  rw [hfolder, hpassable]
  exact hway _ ⟨front, hfront.trans (List.take_prefix _ _), rfl⟩

/-- Folders are made along a way that can be passed. -/
theorem makeFoldersUpTo_of_passable (count : Nat) :
    (files.makeFoldersUpTo path count).2 = none := by
  induction count with
  | zero =>
    unfold makeFoldersUpTo
    dsimp only
    split
    · contradiction
    · rcases makeFolderIfMissing_onWay husable hway rfl (fun _ => .rfl) 0 with
        hnone | ⟨-, hmissing⟩
      · exact hnone
      · -- the place where a path begins is found
        have hfound : files.locate _ = .ok _ := locate_eq_ok_iff.mpr
          ⟨husable.of_prefix (List.take_prefix 0 path.names),
            fun front hfront hne => absurd (List.prefix_nil.mp hfront) hne, rfl⟩
        rw [hmissing] at hfound
        cases hfound
  | succ count ih =>
    have hshorter := isFolder_of_makeFoldersUpTo ih
    have hbounded : Bounded _ _ _ files (files.makeFoldersUpTo path count).1 :=
      bounded_makeFoldersUpTo count
    unfold makeFoldersUpTo
    dsimp only
    split
    · rename_i _ n hn
      obtain rfl := Nat.succ.inj hn
      split
      · rename_i state hstate
        rw [hstate] at hshorter hbounded
        -- making the folders above leaves the way passable
        rcases makeFolderIfMissing_onWay husable hway hbounded.workingFolder
          (fun _ => hbounded.passable_iff) (count + 1) with hnone | ⟨-, hmissing⟩
        · exact hnone
        · -- the folder before the last name is there now, so the last name is reached
          have hfound := locate_of_isFolder_take husable hshorter
          rw [hmissing] at hfound
          cases hfound
      · rename_i hfailed
        exact (hfailed _ (Prod.ext rfl ih)).elim
    · rename_i hmade
      rcases makeFolderIfMissing_onWay husable hway rfl (fun _ => .rfl) (count + 1) with
        hnone | ⟨hmissing, -⟩
      · exact hnone
      · exact (hmade _ _ (Prod.ext rfl hmissing) rfl).elim

end

/-- **Folders are made just if the path can be used and no file lies on the way.** -/
theorem makeFolders_eq_none_iff {path : FilePath} :
    (files.makeFolders path).2 = none ↔
      path.Usable ∧ ∀ place, OnWay files.workingFolder path place → files.Passable place := by
  refine ⟨fun h => ?_, fun h => makeFoldersUpTo_of_passable h.1 h.2 _⟩
  have hthere := isFolder_of_makeFoldersUpTo h
  rw [List.take_length] at hthere
  have hbounded : Bounded _ _ _ files (files.makeFolders path).1 := bounded_makeFolders
  obtain ⟨husable, hfolders⟩ := isFolder_iff.mp hthere
  refine ⟨husable, fun place hplace => hbounded.passable_iff.mp (.inr (hfolders place ?_))⟩
  exact hbounded.workingFolder ▸ hplace

/-- All of the way is there once folders are made. -/
theorem node?_makeFolders_of_onWay {path : FilePath} (h : (files.makeFolders path).2 = none)
    {place : Place} (hplace : OnWay files.workingFolder path place) :
    (files.makeFolders path).1.node? place = some .folder := by
  have hthere := isFolder_of_makeFoldersUpTo h
  rw [List.take_length] at hthere
  have hbounded : Bounded _ _ _ files (files.makeFolders path).1 := bounded_makeFolders
  exact (isFolder_iff.mp hthere).2 place (hbounded.workingFolder ▸ hplace)

/-- Making folders leaves all that is not on the way. -/
theorem node?_makeFolders_of_not_onWay {path : FilePath} {place : Place}
    (hplace : ¬ OnWay files.workingFolder path place) :
    (files.makeFolders path).1.node? place = files.node? place :=
  bounded_makeFolders.node?_eq not_false fun hway => absurd hway hplace

/-! ## Writing a file -/

theorem writeFile_eq_ok_iff {path : FilePath} {bytes : List UInt8} :
    files.writeFile path bytes = .ok after ↔
      ∃ place, files.locate path = .ok place ∧ files.node? place ≠ some .folder ∧
        after = files.put place (.file bytes) := by
  unfold writeFile
  rw [bind_eq_ok]
  refine exists_congr fun place => and_congr_right fun _ => ?_
  change (if files.node? place == some .folder then _ else _) = Except.ok after ↔ _
  split
  · rename_i hfolder
    exact ⟨nofun, fun h => absurd (beq_iff_eq.mp hfolder) h.1⟩
  · rename_i hfile
    have hfile : files.node? place ≠ some .folder := by simpa using hfile
    exact ⟨fun h => ⟨hfile, (Except.ok.inj h).symm⟩, fun h => congrArg _ h.2.symm⟩

theorem write_eq_iff {path : FilePath} {bytes : List UInt8} :
    files.write path bytes = (after, none) ↔
      ∃ state, files.makeFolders path.parent = (state, none) ∧
      state.writeFile path bytes = .ok after := by
  unfold write
  rcases files.makeFolders path.parent with ⟨state, _ | fault⟩
  · cases hwritten : state.writeFile path bytes <;> simp [hwritten]
  · simp

/-- A file is written just if its path can be used, no file lies on the way and no folder at its
place. It is then laid over what making the folders on its way left. -/
theorem write_eq_put_iff {path : FilePath} {bytes : List UInt8} (hne : path.names ≠ [])
    (hapart : ¬ OnWay files.workingFolder path.parent (placeOf files.workingFolder path)) :
    files.write path bytes = (after, none) ↔
      path.Usable ∧ (∀ place, OnWay files.workingFolder path.parent place → files.Passable place) ∧
        files.node? (placeOf files.workingFolder path) ≠ some .folder ∧
        after = (files.makeFolders path.parent).1.put
          (placeOf files.workingFolder path) (.file bytes) := by
  have hsame := node?_makeFolders_of_not_onWay hapart
  have hfolder : (files.makeFolders path.parent).1.workingFolder = files.workingFolder :=
    bounded_makeFolders.workingFolder
  rw [write_eq_iff]
  constructor
  · rintro ⟨state, hstate, hwritten⟩
    obtain ⟨place, hlocate, hfile, rfl⟩ := writeFile_eq_ok_iff.mp hwritten
    rw [hstate] at hsame hfolder ⊢
    obtain ⟨husable, -, rfl⟩ := locate_eq_ok_iff.mp hlocate
    obtain ⟨-, hway⟩ := makeFolders_eq_none_iff.mp (congrArg Prod.snd hstate)
    dsimp only at hsame hfolder ⊢
    rw [hfolder] at hfile ⊢
    exact ⟨husable, hway, hsame ▸ hfile, rfl⟩
  · rintro ⟨husable, hway, hfile, rfl⟩
    have hmade : (files.makeFolders path.parent).2 = none :=
      makeFolders_eq_none_iff.mpr ⟨husable.of_prefix (List.dropLast_prefix _), hway⟩
    refine ⟨_, Prod.ext rfl hmade, writeFile_eq_ok_iff.mpr ⟨_, ?_, hsame ▸ hfile, rfl⟩⟩
    refine locate_eq_ok_iff.mpr ⟨husable, fun front hfront hproper => ?_, by rw [hfolder]⟩
    rw [hfolder]
    -- a way that ends before the last name is the way to the parent
    refine node?_makeFolders_of_onWay hmade ⟨front, ?_, rfl⟩
    rw [← List.dropLast_append_getLast hne] at hfront hproper
    exact (List.prefix_concat_iff.mp hfront).resolve_left hproper

/-! ## Clearing -/

/-- A folder is taken away if its path leads to it and its text is not
too long, and else nothing is. -/
theorem clear_eq (files : FileSystem) (text : String) :
    files.clear text =
      if FilePath.isTooLong text = false ∧ files.isFolder (.ofString text) = true then
        files.erase (placeOf files.workingFolder (.ofString text))
      else files := by
  unfold clear
  by_cases hlong : FilePath.isTooLong text = true
  · simp [hlong]
  · unfold isFolder
    cases hlocate : files.locate (.ofString text) with
    | error fault => simp [hlong]
    | ok place =>
      obtain rfl := place_of_locate hlocate
      simp [hlong]

/-! ## Steps in order -/

/-- Once some steps are taken, the others go on from what they left. -/
theorem performAll_append_of_eq {state : FileSystem} {first rest : List Action}
    (h : files.performAll first = (state, none)) :
    files.performAll (first ++ rest) = state.performAll rest := by
  induction first generalizing files with
  | nil =>
    obtain rfl := (Prod.ext_iff.mp h).1
    rfl
  | cons action first ih =>
    rw [performAll] at h
    rw [List.cons_append, performAll]
    split at h
    · exact ih h
    · rename_i hfailed
      exact (hfailed _ h).elim

/-- All steps are taken just if the first are, and then the others. -/
theorem performAll_append_iff {first rest : List Action} :
    files.performAll (first ++ rest) = (after, none) ↔
      ∃ state, files.performAll first = (state, none) ∧ state.performAll rest = (after, none) := by
  constructor
  · intro h
    induction first generalizing files with
    | nil => exact ⟨files, rfl, h⟩
    | cons action first ih =>
      rw [List.cons_append, performAll] at h
      rw [performAll]
      split at h
      · exact ih h
      · rename_i hfailed
        exact (hfailed _ h).elim
  · rintro ⟨state, hfirst, hrest⟩
    rw [performAll_append_of_eq hfirst, hrest]

theorem performAll_map_clear (texts : List String) :
    files.performAll (texts.map .clear) = (texts.foldl clear files, none) := by
  induction texts generalizing files with
  | nil => rfl
  | cons text texts ih => exact ih

/-- Folders are made along several ways just if their paths can be used
and no file lies on any way. -/
theorem performAll_map_makeFolder {paths : List FilePath} :
    (files.performAll (paths.map .makeFolder)).2 = none ↔
      ∀ path ∈ paths, path.Usable ∧
        ∀ place, OnWay files.workingFolder path place → files.Passable place := by
  induction paths generalizing files with
  | nil => simp [performAll]
  | cons path paths ih =>
    rw [List.forall_mem_cons, ← makeFolders_eq_none_iff, List.map_cons, performAll, perform]
    have hbounded : Bounded _ _ _ files (files.makeFolders path).1 := bounded_makeFolders
    rcases hmade : files.makeFolders path with ⟨next, _ | fault⟩
    · rw [hmade] at hbounded
      have hfolder : next.workingFolder = files.workingFolder := hbounded.workingFolder
      -- making a folder opens no way and closes none for those after it
      have hpassable : ∀ place, next.Passable place ↔ files.Passable place :=
        fun _ => hbounded.passable_iff
      simp only [ih, hfolder, hpassable, true_and]
    · simp

/-- All of these ways are there then, and nothing else is changed. -/
theorem node?_performAll_map_makeFolder {paths : List FilePath}
    (h : files.performAll (paths.map .makeFolder) = (after, none)) :
    after.workingFolder = files.workingFolder ∧
    (∀ path ∈ paths, ∀ place, OnWay files.workingFolder path place →
      after.node? place = some .folder) ∧
    ∀ place, (∀ path ∈ paths, ¬ OnWay files.workingFolder path place) →
      after.node? place = files.node? place := by
  induction paths generalizing files with
  | nil =>
    obtain rfl := (Prod.ext_iff.mp h).1
    exact ⟨rfl, fun _ h => absurd h List.not_mem_nil, fun _ _ => rfl⟩
  | cons path paths ih =>
    rw [List.map_cons, performAll, perform] at h
    have hbounded : Bounded _ _ _ files (files.makeFolders path).1 := bounded_makeFolders
    split at h
    · rename_i next hmade
      obtain ⟨hfolder, hways, hothers⟩ := ih h
      have hway : ∀ place, OnWay files.workingFolder path place →
          (files.makeFolders path).1.node? place = some .folder :=
        fun _ => node?_makeFolders_of_onWay (congrArg Prod.snd hmade)
      have hother : ∀ place, ¬ OnWay files.workingFolder path place →
          (files.makeFolders path).1.node? place = files.node? place :=
        fun _ => node?_makeFolders_of_not_onWay
      rw [hmade] at hbounded hway hother
      dsimp only at hbounded hway hother
      rw [hbounded.workingFolder] at hfolder hways hothers
      refine ⟨hfolder, ?_, fun place hplace => ?_⟩
      · rw [List.forall_mem_cons]
        refine ⟨fun place hplace => ?_, hways⟩
        -- what is there stays there
        by_cases hlater : ∃ other ∈ paths, OnWay files.workingFolder other place
        · obtain ⟨other, hmem, hlater⟩ := hlater
          exact hways other hmem place hlater
        · rw [hothers place fun other hmem hlater' => hlater ⟨other, hmem, hlater'⟩]
          exact hway place hplace
      · rw [List.forall_mem_cons] at hplace
        rw [hothers place hplace.2, hother place hplace.1]
    · rename_i hfailed
      exact (hfailed _ h).elim

/-! ## Trees -/

/-- What lies below something that is there lies in folders. -/
def IsTree (files : FileSystem) : Prop :=
  ∀ front place, front <+: place → front ≠ place → files.node? place ≠ none →
    files.node? front = some .folder

/-- Where nothing lies, nothing lies below. -/
theorem IsTree.none_below (h : files.IsTree) {front place : Place}
    (hnone : files.node? front = none) (hlead : front <+: place) : files.node? place = none := by
  by_contra hsome
  by_cases he : front = place
  · exact hsome (he ▸ hnone)
  · rw [h front place hlead he hsome] at hnone
    cases hnone

/-- Files are a tree if every folder on the way to an entry is listed. -/
theorem isTree_of_nodes
    (h : ∀ entry ∈ files.nodes, ∀ front ∈ entry.1.inits, front ≠ entry.1 →
      files.node? front = some .folder) : files.IsTree := by
  intro front place hlead hne hsome
  unfold node? at hsome
  split at hsome
  · rename_i htop
    rw [List.isEmpty_iff.mp htop, List.prefix_nil] at hlead
    exact absurd (hlead.trans (List.isEmpty_iff.mp htop).symm) hne
  · obtain ⟨node, hnode⟩ := Option.ne_none_iff_exists'.mp hsome
    have hentry : (place, node) ∈ files.nodes := by
      obtain ⟨before, after, hnodes, -⟩ := List.lookup_eq_some_iff.mp hnode
      rw [hnodes]
      exact List.mem_append_right _ List.mem_cons_self
    exact h _ hentry front ((List.mem_inits _ _).mpr hlead) hne

end FileSystem

end ApiClient
