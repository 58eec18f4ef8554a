import ApiClient.Proofs.Client.Confined
import ApiClient.Proofs.FileSystem.Steps

/-!
# What a run leaves at its destination

A run empties four folders and then writes its files, so what lies at the destination
afterwards is told by the files that were written, in order, if the folders could be
emptied. Whether a step succeeds is told by its path alone then: the files of a client
never stand in each other's way.
-/

namespace ApiClient

open FileSystem (placeOf OnWay Bounded)

/-! ## Paths below a destination -/

instance (destination place : Place) : Decidable (Inside destination place) :=
  inferInstanceAs (Decidable (_ ∨ _))

/-- A place below a destination is one that a run may change by the names that lead there. -/
theorem inside_append_iff {top path : Place} : Inside top (top ++ path) ↔ Inside [] path := by
  unfold Inside
  simp only [List.append_cancel_left_eq, List.prefix_append_right_inj, List.nil_append]

/-- A place that a run may change lies below the destination. -/
theorem Inside.exists_append {top place : Place} (h : Inside top place) :
    ∃ path, path ≠ [] ∧ place = top ++ path := by
  rcases h with rfl | ⟨folder, -, rest, rfl⟩
  · exact ⟨_, List.cons_ne_nil _ _, rfl⟩
  · exact ⟨folder :: rest, List.cons_ne_nil _ _, by simp⟩

/-- The way to a file of a client is where a run may make folders. -/
theorem IsClientPath.inside_front {path front : List String} (h : IsClientPath path)
    (hne : front ≠ []) (hfront : front <+: path) : Inside [] front := by
  rcases h.folder with rfl | ⟨folder, hfolder, rest, rfl⟩
  · left
    obtain ⟨name, rest, rfl⟩ := List.exists_cons_of_ne_nil hne
    obtain ⟨rfl, hrest⟩ := List.cons_prefix_cons.mp hfront
    rw [List.prefix_nil.mp hrest]
    rfl
  · exact inside_of_leading hfolder hfront hne

theorem IsClientPath.inside {path : List String} (h : IsClientPath path) : Inside [] path :=
  h.inside_front h.ne_nil List.prefix_rfl

/-- Below each folder, all files of a client lie equally deep. -/
theorem IsClientPath.length_eq {path other : List String} (h : IsClientPath path)
    (h' : IsClientPath other)
    (hhead : path.head? = other.head?) : path.length = other.length := by
  cases h <;> cases h' <;> simp_all

/-- No file of a client lies on the way to another. -/
theorem IsClientPath.eq_of_prefix {path other : List String} (h : IsClientPath path)
    (h' : IsClientPath other) (hlead : path <+: other) : path = other := by
  refine hlead.eq_of_length (h.length_eq h' ?_)
  obtain ⟨rest, rfl⟩ := hlead
  rw [List.head?_append_of_ne_nil _ h.ne_nil]

/-- No folder that is renewed is a file of a client. -/
theorem IsClientPath.ne_folder {path : List String} (h : IsClientPath path) {folder : String}
    (hfolder : folder ∈ renewedFolders) : path ≠ [folder] := by
  rintro rfl
  cases h
  revert hfolder
  decide

/-! ## Contents -/

/-- What lies below a destination, by the names that lead there. -/
abbrev Contents := List String → Option FileNode

namespace Contents

/-- Four empty folders, and what is there of the model. -/
def renewed (model : Option FileNode) : Contents := fun path =>
  if path = ["model.ts"] then model
  else if ∃ folder ∈ renewedFolders, path = [folder] then some .folder
  else none

/-- The contents once a file is written, with the folders on its way. -/
def write (contents : Contents) (file : ClientFile) : Contents := fun path =>
  if path = file.path then some (.file file.text.toUTF8.toList)
  else if path ≠ [] ∧ path <+: file.path then some .folder
  else contents path

/-- The contents once files are written into empty folders. -/
def ofFiles (model : Option FileNode) (files : List ClientFile) : Contents :=
  files.foldl write (renewed model)

/-- Contents into which every file of a client can be written. -/
structure Tidy (contents : Contents) : Prop where
  file : ∀ path, IsClientPath path → contents path ≠ some .folder
  way : ∀ path, IsClientPath path → ∀ front, front <+: path → front ≠ [] → front ≠ path →
    contents front = none ∨ contents front = some .folder

theorem tidy_renewed {model : Option FileNode} (h : model ≠ some .folder) :
    (renewed model).Tidy where
  file path hpath := by
    unfold renewed
    split
    · exact h
    · rw [if_neg]
      · exact nofun
      · rintro ⟨folder, hfolder, hpath'⟩
        exact hpath.ne_folder hfolder hpath'
  way path hpath front hfront hne hproper := by
    unfold renewed
    split
    · rename_i hmodel
      subst hmodel
      exact absurd (IsClientPath.model.eq_of_prefix hpath hfront) hproper
    · split
      · exact .inr rfl
      · exact .inl rfl

/-- Writing a file of a client leaves room for every other. -/
theorem Tidy.write {contents : Contents} (h : contents.Tidy) {file : ClientFile}
    (hfile : IsClientPath file.path) : (contents.write file).Tidy where
  file path hpath := by
    unfold Contents.write
    split
    · exact nofun
    · rename_i hne
      rw [if_neg fun hway => hne (hpath.eq_of_prefix hfile hway.2)]
      exact h.file path hpath
  way path hpath front hfront hne hproper := by
    unfold Contents.write
    split
    · rename_i he
      subst he
      exact absurd (hfile.eq_of_prefix hpath hfront) hproper
    · split
      · exact .inr rfl
      · exact h.way path hpath front hfront hne hproper

theorem tidy_ofFiles {model : Option FileNode} (h : model ≠ some .folder) {files : List ClientFile}
    (hfiles : ∀ file ∈ files, IsClientPath file.path) : (ofFiles model files).Tidy := by
  unfold ofFiles
  have hstart : (renewed model).Tidy := tidy_renewed h
  generalize renewed model = contents at hstart
  induction files generalizing contents with
  | nil => exact hstart
  | cons file files ih =>
    rw [List.forall_mem_cons] at hfiles
    exact ih hfiles.2 _ (hstart.write hfiles.1)

end Contents

/-! ## Writing the files -/

/-- A destination that is there, and what lies at it of a client. -/
structure Holds (destination : FilePath) (contents : Contents) (files : FileSystem) : Prop where
  way : ∀ place, OnWay files.workingFolder destination place → files.node? place = some .folder
  inside : ∀ path, Inside [] path →
    files.node? (placeOf files.workingFolder destination ++ path) = contents path

/-- Where the same lies at a destination, the same lies at each place that a run may change. -/
theorem Holds.node?_eq {destination : FilePath} {contents : Contents} {files other : FileSystem}
    (h : Holds destination contents files) (h' : Holds destination contents other)
    (hfolder : other.workingFolder = files.workingFolder) {place : Place}
    (hplace : Inside (placeOf files.workingFolder destination) place) :
    other.node? place = files.node? place := by
  obtain ⟨path, -, rfl⟩ := hplace.exists_append
  have hpath := inside_append_iff.mp hplace
  have hthere := h'.inside path hpath
  rw [hfolder] at hthere
  exact hthere.trans (h.inside path hpath).symm

/-- A destination whose way does not lead through what a run may change. -/
def Apart (destination : FilePath) (workingFolder : Place) : Prop :=
  ∀ place, OnWay workingFolder destination place →
  ¬ Inside (placeOf workingFolder destination) place

section

variable {destination : FilePath} {contents : Contents} {files after : FileSystem}

/-- The way to a place below a destination is the way to the destination,
and goes on through the names. -/
theorem onWay_below_iff {names path : List String} {workingFolder : Place}
    (hapart : Apart destination workingFolder) (hnames : ∀ name ∈ names, name ≠ "..")
    (hpath : Inside [] path) :
    OnWay workingFolder (destination.below names) (placeOf workingFolder destination ++ path) ↔
      path <+: names := by
  constructor
  · intro h
    rcases FileSystem.onWay_below hnames h with hway | ⟨front, hfront, he⟩
    · exact absurd (inside_append_iff.mpr hpath) (hapart _ hway)
    · rwa [List.append_cancel_left he]
  · intro h
    refine ⟨destination.names ++ path, (List.prefix_append_right_inj _).mpr h, ?_⟩
    rw [FileSystem.lead_append]
    exact (FileSystem.lead_of_forall_ne (fun name hname => hnames name (h.subset hname)) _).symm

/-- The way to a destination goes on to what lies below it. -/
theorem onWay_below_of_onWay {names : List String} {workingFolder place : Place}
    (h : OnWay workingFolder destination place) :
    OnWay workingFolder (destination.below names) place := by
  obtain ⟨front, hfront, rfl⟩ := h
  exact ⟨front, hfront.trans (List.prefix_append _ _), rfl⟩

/-- **A file of a client is written just if its path can be used,** into
contents that leave room for it. -/
theorem Holds.write_iff (h : Holds destination contents files)
    (hapart : Apart destination files.workingFolder)
    (htidy : contents.Tidy) {file : ClientFile} (hpath : IsClientPath file.path)
    {bytes : List UInt8} : files.write (destination.below file.path) bytes = (after, none) ↔
      (destination.below file.path).Usable ∧
        after = (files.makeFolders (destination.below file.path.dropLast)).1.put
          (placeOf files.workingFolder destination ++ file.path) (.file bytes) := by
  have hplace := FileSystem.placeOf_below hpath.ne_up files.workingFolder destination
  have hparent := FilePath.parent_below hpath.ne_nil destination
  have hdrop : ∀ name ∈ file.path.dropLast, name ≠ ".." :=
    fun name hname => hpath.ne_up name (List.dropLast_subset _ hname)
  have hshorter : file.path.dropLast.length < file.path.length := by
    rw [List.length_dropLast]
    exact Nat.sub_lt (List.length_pos_iff.mpr hpath.ne_nil) Nat.one_pos
  have hnotOnWay : ¬ OnWay files.workingFolder (destination.below file.path).parent
      (placeOf files.workingFolder (destination.below file.path)) := by
    rw [hparent, hplace, onWay_below_iff hapart hdrop hpath.inside]
    exact fun hlead => Nat.not_le.mpr hshorter hlead.length_le
  -- what is on the way to the file is passable: it is on the way to the destination, or in it
  rw [FileSystem.write_eq_put_iff (by simp [FilePath.below, hpath.ne_nil]) hnotOnWay,
    hparent, hplace]
  refine and_congr_right fun _ =>
    ⟨fun h => h.2.2, fun hafter => ⟨fun place hway => ?_, ?_, hafter⟩⟩
  · rcases FileSystem.onWay_below hdrop hway with hway | ⟨front, hfront, rfl⟩
    · exact .inr (h.way place hway)
    · by_cases hne : front = []
      · subst hne
        rw [List.append_nil]
        exact .inr (h.way _ (FileSystem.onWay_placeOf _ _))
      · have hlead : front <+: file.path := hfront.trans (List.dropLast_prefix _)
        unfold FileSystem.Passable
        rw [h.inside front (hpath.inside_front hne hlead)]
        refine htidy.way file.path hpath front hlead hne fun he => ?_
        rw [he] at hfront
        exact Nat.not_le.mpr hshorter hfront.length_le
  · rw [h.inside file.path hpath.inside]
    exact htidy.file file.path hpath

/-- Writing a file of a client adds it to what lies at the destination. -/
theorem Holds.write (h : Holds destination contents files)
    (hapart : Apart destination files.workingFolder)
    (htidy : contents.Tidy) {file : ClientFile} (hpath : IsClientPath file.path)
    (hwritten : files.write (destination.below file.path) file.text.toUTF8.toList =
      (after, none)) :
    after.workingFolder = files.workingFolder ∧ Holds destination (contents.write file) after := by
  obtain ⟨husable, rfl⟩ := (h.write_iff hapart htidy hpath).mp hwritten
  have hmade : (files.makeFolders (destination.below file.path.dropLast)).2 = none := by
    obtain ⟨state, hstate, -⟩ := FileSystem.write_eq_iff.mp hwritten
    rw [FilePath.parent_below hpath.ne_nil] at hstate
    exact congrArg Prod.snd hstate
  have hbounded :
      Bounded _ _ _ files (files.makeFolders (destination.below file.path.dropLast)).1 :=
    FileSystem.bounded_makeFolders
  have hfolder := hbounded.workingFolder
  have hdrop : ∀ name ∈ file.path.dropLast, name ≠ ".." :=
    fun name hname => hpath.ne_up name (List.dropLast_subset _ hname)
  refine ⟨hfolder, fun place hway => ?_, fun path hinside => ?_⟩
  · change OnWay (files.makeFolders _).1.workingFolder _ _ at hway
    rw [hfolder] at hway
    rw [FileSystem.node?_put_of_ne]
    · exact hbounded.folder (h.way place hway)
    · rintro rfl
      exact hapart _ hway (inside_append_iff.mpr hpath.inside)
  · change FileSystem.node? _ (placeOf (files.makeFolders _).1.workingFolder _ ++ path) = _
    rw [hfolder]
    unfold Contents.write
    by_cases he : path = file.path
    · subst he
      rw [if_pos rfl, FileSystem.node?_put_self]
      simp [hpath.ne_nil]
    · rw [if_neg he, FileSystem.node?_put_of_ne _ fun hsame => he (List.append_cancel_left hsame)]
      -- a proper part of a path is a part of what is before its last name
      have hway : path <+: file.path ↔ path <+: file.path.dropLast := by
        conv_lhs => rw [← List.dropLast_append_getLast hpath.ne_nil]
        rw [List.prefix_concat_iff, List.dropLast_append_getLast hpath.ne_nil]
        exact or_iff_right he
      by_cases hlead : path <+: file.path
      · have hne : path ≠ [] := by
          rintro rfl
          obtain ⟨path, hne, he⟩ := hinside.exists_append
          exact hne (by simpa using he.symm)
        rw [if_pos ⟨hne, hlead⟩]
        exact FileSystem.node?_makeFolders_of_onWay hmade
          ((onWay_below_iff hapart hdrop hinside).mpr (hway.mp hlead))
      · rw [if_neg fun h => hlead h.2, FileSystem.node?_makeFolders_of_not_onWay]
        · exact h.inside path hinside
        · rw [onWay_below_iff hapart hdrop hinside, ← hway]
          exact hlead

/-- **Files of a client are written just if their paths can be used,** one after the other. -/
theorem Holds.performAll_writes {written : List ClientFile}
    (hwritten : ∀ file ∈ written, IsClientPath file.path)
    (hapart : Apart destination files.workingFolder)
    (htidy : contents.Tidy) (h : Holds destination contents files) :
    ((files.performAll (Plan.writes destination written)).2 = none ↔
        ∀ file ∈ written, (destination.below file.path).Usable) ∧
      ∀ after, files.performAll (Plan.writes destination written) = (after, none) →
        after.workingFolder = files.workingFolder ∧
          Holds destination (written.foldl Contents.write contents) after := by
  -- each file is added to the contents that the files before it left
  induction written generalizing files contents with
  | nil =>
    refine ⟨by simp [Plan.writes, FileSystem.performAll], fun after hafter => ?_⟩
    obtain rfl := (Prod.ext_iff.mp hafter).1
    exact ⟨rfl, h⟩
  | cons file rest ih =>
    rw [List.forall_mem_cons] at hwritten ⊢
    obtain ⟨hpath, hrest⟩ := hwritten
    have hiff : ∀ after,
        files.write (destination.below file.path) file.text.toUTF8.toList = (after, none) ↔ _ :=
      fun after => h.write_iff hapart htidy hpath
    rw [Plan.writes, List.map_cons, FileSystem.performAll, FileSystem.perform]
    split
    · rename_i next hnext
      obtain ⟨husable, -⟩ := (hiff next).mp hnext
      obtain ⟨hfolder, hholds⟩ := h.write hapart htidy hpath hnext
      obtain ⟨hends, hleaves⟩ := ih hrest (hfolder ▸ hapart) (htidy.write hpath) hholds
      rw [hfolder] at hleaves
      exact ⟨hends.trans (and_iff_right husable).symm, hleaves⟩
    · rename_i hfailed
      refine ⟨⟨fun hnone => (hfailed _ (Prod.ext rfl hnone)).elim, fun husable => ?_⟩,
        fun after hafter => (hfailed _ hafter).elim⟩
      exact (hfailed _ ((hiff _).mpr ⟨husable.1, rfl⟩)).elim

end

/-! ## Renewing the folders -/

section

variable {options : Options} {files after : FileSystem}

/-- A destination whose folders can be emptied: each is there and its text leads to
it, or there is nothing of it. -/
structure Clearable (options : Options) (files : FileSystem) : Prop where
  apart : Apart (.ofString options.destination) files.workingFolder
  folders : ∀ folder ∈ renewedFolders,
    (∀ place, placeOf files.workingFolder (.ofString options.destination) ++ [folder] <+: place →
      files.node? place = none) ∨
    FilePath.isTooLong (FilePath.extend options.destination folder) = false ∧
      (∀ place, OnWay files.workingFolder (.ofString options.destination) place →
        files.node? place = some .folder) ∧
      files.node? (placeOf files.workingFolder (.ofString options.destination) ++ [folder]) =
        some .folder

/-- The way to a folder that is renewed is the way to the destination, and the folder. -/
theorem onWay_folder_iff {destination : FilePath} {workingFolder place : Place} {folder : String}
    (hfolder : folder ∈ renewedFolders) :
    OnWay workingFolder (destination.below [folder]) place ↔
      OnWay workingFolder destination place ∨
      place = placeOf workingFolder destination ++ [folder] := by
  constructor
  · intro h
    rcases FileSystem.onWay_below (ne_up_of_mem_renewedFolders hfolder) h with
      hway | ⟨front, hfront, rfl⟩
    · exact .inl hway
    · rcases List.prefix_concat_iff.mp (show front <+: [] ++ [folder] from hfront) with rfl | hnil
      · exact .inr rfl
      · rw [List.prefix_nil.mp hnil, List.append_nil]
        exact .inl (FileSystem.onWay_placeOf _ _)
  · rintro (hway | rfl)
    · exact onWay_below_of_onWay hway
    · rw [← FileSystem.placeOf_below (ne_up_of_mem_renewedFolders hfolder)]
      exact FileSystem.onWay_placeOf _ _

/-- Clearing a folder takes away all of it. -/
theorem Clearable.node?_clear (h : Clearable options files) {folder : String}
    (hfolder : folder ∈ renewedFolders)
    (husable : ((FilePath.ofString options.destination).below [folder]).Usable) (place : Place) :
    (files.clear (FilePath.extend options.destination folder)).node? place =
      if placeOf files.workingFolder (.ofString options.destination) ++ [folder] <+: place
      then none
      else files.node? place := by
  have hplace := FileSystem.placeOf_below (ne_up_of_mem_renewedFolders hfolder) files.workingFolder
    (.ofString options.destination)
  have hisFolder :
      files.isFolder ((FilePath.ofString options.destination).below [folder]) = true ↔ _ :=
    FileSystem.isFolder_iff
  rw [FileSystem.clear_eq, ofString_folder hfolder, hplace]
  rcases h.folders folder hfolder with hnone | ⟨hshort, hway, hthere⟩
  · -- there is no folder to take away
    have hmissing :
        ¬ files.isFolder ((FilePath.ofString options.destination).below [folder]) = true := by
      intro hall
      have hthere := (hisFolder.mp hall).2 _ (FileSystem.onWay_placeOf _ _)
      rw [hplace, hnone _ List.prefix_rfl] at hthere
      cases hthere
    rw [if_neg fun h => hmissing h.2]
    split
    · exact hnone place ‹_›
    · rfl
  · have hall : ∀ place, OnWay files.workingFolder
        ((FilePath.ofString options.destination).below [folder]) place →
          files.node? place = some .folder := by
      intro place hplace
      rcases (onWay_folder_iff hfolder).mp hplace with hplace | rfl
      · exact hway place hplace
      · exact hthere
    rw [if_pos ⟨hshort, hisFolder.mpr ⟨husable, hall⟩⟩, FileSystem.node?_erase]
    refine if_congr (and_iff_right_of_imp fun hlead hnil => ?_) rfl rfl
    rw [hnil, List.prefix_nil] at hlead
    simp at hlead

theorem FileSystem.workingFolder_clear (files : FileSystem) (text : String) :
    (files.clear text).workingFolder = files.workingFolder :=
  (FileSystem.bounded_clear text).workingFolder

/-- What could be emptied can be emptied once one of the folders is. -/
theorem Clearable.clear (h : Clearable options files) {folder : String}
    (hfolder : folder ∈ renewedFolders)
    (husable : ((FilePath.ofString options.destination).below [folder]).Usable) :
    Clearable options (files.clear (FilePath.extend options.destination folder)) := by
  have hnode := h.node?_clear hfolder husable
  constructor
  · rw [FileSystem.workingFolder_clear]
    exact h.apart
  · intro other hother
    rw [FileSystem.workingFolder_clear]
    rcases h.folders other hother with hnone | ⟨hshort, hway, hthere⟩
    · refine .inl fun place hplace => ?_
      rw [hnode]
      split
      · rfl
      · exact hnone place hplace
    · -- the other folders are there as before, since none lies below another
      by_cases he : folder = other
      · subst he
        refine .inl fun place hplace => ?_
        rw [hnode, if_pos hplace]
      · refine .inr ⟨hshort, fun place hplace => ?_, ?_⟩
        · rw [hnode, if_neg fun hlead => h.apart place hplace (.inr ⟨folder, hfolder, hlead⟩)]
          exact hway place hplace
        · rw [hnode, if_neg]
          · exact hthere
          · rw [List.prefix_append_right_inj]
            exact fun hlead => he (List.cons_prefix_cons.mp hlead).1

/-- Clearing folders takes away all of each, and nothing else. -/
theorem Clearable.foldl_clear {folders : List String} (hfolders : folders ⊆ renewedFolders)
    (husable : ∀ folder ∈ folders, ((FilePath.ofString options.destination).below [folder]).Usable)
    (h : Clearable options files) (place : Place) :
    ((folders.map (FilePath.extend options.destination)).foldl FileSystem.clear files).node?
      place =
      if ∃ folder ∈ folders,
          placeOf files.workingFolder (.ofString options.destination) ++ [folder] <+: place
      then none
      else files.node? place := by
  induction folders generalizing files with
  | nil => simp
  | cons folder rest ih =>
    rw [List.cons_subset] at hfolders
    rw [List.forall_mem_cons] at husable
    -- clearing one folder leaves the others to be cleared
    rw [List.map_cons, List.foldl_cons, ih hfolders.2 husable.2 (h.clear hfolders.1 husable.1),
      FileSystem.workingFolder_clear, h.node?_clear hfolders.1 husable.1]
    simp only [List.exists_mem_cons_iff]
    split
    · rw [if_pos (.inr ‹_›)]
    · split
      · rw [if_pos (.inl ‹_›)]
      · rw [if_neg (not_or.mpr ⟨‹_›, ‹_›⟩)]

theorem FileSystem.workingFolder_foldl_clear (files : FileSystem) (texts : List String) :
    (texts.foldl FileSystem.clear files).workingFolder = files.workingFolder := by
  induction texts generalizing files with
  | nil => rfl
  | cons text texts ih => exact (ih _).trans (FileSystem.workingFolder_clear files text)

/-- What is left once the folders are cleared. -/
def cleared (options : Options) (files : FileSystem) : FileSystem :=
  (renewedFolders.map (FilePath.extend options.destination)).foldl FileSystem.clear files

theorem workingFolder_cleared (options : Options) (files : FileSystem) :
    (cleared options files).workingFolder = files.workingFolder :=
  FileSystem.workingFolder_foldl_clear files _

/-- Renewing clears the folders, and then makes them. -/
theorem performAll_renewals_append (options : Options) (files : FileSystem) (rest : List Action) :
    files.performAll (Plan.renewals options.destination ++ rest) =
      (cleared options files).performAll
        ((renewedFolders.map fun folder =>
          (FilePath.ofString options.destination).below [folder]).map .makeFolder ++ rest) := by
  have hpaths : (renewedFolders.map (FilePath.extend options.destination)).map
      (fun text => Action.makeFolder (FilePath.ofString text)) =
        (renewedFolders.map fun folder =>
          (FilePath.ofString options.destination).below [folder]).map
          .makeFolder := by
    rw [List.map_map, List.map_map]
    exact List.map_congr_left fun folder hfolder =>
      congrArg Action.makeFolder (ofString_folder hfolder)
  rw [← hpaths]
  change files.performAll ((_ ++ _) ++ rest) = _
  rw [List.append_assoc]
  exact FileSystem.performAll_append_of_eq (FileSystem.performAll_map_clear _)

theorem performAll_renewals :
    files.performAll (Plan.renewals options.destination) =
      (cleared options files).performAll
        ((renewedFolders.map fun folder =>
          (FilePath.ofString options.destination).below [folder]).map .makeFolder) := by
  have hrenewals := performAll_renewals_append options files []
  rwa [List.append_nil, List.append_nil] at hrenewals

/-- The way to the destination is not cleared. -/
theorem Clearable.node?_cleared_of_onWay (h : Clearable options files)
    (husable : ∀ folder ∈ renewedFolders,
      ((FilePath.ofString options.destination).below [folder]).Usable)
    {place : Place} (hplace : OnWay files.workingFolder (.ofString options.destination) place) :
    (cleared options files).node? place = files.node? place := by
  rw [cleared, h.foldl_clear (List.Subset.refl _) husable, if_neg]
  rintro ⟨folder, hmem, hlead⟩
  exact h.apart place hplace (.inr ⟨folder, hmem, hlead⟩)

/-- All that a run may change is cleared, but for the file of the model. -/
theorem Clearable.node?_cleared_inside (h : Clearable options files)
    (husable : ∀ folder ∈ renewedFolders,
      ((FilePath.ofString options.destination).below [folder]).Usable)
    {path : List String} (hpath : Inside [] path)
    (hmade : ¬ ∃ folder ∈ renewedFolders, path = [folder]) :
    (cleared options files).node?
      (placeOf files.workingFolder (.ofString options.destination) ++ path) =
      Contents.renewed
        (files.node? (placeOf files.workingFolder (.ofString options.destination) ++ ["model.ts"]))
        path := by
  rw [cleared, h.foldl_clear (List.Subset.refl _) husable]
  simp only [List.prefix_append_right_inj]
  unfold Contents.renewed
  -- the file of the model is in none of the folders, and anything else inside is in one
  rcases hpath with hmodel | ⟨folder, hmem, hlead⟩
  · obtain rfl : path = ["model.ts"] := hmodel
    rw [if_pos rfl, if_neg]
    rintro ⟨folder, hmem, hlead⟩
    obtain rfl := (List.cons_prefix_cons.mp hlead).1
    exact absurd hmem (by decide)
  · rw [List.nil_append] at hlead
    rw [if_pos ⟨folder, hmem, hlead⟩, if_neg, if_neg hmade]
    rintro rfl
    obtain rfl := (List.cons_prefix_cons.mp hlead).1
    exact absurd hmem (by decide)

/-- **The folders are renewed just if their paths can be used and no file lies on the
way,** if they can be emptied. -/
theorem Clearable.renewals_iff (h : Clearable options files) :
    (files.performAll (Plan.renewals options.destination)).2 = none ↔
      (∀ folder ∈ renewedFolders,
        ((FilePath.ofString options.destination).below [folder]).Usable) ∧
        ∀ place, OnWay files.workingFolder (.ofString options.destination) place →
          files.Passable place := by
  rw [performAll_renewals, FileSystem.performAll_map_makeFolder, List.forall_mem_map,
    workingFolder_cleared]
  constructor
  · intro hmade
    have husable := fun folder hmem => (hmade folder hmem).1
    refine ⟨husable, fun place hplace => ?_⟩
    -- a way to any of the folders is a way to the destination, so one of them will do
    have hpassable := (hmade "common" (by decide)).2 place (onWay_below_of_onWay hplace)
    unfold FileSystem.Passable at hpassable ⊢
    rwa [h.node?_cleared_of_onWay husable hplace] at hpassable
  · rintro ⟨husable, hpassable⟩ folder hmem
    refine ⟨husable folder hmem, fun place hplace => ?_⟩
    rcases (onWay_folder_iff hmem).mp hplace with hplace | rfl
    · unfold FileSystem.Passable
      rw [h.node?_cleared_of_onWay husable hplace]
      exact hpassable place hplace
    · refine .inl ?_
      rw [cleared, h.foldl_clear (List.Subset.refl _) husable,
        if_pos ⟨folder, hmem, List.prefix_rfl⟩]

/-- Nothing is left in folders that are renewed. -/
theorem Clearable.holds_renewed (h : Clearable options files)
    (hafter : files.performAll (Plan.renewals options.destination) = (after, none)) :
    after.workingFolder = files.workingFolder ∧
      Holds (.ofString options.destination)
        (.renewed (files.node?
          (placeOf files.workingFolder (.ofString options.destination) ++
            ["model.ts"]))) after := by
  obtain ⟨husable, -⟩ := h.renewals_iff.mp (congrArg Prod.snd hafter)
  rw [performAll_renewals] at hafter
  obtain ⟨hfolder, hthere, hothers⟩ := FileSystem.node?_performAll_map_makeFolder hafter
  rw [List.forall_mem_map] at hthere
  simp only [List.forall_mem_map] at hothers
  rw [workingFolder_cleared] at hfolder hthere hothers
  refine ⟨hfolder, fun place hplace => ?_, fun path hpath => ?_⟩
  · rw [hfolder] at hplace
    exact hthere "common" (by decide) place (onWay_below_of_onWay hplace)
  · rw [hfolder]
    by_cases hmade : ∃ folder ∈ renewedFolders, path = [folder]
    · -- the folder itself has been made again
      obtain ⟨folder, hmem, rfl⟩ := hmade
      have hne : [folder] ≠ ["model.ts"] := (IsClientPath.model.ne_folder hmem).symm
      unfold Contents.renewed
      rw [hthere folder hmem _ ((onWay_folder_iff hmem).mpr (.inr rfl)), if_neg hne,
        if_pos ⟨folder, hmem, rfl⟩]
    · -- and what was in it is gone, for making folders changes nothing elsewhere
      rw [hothers, h.node?_cleared_inside husable hpath hmade]
      intro folder hmem hplace
      rcases (onWay_folder_iff hmem).mp hplace with hplace | he
      · exact h.apart _ hplace (inside_append_iff.mpr hpath)
      · exact hmade ⟨folder, hmem, List.append_cancel_left he⟩

end

end ApiClient
