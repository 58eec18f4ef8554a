import ApiClient.Proofs.Client.Contents
import ApiClient.Proofs.Client.Parts

/-!
# What was there before a run

A run empties its folders before it makes them, and it makes the folders on the way to its
destination only then. So a folder is emptied if its path, as the text that it is, leads to it
from the start. Just then what a run leaves does not depend on what was there before, and a run
that is repeated changes nothing.
-/

namespace ApiClient

open FileSystem (placeOf OnWay Bounded)

/-! ## Contents after a run -/

namespace Contents

variable {contents contents' : Contents} {files : List ClientFile} {path : List String}

/-- What was there before shows only where no file is written. -/
theorem foldl_write_congr
    (h : contents path = contents' path ∨ ∃ file ∈ files, file.path = path) :
    files.foldl write contents path = files.foldl write contents' path := by
  induction files generalizing contents contents' with
  | nil => simpa using h
  | cons file rest ih =>
    refine ih ?_
    rcases h with hsame | ⟨other, hother, hpath⟩
    · left
      unfold write
      rw [hsame]
    · rcases List.mem_cons.mp hother with rfl | hrest
      · left
        unfold write
        rw [if_pos hpath.symm, if_pos hpath.symm]
      · exact .inr ⟨other, hrest, hpath⟩

/-- What was there of the model does not show once the model is written. -/
theorem ofFiles_congr (model model' : Option FileNode)
    (h : ∃ file ∈ files, file.path = ["model.ts"]) :
    ofFiles model files = ofFiles model' files := by
  funext path
  refine foldl_write_congr ?_
  by_cases hpath : path = ["model.ts"]
  · rw [hpath]
    exact .inr h
  · left
    unfold renewed
    rw [if_neg hpath, if_neg hpath]

/-- The folders stay. -/
theorem ofFiles_folder {model : Option FileNode} (hfiles : ∀ file ∈ files, IsClientPath file.path)
    {folder : String} (hfolder : folder ∈ renewedFolders) :
    ofFiles model files [folder] = some .folder := by
  unfold ofFiles
  have hstart : renewed model [folder] = some .folder := by
    unfold renewed
    rw [if_neg (IsClientPath.model.ne_folder hfolder).symm, if_pos ⟨folder, hfolder, rfl⟩]
  generalize renewed model = contents at hstart
  induction files generalizing contents with
  | nil => exact hstart
  | cons file rest ih =>
    rw [List.forall_mem_cons] at hfiles
    refine ih hfiles.2 _ ?_
    unfold write
    rw [if_neg (hfiles.1.ne_folder hfolder).symm]
    split
    · rfl
    · exact hstart

end Contents

section

variable {options : Options} {files after : FileSystem}

/-- Paths of a client that can be used: those of its folders, and those of its files. -/
def PathsUsable (destination : FilePath) (written : List ClientFile) : Prop :=
  (∀ folder ∈ renewedFolders, (destination.below [folder]).Usable) ∧
    ∀ file ∈ written, (destination.below file.path).Usable

/-- **What a run leaves,** if its folders can be emptied: the folders, and in them what it
writes and nothing else. It takes all its steps just if its paths can be used and no file lies
on the way to its destination. -/
theorem Clearable.performAll (h : Clearable options files)
    (hmodel : files.node? (placeOf files.workingFolder (.ofString options.destination) ++
      ["model.ts"]) ≠ some .folder)
    {written : List ClientFile} (hwritten : ∀ file ∈ written, IsClientPath file.path) :
    ((files.performAll (Plan.renewals options.destination ++
          Plan.writes (.ofString options.destination) written)).2 = none ↔
        PathsUsable (.ofString options.destination) written ∧
          ∀ place, OnWay files.workingFolder (.ofString options.destination) place →
            files.Passable place) ∧
      ∀ after, files.performAll (Plan.renewals options.destination ++
          Plan.writes (.ofString options.destination) written) = (after, none) →
        after.workingFolder = files.workingFolder ∧
          Holds (.ofString options.destination)
            (.ofFiles (files.node?
              (placeOf files.workingFolder (.ofString options.destination) ++
                ["model.ts"])) written)
            after := by
  -- first the folders are emptied and made, then the files are written into them
  have htidy := Contents.tidy_renewed hmodel
  constructor
  · constructor
    · intro hends
      obtain ⟨state, hstate, hwrites⟩ := FileSystem.performAll_append_iff.mp (Prod.ext rfl hends)
      obtain ⟨hfolder, hholds⟩ := h.holds_renewed hstate
      obtain ⟨hfolders, hway⟩ := h.renewals_iff.mp (congrArg Prod.snd hstate)
      have hpaths := (hholds.performAll_writes hwritten (hfolder ▸ h.apart) htidy).1.mp
        (congrArg Prod.snd hwrites)
      exact ⟨⟨hfolders, hpaths⟩, hway⟩
    · rintro ⟨⟨hfolders, hpaths⟩, hway⟩
      have hstate : files.performAll (Plan.renewals options.destination) = (_, none) :=
        Prod.ext rfl (h.renewals_iff.mpr ⟨hfolders, hway⟩)
      obtain ⟨hfolder, hholds⟩ := h.holds_renewed hstate
      rw [FileSystem.performAll_append_of_eq hstate]
      exact (hholds.performAll_writes hwritten (hfolder ▸ h.apart) htidy).1.mpr hpaths
  · intro after hafter
    obtain ⟨state, hstate, hwrites⟩ := FileSystem.performAll_append_iff.mp hafter
    obtain ⟨hfolder, hholds⟩ := h.holds_renewed hstate
    obtain ⟨hfolder', hholds'⟩ :=
      (hholds.performAll_writes hwritten (hfolder ▸ h.apart) htidy).2 after hwrites
    exact ⟨hfolder'.trans hfolder, hholds'⟩

end

/-! ## States before a run -/

/-- The place of a run's destination. -/
def Options.place (options : Options) (files : FileSystem) : Place :=
  placeOf files.workingFolder (.ofString options.destination)

/-- A state in which a run can find what an earlier run left, or anything else in its folders:
the destination and its folders are missing or folders, the file of the model is none, and the
source lies outside of them. -/
structure Initial (options : Options) (files : FileSystem) : Prop where
  tree : files.IsTree
  way : ∀ place, place <+: options.place files → files.Passable place
  folders : ∀ folder ∈ renewedFolders, files.Passable (options.place files ++ [folder])
  model : files.node? (options.place files ++ ["model.ts"]) ≠ some .folder
  source : ∀ place, OnWay files.workingFolder (.ofString options.source) place →
    ¬ Inside (options.place files) place

/-- Whether a run can begin in a state is told by what is listed there. -/
theorem initial_of_nodes {options : Options} {files : FileSystem}
    (htree : ∀ entry ∈ files.nodes, ∀ front ∈ entry.1.inits, front ≠ entry.1 →
      files.node? front = some .folder)
    (hway : ∀ place ∈ (options.place files).inits, files.Passable place)
    (hfolders : ∀ folder ∈ renewedFolders, files.Passable (options.place files ++ [folder]))
    (hmodel : files.node? (options.place files ++ ["model.ts"]) ≠ some .folder)
    (hsource : ∀ front ∈ (FilePath.ofString options.source).names.inits,
      ¬ Inside (options.place files)
        (FileSystem.lead (FileSystem.startOf files.workingFolder (.ofString options.source))
          front)) :
    Initial options files where
  tree := FileSystem.isTree_of_nodes htree
  way place hplace := hway place ((List.mem_inits _ _).mpr hplace)
  folders := hfolders
  model := hmodel
  source := by
    rintro place ⟨front, hfront, rfl⟩
    exact hsource front ((List.mem_inits _ _).mpr hfront)

/-- Two states that differ in what lies at a destination, and in whether it is there. -/
structure Alike (options : Options) (files other : FileSystem) : Prop where
  workingFolder : other.workingFolder = files.workingFolder
  source : other.read (.ofString options.source) = files.read (.ofString options.source)
  elsewhere : ∀ place, ¬ place <+: options.place files → ¬ Inside (options.place files) place →
    other.node? place = files.node? place

/-- A run that shows that a client was made. -/
def Generated (options : Options) (result : RunResult) : Prop :=
  ∃ summary, result.outcome = Plan.report options (.ok summary)

/-- What a run leaves at its destination does not depend on what was there. -/
structure Independent (options : Options) (files : FileSystem) : Prop where
  others : ∀ other, Initial options other → Alike options files other →
    (run options other).outcome = (run options files).outcome ∧
      ∀ place, Inside (options.place files) place →
        (run options other).files.node? place = (run options files).files.node? place
  again : (run options (run options files).files).outcome = (run options files).outcome ∧
    ∀ place, (run options (run options files).files).files.node? place =
      (run options files).files.node? place

/-- A destination whose folders are reached from the start: their paths are not too long
as text, and the way to the destination leads through folders that are there, and
through none that is renewed. -/
structure Reached (options : Options) (files : FileSystem) : Prop where
  short : ∀ folder ∈ renewedFolders,
    FilePath.isTooLong (FilePath.extend options.destination folder) = false
  way : ∀ place, OnWay files.workingFolder (.ofString options.destination) place →
    place <+: options.place files ∨
      ¬ Inside (options.place files) place ∧ files.node? place = some .folder

section

variable {options : Options} {files other : FileSystem}

theorem Alike.refl (options : Options) (files : FileSystem) : Alike options files files :=
  ⟨rfl, rfl, fun _ _ _ => rfl⟩

/-- A place that a run may change is not on the straight way to its destination. -/
theorem Inside.not_prefix {top place : Place} (h : Inside top place) : ¬ place <+: top := by
  obtain ⟨path, hne, rfl⟩ := h.exists_append
  intro hlead
  have hlength := hlead.length_le
  rw [List.length_append] at hlength
  exact hne (List.length_eq_zero_iff.mp (by omega))

/-- **Folders that are reached can be emptied,** in every state that differs in nothing else. -/
theorem Reached.clearable (h : Reached options files) (hinitial : Initial options other)
    (halike : Alike options files other) : Clearable options other := by
  have htop : placeOf other.workingFolder (.ofString options.destination) =
      options.place files := by
    rw [halike.workingFolder]
    rfl
  constructor
  · intro place hplace hinside
    rw [htop] at hinside
    rw [halike.workingFolder] at hplace
    rcases h.way place hplace with hlead | ⟨hnot, -⟩
    · exact hinside.not_prefix hlead
    · exact hnot hinside
  · intro folder hfolder
    rcases hinitial.folders folder hfolder with hnone | hthere
    · exact .inl fun place hlead => hinitial.tree.none_below hnone hlead
    · refine .inr ⟨h.short folder hfolder, fun place hplace => ?_, hthere⟩
      rw [halike.workingFolder] at hplace
      change other.node? (placeOf other.workingFolder _ ++ [folder]) = _ at hthere
      rw [htop] at hthere
      by_cases hlead : place <+: options.place files
      · -- the folder is there, and so is what it lies in
        have hbelow : Inside (options.place files) (options.place files ++ [folder]) :=
          .inr ⟨folder, hfolder, List.prefix_rfl⟩
        refine hinitial.tree place _ (hlead.trans (List.prefix_append _ _)) ?_
          (by rw [hthere]; nofun)
        exact fun he => hbelow.not_prefix (he ▸ hlead)
      · obtain ⟨hnot, hway⟩ := (h.way place hplace).resolve_left hlead
        rw [halike.elsewhere place hlead hnot]
        exact hway

/-- The folders of a destination that does not lead up are reached, if
their paths are not too long. -/
theorem reached_of_forall_ne (hnames : ∀ name ∈ (FilePath.ofString options.destination).names,
      name ≠ "..")
    (hshort : ∀ folder ∈ renewedFolders,
      FilePath.isTooLong (FilePath.extend options.destination folder) = false) :
    Reached options files where
  short := hshort
  way place honWay := by
    obtain ⟨front, hfront, rfl⟩ := honWay
    refine .inl ?_
    unfold Options.place placeOf
    rw [FileSystem.lead_of_forall_ne hnames,
      FileSystem.lead_of_forall_ne fun name hname => hnames name (hfront.subset hname)]
    exact (List.prefix_append_right_inj _).mpr hfront

/-! ## Independent runs -/

/-- A run that shows that a client was made has taken all steps of its
plan, and has written the model. -/
theorem exists_of_generated (h : Generated options (run options files)) :
    ∃ bytes document, files.read (.ofString options.source) = .ok bytes ∧
      Document.ofBytes bytes = .ok document ∧
      files.performAll (Plan.ofDocument options document).actions =
        ((run options files).files, none) ∧
      ∃ file ∈ (Client.write options document).files, file.path = ["model.ts"] := by
  obtain ⟨summary, houtcome⟩ := h
  have hreports : Plan.report options (.ok summary) = .ok _ := rfl
  obtain ⟨bytes, document, hread, hdocument, hsteps, hreport⟩ := run_reports hreports houtcome
  refine ⟨bytes, document, hread, hdocument, hsteps, ?_⟩
  have hproper : (Client.write options document).Proper := by
    intro misuse hmisuse
    rw [hmisuse] at hreport
    cases hreport
  obtain ⟨parts, hfiles, -⟩ := Client.exists_parts hproper
  obtain ⟨file, hfile, hpath⟩ := Definition.exists_modelFile parts.typesWritten
  refine ⟨file, ?_, hpath⟩
  rw [hfiles]
  exact List.mem_append_left _ (List.mem_cons_of_mem _ hfile)

/-- **Two runs that can empty their folders leave the same,** and end in the same way, if one of
them makes a client and nothing but folders is on the way of the other. -/
theorem run_eq_of_clearable (hgenerated : Generated options (run options files))
    (hclearable : Clearable options files) (hclearable' : Clearable options other)
    (hmodel : files.node? (options.place files ++ ["model.ts"]) ≠ some .folder)
    (hmodel' : other.node? (options.place other ++ ["model.ts"]) ≠ some .folder)
    (hfolder : other.workingFolder = files.workingFolder)
    (hsource : other.read (.ofString options.source) = files.read (.ofString options.source))
    (hway : ∀ place, OnWay files.workingFolder (.ofString options.destination) place →
      other.Passable place) :
    (run options other).outcome = (run options files).outcome ∧
      (run options other).files.workingFolder = (run options files).files.workingFolder ∧
      (∀ place, OnWay files.workingFolder (.ofString options.destination) place →
        (run options files).files.node? place = some .folder ∧
        (run options other).files.node? place = some .folder) ∧
      ∀ place, Inside (options.place files) place →
        (run options other).files.node? place = (run options files).files.node? place := by
  obtain ⟨bytes, document, hread, hdocument, hsteps, hwritten⟩ := exists_of_generated hgenerated
  have hpaths : ∀ file ∈ (Client.write options document).files, IsClientPath file.path :=
    fun file hfile => Client.isClientPath_of_mem_write hfile
  obtain ⟨hends, hleaves⟩ := hclearable.performAll hmodel hpaths
  obtain ⟨hends', hleaves'⟩ := hclearable'.performAll hmodel' hpaths
  obtain ⟨husable, -⟩ := hends.mp (congrArg Prod.snd hsteps)
  have hsteps' : other.performAll (Plan.ofDocument options document).actions = (_, none) :=
    Prod.ext rfl (hends'.mpr ⟨husable, hfolder ▸ hway⟩)
  -- both runs have the same plan
  have hrun := run_of_document hread hdocument
  have hrun' := run_of_document (hsource.trans hread) hdocument
  rw [Plan.carryOut, hsteps] at hrun
  rw [Plan.carryOut, hsteps'] at hrun'
  obtain ⟨hafter, hholds⟩ := hleaves _ hsteps
  obtain ⟨hafter', hholds'⟩ := hleaves' _ hsteps'
  rw [hrun', hrun]
  refine ⟨rfl, hafter'.trans (hfolder.trans hafter.symm), fun place hplace => ⟨?_, ?_⟩,
    fun place hplace => ?_⟩
  · exact hholds.way place (hafter.symm ▸ hplace)
  · exact hholds'.way place (hafter'.symm ▸ hfolder.symm ▸ hplace)
  · -- the model is written anew, so it does not matter what was in its place
    rw [Contents.ofFiles_congr _ (files.node? (options.place files ++ ["model.ts"]))
      hwritten] at hholds'
    refine hholds.node?_eq hholds' (hafter'.trans (hfolder.trans hafter.symm)) ?_
    rw [hafter]
    exact hplace

/-- What a run that makes a client leaves, if its folders can be emptied. -/
theorem holds_of_generated (hgenerated : Generated options (run options files))
    (hclearable : Clearable options files)
    (hmodel : files.node? (options.place files ++ ["model.ts"]) ≠ some .folder) :
    ∃ written, (∀ file ∈ written, IsClientPath file.path) ∧
      (run options files).files.workingFolder = files.workingFolder ∧
      Holds (.ofString options.destination)
        (.ofFiles (files.node? (options.place files ++ ["model.ts"])) written)
        (run options files).files := by
  obtain ⟨bytes, document, -, -, hsteps, -⟩ := exists_of_generated hgenerated
  have hpaths : ∀ file ∈ (Client.write options document).files, IsClientPath file.path :=
    fun file hfile => Client.isClientPath_of_mem_write hfile
  exact ⟨_, hpaths, (hclearable.performAll hmodel hpaths).2 _ hsteps⟩

/-- No run leaves its destination. -/
theorem confines_run (options : Options) (files : FileSystem) :
    Confines options files (run options files).files := by
  unfold run
  rw [files_carryOut]
  exact confines_performAll (List.Subset.refl _)

/-- A run that can empty its folders changes nothing when it is repeated. -/
theorem again_of_clearable (hgenerated : Generated options (run options files))
    (hinitial : Initial options files) (hclearable : Clearable options files)
    (hshort : ∀ folder ∈ renewedFolders,
      FilePath.isTooLong (FilePath.extend options.destination folder) = false) :
    (run options (run options files).files).outcome = (run options files).outcome ∧
      ∀ place, (run options (run options files).files).files.node? place =
        (run options files).files.node? place := by
  obtain ⟨written, hpaths, hfolder, hholds⟩ :=
    holds_of_generated hgenerated hclearable hinitial.model
  have hconfines := confines_run options files
  obtain ⟨bytes, -, hread, -⟩ := exists_of_generated hgenerated
  -- the folders are there now, and so is the way to them
  have hclearable' : Clearable options (run options files).files := by
    refine ⟨hfolder.symm ▸ hclearable.apart, fun folder hmem =>
      .inr ⟨hshort folder hmem, hholds.way, ?_⟩⟩
    rw [hholds.inside [folder] (.inr ⟨folder, hmem, List.prefix_rfl⟩)]
    exact Contents.ofFiles_folder hpaths hmem
  have hmodel' :
      (run options files).files.node? (options.place (run options files).files ++ ["model.ts"]) ≠
      some .folder := by
    refine (hholds.inside _ (.inl rfl)).symm ▸ ?_
    exact (Contents.tidy_ofFiles hinitial.model hpaths).file _ .model
  -- the source is where it was
  have hsource : (run options files).files.read (.ofString options.source) =
      files.read (.ofString options.source) := by
    exact FileSystem.read_congr hfolder fun place hplace =>
      hconfines.node?_eq (hinitial.source place hplace) fun _ =>
      FileSystem.node?_of_read hread hplace
  have hway : ∀ place, OnWay files.workingFolder (.ofString options.destination) place →
      (run options files).files.node? place = some .folder :=
    fun place hplace => hholds.way place (hfolder.symm ▸ hplace)
  obtain ⟨houtcome, -, hthere, hsame⟩ := run_eq_of_clearable hgenerated hclearable hclearable'
    hinitial.model hmodel' hfolder hsource fun place hplace => .inr (hway place hplace)
  refine ⟨houtcome, fun place => ?_⟩
  by_cases hplace : Inside (options.place files) place
  · exact hsame place hplace
  · have hplace' : ¬ Inside (options.place (run options files).files) place := by
      rw [Options.place, hfolder]
      exact hplace
    refine (confines_run options (run options files).files).node?_eq hplace' fun honWay => ?_
    rw [hfolder] at honWay
    rw [hway place honWay]
    exact nofun

/-- A run whose folders are reached leaves what does not depend on what was there. -/
theorem Reached.independent (h : Reached options files) (hinitial : Initial options files)
    (hgenerated : Generated options (run options files)) : Independent options files := by
  have hclearable := h.clearable hinitial (.refl options files)
  refine ⟨fun other hinitial' halike => ?_,
    again_of_clearable hgenerated hinitial hclearable h.short⟩
  have hplace : options.place other = options.place files := by
    rw [Options.place, halike.workingFolder]
    rfl
  obtain ⟨houtcome, -, -, hsame⟩ := run_eq_of_clearable hgenerated hclearable
    (h.clearable hinitial' halike) hinitial.model hinitial'.model
    halike.workingFolder halike.source fun place honWay => by
      by_cases hlead : place <+: options.place files
      · exact hinitial'.way place (hplace.symm ▸ hlead)
      · obtain ⟨hnot, hfolder⟩ := (h.way place honWay).resolve_left hlead
        exact .inr ((halike.elsewhere place hlead hnot).trans hfolder)
  exact ⟨houtcome, hsame⟩

end

end ApiClient
