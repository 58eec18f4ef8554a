import ApiClient.Proofs.Client.Paths
import ApiClient.Proofs.FileSystem.Bounded
import ApiClient.Proofs.FileSystem.Path

/-!
# A run stays inside its destination

A run takes its steps at paths that begin with the destination: it renews four folders there
and writes files at paths that do not lead up. Each step is bounded by its path, so all of
them together are bounded by the destination, and so is a run that fails at any of them.
Folders on the way to the destination are made where they are missing, and a run without a
document takes no step at all.
-/

namespace ApiClient

open FileSystem (placeOf OnWay Bounded)

/-! ## Below a path -/

/-- On the way to a path that goes on, either the way is not left or
the place is below the path. -/
theorem FileSystem.onWay_below {workingFolder place : Place} {path : FilePath}
    {names : List String}
    (hnames : ∀ name ∈ names, name ≠ "..") (h : OnWay workingFolder (path.below names) place) :
    OnWay workingFolder path place ∨
      ∃ front, front <+: names ∧ place = placeOf workingFolder path ++ front := by
  obtain ⟨front, hfront, rfl⟩ := h
  rcases List.prefix_or_prefix_of_prefix hfront (List.prefix_append path.names names) with
    hway | hbelow
  · exact .inl ⟨front, hway, rfl⟩
  · obtain ⟨rest, rfl⟩ := hbelow
    have hrest : rest <+: names := (List.prefix_append_right_inj path.names).mp hfront
    refine .inr ⟨rest, hrest, ?_⟩
    rw [lead_append, lead_of_forall_ne fun name hname => hnames name (hrest.subset hname)]
    rfl

/-- A path is on the way to itself. -/
theorem FileSystem.onWay_placeOf (workingFolder : Place) (path : FilePath) :
    OnWay workingFolder path (placeOf workingFolder path) :=
  ⟨path.names, List.prefix_rfl, rfl⟩

/-! ## The destination -/

/-- The folders that a run renews. -/
def renewedFolders : List String := ["common", "defs", "controllers", "store"]

/-- A place that a run may change: the file of the model, or a place in one of the folders. -/
def Inside (destination place : Place) : Prop :=
  place = destination ++ ["model.ts"] ∨
    ∃ folder ∈ renewedFolders, destination ++ [folder] <+: place

theorem inside_of_leading {destination : Place} {folder : String}
    (hfolder : folder ∈ renewedFolders)
    {front path : List String} (h : front <+: folder :: path) (hne : front ≠ []) :
    Inside destination (destination ++ front) := by
  obtain ⟨first, rest, rfl⟩ := List.exists_cons_of_ne_nil hne
  obtain rfl := (List.cons_prefix_cons.mp h).1
  refine .inr ⟨first, hfolder, ?_⟩
  rw [List.prefix_append_right_inj]
  exact List.cons_prefix_cons.mpr ⟨rfl, List.nil_prefix⟩

/-- What a run does to files, if it does not leave its destination. -/
def Confines (options : Options) (before after : FileSystem) : Prop :=
  let destination := FilePath.ofString options.destination
  let top := placeOf before.workingFolder destination
  Bounded (OnWay before.workingFolder destination) (Inside top)
    (fun place => ∃ path, IsClientPath path ∧ place = top ++ path) before after

section

variable {options : Options} {state : FileSystem}

/-- The path of a folder goes on from the destination. -/
theorem ofString_folder {folder : String} (h : folder ∈ renewedFolders) :
    FilePath.ofString (FilePath.extend options.destination folder) =
      (FilePath.ofString options.destination).below [folder] := by
  have hfolders : ∀ folder ∈ renewedFolders, folder ≠ "" ∧ folder ≠ "." ∧ '/' ∉ folder.toList := by
    decide
  obtain ⟨hne, hdot, hslash⟩ := hfolders folder h
  exact FilePath.ofString_extend hne hdot hslash options.destination

theorem ne_up_of_mem_renewedFolders {folder : String} (h : folder ∈ renewedFolders) :
    ∀ name ∈ [folder], name ≠ ".." := by
  have hfolders : ∀ folder ∈ renewedFolders, folder ≠ ".." := by decide
  intro name hname
  obtain rfl := List.mem_singleton.mp hname
  exact hfolders _ h

/-- Folders that are made on the way to a folder or a file of the client are where they may be. -/
theorem onWay_or_inside {destination : FilePath} {workingFolder place : Place} {folder : String}
    {front path : List String} (hfolder : folder ∈ renewedFolders)
    (hup : ∀ name ∈ front, name ≠ "..")
    (hfront : front <+: folder :: path) (h : OnWay workingFolder (destination.below front) place) :
    OnWay workingFolder destination place ∨ Inside (placeOf workingFolder destination) place := by
  rcases FileSystem.onWay_below hup h with hway | ⟨names, hnames, rfl⟩
  · exact .inl hway
  · by_cases hne : names = []
    · subst hne
      rw [List.append_nil]
      exact .inl (FileSystem.onWay_placeOf _ _)
    · exact .inr (inside_of_leading hfolder (hnames.trans hfront) hne)

/-- Renewing a folder does not leave the destination. -/
theorem confines_renewal {action : Action} (h : action ∈ Plan.renewals options.destination) :
    Confines options state (state.perform action).1 := by
  unfold Plan.renewals at h
  dsimp only at h
  rw [List.map_map, List.map_map] at h
  rcases List.mem_append.mp h with h | h
  · -- what is taken away lies in the folder
    obtain ⟨folder, hfolder, rfl⟩ := List.mem_map.mp h
    refine (FileSystem.bounded_clear _).mono (fun _ h => h.elim) ?_ (fun _ h => h.elim)
    intro place hplace
    rw [ofString_folder hfolder,
      FileSystem.placeOf_below (ne_up_of_mem_renewedFolders hfolder)] at hplace
    exact .inr ⟨folder, hfolder, hplace⟩
  · -- what is made lies on the way to the folder
    obtain ⟨folder, hfolder, rfl⟩ := List.mem_map.mp h
    refine FileSystem.bounded_makeFolders.mono ?_ (fun _ h => h.elim) (fun _ h => h.elim)
    intro place hplace
    rw [ofString_folder hfolder] at hplace
    exact onWay_or_inside hfolder (ne_up_of_mem_renewedFolders hfolder) List.prefix_rfl hplace

/-- Writing a file of the client does not leave the destination. -/
theorem confines_write {file : ClientFile} (h : IsClientPath file.path) : Confines options state
    (state.perform
      (.write ((FilePath.ofString options.destination).below file.path) file.text)).1 := by
  have hplace :
      placeOf state.workingFolder ((FilePath.ofString options.destination).below file.path) =
      placeOf state.workingFolder (FilePath.ofString options.destination) ++ file.path :=
    FileSystem.placeOf_below h.ne_up _ _
  have hparent : ((FilePath.ofString options.destination).below file.path).parent =
      (FilePath.ofString options.destination).below file.path.dropLast :=
    FilePath.parent_below h.ne_nil _
  have hdrop : ∀ name ∈ file.path.dropLast, name ≠ ".." :=
    fun name hname => h.ne_up name (List.dropLast_subset _ hname)
  refine FileSystem.bounded_write.mono ?_ ?_ fun place hwritten =>
    ⟨file.path, h, hwritten.trans hplace⟩
  · -- folders that are made on the way to the file
    intro place hway
    rw [hparent] at hway
    rcases h.folder with hmodel | ⟨folder, hfolder, rest, hpath⟩
    · rw [hmodel] at hway
      rcases FileSystem.onWay_below (fun _ h => absurd h List.not_mem_nil) hway with
        hway | ⟨_, hnil, rfl⟩
      · exact .inl hway
      · rw [List.prefix_nil.mp hnil, List.append_nil]
        exact .inl (FileSystem.onWay_placeOf _ _)
    · have hfront : file.path.dropLast <+: folder :: rest := hpath ▸ List.dropLast_prefix _
      exact onWay_or_inside hfolder hdrop hfront hway
  · -- the file itself
    intro place hwritten
    obtain rfl := hwritten.trans hplace
    rcases h.folder with hmodel | ⟨folder, hfolder, rest, hpath⟩
    · exact .inl (by rw [hmodel])
    · have hself : file.path <+: folder :: rest := by rw [hpath]
      exact inside_of_leading hfolder hself h.ne_nil

/-- No step of a plan leaves the destination. -/
theorem confines_perform {bytes : Except FileFault (List UInt8)} {action : Action}
    (h : action ∈ (Plan.ofSource options bytes).actions) :
    Confines options state (state.perform action).1 := by
  obtain ⟨document, h⟩ : ∃ document, action ∈ (Plan.ofDocument options document).actions := by
    unfold Plan.ofSource at h
    split at h
    · cases h
    · cases h
    · split at h
      · exact ⟨_, h⟩
      · cases h
      · cases h
      · cases h
  rcases List.mem_append.mp h with hrenewal | hwrite
  · exact confines_renewal hrenewal
  · obtain ⟨file, hfile, rfl⟩ := List.mem_map.mp hwrite
    exact confines_write (Client.isClientPath_of_mem_write hfile)

/-- Steps of a plan, taken until one fails, do not leave the destination. -/
theorem confines_performAll {bytes : Except FileFault (List UInt8)} {steps : List Action}
    (h : steps ⊆ (Plan.ofSource options bytes).actions) :
    Confines options state (state.performAll steps).1 := by
  refine FileSystem.bounded_performAll ?_ rfl
  intro action haction next hnext
  have hone : Confines options next (next.perform action).1 := confines_perform (h haction)
  unfold Confines at hone
  rwa [hnext] at hone

end

/-! ## Runs -/

/-- What may be said of all that a run does to files. -/
structure StaysInside (options : Options) (files : FileSystem) : Prop where
  /-- No step leaves the destination, whichever steps have been taken
  before the run is broken off. -/
  throughout : ∀ steps,
    steps <+: (Plan.ofSource options (files.read (FilePath.ofString options.source))).actions →
      Confines options files (files.performAll steps).1
  /-- The whole run does not leave the destination, whether or not it succeeds. -/
  after : Confines options files (run options files).files
  /-- A run that has no document changes nothing at all. -/
  unloaded : (¬ ∃ bytes document, files.read (FilePath.ofString options.source) = .ok bytes ∧
      Document.ofBytes bytes = .ok document) →
    (run options files).files = files

/-- A run leaves the files that its steps leave. -/
theorem files_carryOut (plan : Plan) (files : FileSystem) :
    (plan.carryOut files).files = (files.performAll plan.actions).1 := by
  unfold Plan.carryOut
  split
  all_goals
    rename_i hsteps
    rw [hsteps]

/-- A plan has steps only for a document. -/
theorem Plan.actions_ofSource {options : Options} {bytes : Except FileFault (List UInt8)}
    (h : ¬ ∃ text document, bytes = .ok text ∧ Document.ofBytes text = .ok document) :
    (Plan.ofSource options bytes).actions = [] := by
  unfold Plan.ofSource
  split
  · rfl
  · rfl
  · rename_i text
    split
    · rename_i document hdocument
      exact absurd ⟨text, document, rfl, hdocument⟩ h
    · rfl
    · rfl
    · rfl

/-- **A run stays inside its destination,** whatever its source holds and however it ends. -/
theorem staysInside_run (options : Options) (files : FileSystem) : StaysInside options files where
  throughout _ hsteps := confines_performAll hsteps.subset
  after := by
    unfold run
    rw [files_carryOut]
    exact confines_performAll (List.Subset.refl _)
  unloaded := by
    intro hnone
    unfold run
    rw [files_carryOut, Plan.actions_ofSource hnone]
    rfl

end ApiClient
