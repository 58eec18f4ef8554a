import ApiClient.Proofs.Client.Independent
import ApiClient.Proofs.Json.ReadWritten

/-!
# What is left over

A folder whose path does not lead to it when a run begins is not emptied, and what lies in
it stays: the run makes what is missing on the way only afterwards. So two runs that
differ in such a file leave different files, and a run is independent of what was there
just if its folders are reached.
-/

namespace ApiClient

open FileSystem (placeOf OnWay Bounded)

/-! ## A file in the way -/

/-- A table that says the same of all its places. -/
theorem FileSystem.lookup_map_const (places : List Place) (node : FileNode) (place : Place) :
    (places.map (·, node)).lookup place = if place ∈ places then some node else none := by
  induction places with
  | nil => rfl
  | cons other rest ih =>
    rw [List.map_cons, List.lookup_cons]
    by_cases he : place = other
    · subst he
      rw [beq_self_eq_true, if_pos List.mem_cons_self]
    · rw [beq_false_of_ne he]
      simp only [List.mem_cons, he, false_or]
      exact ih

/-- The name of a file that no client has. -/
def litterName : String := "old"

/-- A state in which a destination is there, with a file in one of its
folders and nothing in the others. -/
def littered (files : FileSystem) (top : Place) (folder : String)
    (bytes : List UInt8) : FileSystem :=
  { files with
    nodes :=
      (top ++ [folder, litterName], .file bytes) :: (top ++ [folder]).inits.map (·, .folder) ++
      files.nodes.filter fun entry =>
        !renewedFolders.any fun other => (top ++ [other]).isPrefixOf entry.1 }

section

variable {options : Options} {files : FileSystem} {top : Place} {folder : String}
    {bytes : List UInt8}

theorem node?_littered (place : Place) : (littered files top folder bytes).node? place =
    if place = top ++ [folder, litterName] then some (.file bytes)
    else if place <+: top ++ [folder] then some .folder
    else if ∃ other ∈ renewedFolders, top ++ [other] <+: place then none
    else files.node? place := by
  have hkept := FileSystem.lookup_filter
    (fun place => !renewedFolders.any fun other =>
      (top ++ [other]).isPrefixOf place) place files.nodes
  have hany : (renewedFolders.any fun other => (top ++ [other]).isPrefixOf place) = true ↔
      ∃ other ∈ renewedFolders, top ++ [other] <+: place := by
    simp only [List.any_eq_true, List.isPrefixOf_iff_prefix]
  unfold FileSystem.node? littered
  by_cases htop : place = []
  · subst htop
    simp [List.nil_prefix]
  · -- the nodes are looked up in order: the litter, the way to it, then what is kept
    have htop' : ¬ place.isEmpty = true := by simpa using htop
    rw [if_neg htop', if_neg htop', List.cons_append, List.lookup_cons]
    by_cases hfile : place = top ++ [folder, litterName]
    · rw [if_pos hfile, hfile, beq_self_eq_true]
    · rw [if_neg hfile, beq_false_of_ne hfile]
      dsimp only
      rw [List.lookup_append, FileSystem.lookup_map_const, hkept]
      simp only [List.mem_inits, ← hany]
      by_cases hlead : place <+: top ++ [folder]
      · rw [if_pos hlead, if_pos hlead, Option.some_or]
      · rw [if_neg hlead, if_neg hlead, Option.none_or]
        by_cases hbelow :
          (renewedFolders.any fun other => (top ++ [other]).isPrefixOf place) = true
        · rw [if_pos hbelow, hbelow, Bool.not_true, if_neg Bool.false_ne_true]
        · rw [if_neg hbelow, Bool.eq_false_iff.mpr hbelow, Bool.not_false, if_pos rfl]

/-- A place outside the folders is as it was, unless it is on the
straight way to the destination. -/
theorem node?_littered_of_outside (hfolder : folder ∈ renewedFolders) {place : Place}
    (hway : ¬ place <+: top) (hbelow : ∀ other ∈ renewedFolders, ¬ top ++ [other] <+: place) :
    (littered files top folder bytes).node? place = files.node? place := by
  rw [node?_littered, if_neg, if_neg, if_neg]
  · rintro ⟨other, hother, hlead⟩
    exact hbelow other hother hlead
  · intro hlead
    rcases List.prefix_concat_iff.mp hlead with rfl | hlead
    · exact hbelow folder hfolder List.prefix_rfl
    · exact hway hlead
  · rintro rfl
    exact hbelow folder hfolder ⟨[litterName], by simp⟩

theorem node?_littered_of_lead {place : Place} (h : place <+: top ++ [folder]) :
    (littered files top folder bytes).node? place = some .folder := by
  rw [node?_littered, if_neg, if_pos h]
  rintro rfl
  have hlength := h.length_le
  simp at hlength

theorem node?_littered_self :
    (littered files top folder bytes).node? (top ++ [folder, litterName]) =
      some (.file bytes) := by
  rw [node?_littered, if_pos rfl]

/-- Nothing lies in the other folders. -/
theorem node?_littered_other {other : String} (hother : other ∈ renewedFolders)
    (hne : other ≠ folder) {place : Place} (h : top ++ [other] <+: place) :
    (littered files top folder bytes).node? place = none := by
  obtain ⟨rest, rfl⟩ := h
  rw [node?_littered, if_neg, if_neg, if_pos ⟨other, hother, List.prefix_append _ _⟩]
  · rw [List.append_assoc, List.prefix_append_right_inj]
    exact fun hlead => hne (List.cons_prefix_cons.mp hlead).1
  · rw [List.append_assoc, List.append_cancel_left_eq]
    exact fun he => hne (List.cons.inj he).1

theorem isTree_littered (h : files.IsTree) (hfolder : folder ∈ renewedFolders) :
    (littered files top folder bytes).IsTree := by
  intro front place hlead hne hsome
  -- what lies below the destination's way or in its folders lies in folders
  by_cases hway : place <+: top ++ [folder, litterName]
  · refine node?_littered_of_lead ?_
    have hproper : front ≠ top ++ [folder, litterName] := by
      rintro rfl
      exact hne (hlead.eq_of_length_le hway.length_le)
    have hfront := hlead.trans hway
    rw [show top ++ [folder, litterName] =
      (top ++ [folder]) ++ [litterName] by simp] at hfront hproper
    exact (List.prefix_concat_iff.mp hfront).resolve_left hproper
  · have hway' : ¬ place <+: top := fun h => hway (h.trans (List.prefix_append _ _))
    have hfolder' : ¬ place <+: top ++ [folder] := fun h =>
      hway (h.trans ⟨[litterName], by simp⟩)
    by_cases hbelow : ∃ other ∈ renewedFolders, top ++ [other] <+: place
    · have hfile : place ≠ top ++ [folder, litterName] := fun he => hway (he ▸ List.prefix_rfl)
      rw [node?_littered, if_neg hfile, if_neg hfolder', if_pos hbelow] at hsome
      exact absurd rfl hsome
    · have hbelow' : ∀ other ∈ renewedFolders, ¬ top ++ [other] <+: place :=
        fun other hother hlead => hbelow ⟨other, hother, hlead⟩
      rw [node?_littered_of_outside hfolder hway' hbelow'] at hsome
      by_cases hfront : front <+: top
      · exact node?_littered_of_lead (hfront.trans (List.prefix_append _ _))
      · rw [node?_littered_of_outside hfolder hfront fun other hother hother' =>
          hbelow' other hother (hother'.trans hlead)]
        exact h front place hlead hne hsome

/-- A place that a run cannot change lies in none of its folders. -/
theorem not_below_of_not_inside {place : Place} (h : ¬ Inside top place) :
    ∀ other ∈ renewedFolders, ¬ top ++ [other] <+: place :=
  fun other hother hlead => h (.inr ⟨other, hother, hlead⟩)

theorem place_littered :
    options.place (littered files top folder bytes) = options.place files := rfl

/-- The file may lie there before a run. -/
theorem initial_littered (h : Initial options files) (hfolder : folder ∈ renewedFolders) :
    Initial options (littered files (options.place files) folder bytes) where
  tree := isTree_littered h.tree hfolder
  way place hplace := .inr (node?_littered_of_lead (hplace.trans (List.prefix_append _ _)))
  folders other hother := by
    rw [place_littered]
    by_cases he : other = folder
    · subst he
      exact .inr (node?_littered_of_lead List.prefix_rfl)
    · exact .inl (node?_littered_other hother he List.prefix_rfl)
  model := by
    have hinside : Inside (options.place files) (options.place files ++ ["model.ts"]) := .inl rfl
    rw [place_littered, node?_littered_of_outside hfolder hinside.not_prefix]
    · exact h.model
    · intro other hother hlead
      rw [List.prefix_append_right_inj] at hlead
      obtain rfl := (List.cons_prefix_cons.mp hlead).1
      exact absurd hother (by decide)
  source := h.source

/-- The file is nothing but what may be left at a destination. -/
theorem alike_littered (h : Initial options files) {text : List UInt8}
    (hread : files.read (.ofString options.source) = .ok text)
    (hfolder : folder ∈ renewedFolders) :
    Alike options files (littered files (options.place files) folder bytes) where
  workingFolder := rfl
  source := by
    refine FileSystem.read_congr rfl fun place hplace => ?_
    by_cases hlead : place <+: options.place files
    · rw [node?_littered_of_lead (hlead.trans (List.prefix_append _ _))]
      exact ((h.way place hlead).resolve_left (FileSystem.node?_of_read hread hplace)).symm
    · exact node?_littered_of_outside hfolder hlead
        (not_below_of_not_inside (h.source place hplace))
  elsewhere place hway hinside :=
  node?_littered_of_outside hfolder hway (not_below_of_not_inside hinside)

/-! ## What is not emptied stays -/

/-- A folder whose path does not lead to it. -/
def Unreached (options : Options) (files : FileSystem) (folder : String) : Prop :=
  FilePath.isTooLong (FilePath.extend options.destination folder) = true ∨
    ∃ place, OnWay files.workingFolder (.ofString options.destination) place ∧
      files.node? place ≠ some .folder

/-- Clearing a folder leaves what lies in another, and one that is not reached. -/
theorem Unreached.clear (h : Unreached options files folder) (hfolder : folder ∈ renewedFolders)
    {other : String} (hother : other ∈ renewedFolders) (rest : List String) :
    Unreached options (files.clear (FilePath.extend options.destination other)) folder ∧
      (files.clear (FilePath.extend options.destination other)).node?
          (options.place files ++ folder :: rest) =
        files.node? (options.place files ++ folder :: rest) := by
  have hplace := FileSystem.placeOf_below (ne_up_of_mem_renewedFolders hother) files.workingFolder
    (.ofString options.destination)
  rw [FileSystem.clear_eq, ofString_folder hother, hplace]
  split
  · rename_i hcleared
    constructor
    · refine h.imp_right ?_
      rintro ⟨place, honWay, hnode⟩
      refine ⟨place, honWay, ?_⟩
      rw [FileSystem.node?_erase]
      split
      · exact nofun
      · exact hnode
    · rw [FileSystem.node?_erase, if_neg]
      rintro ⟨-, hlead⟩
      rw [Options.place, List.prefix_append_right_inj] at hlead
      obtain rfl := (List.cons_prefix_cons.mp hlead).1
      -- the folder itself is not cleared, since it is not reached
      obtain ⟨hshort, hthere⟩ := hcleared
      rcases h with hlong | ⟨place, honWay, hnode⟩
      · rw [hlong] at hshort
        cases hshort
      · exact hnode ((FileSystem.isFolder_iff.mp hthere).2 place (onWay_below_of_onWay honWay))
  · exact ⟨h, rfl⟩

theorem Unreached.foldl_clear {folders : List String} (hfolders : folders ⊆ renewedFolders)
    (hfolder : folder ∈ renewedFolders) (h : Unreached options files folder) (rest : List String) :
    ((folders.map (FilePath.extend options.destination)).foldl FileSystem.clear files).node?
        (options.place files ++ folder :: rest) =
      files.node? (options.place files ++ folder :: rest) := by
  induction folders generalizing files with
  | nil => rfl
  | cons other others ih =>
    rw [List.cons_subset] at hfolders
    obtain ⟨hnext, hsame⟩ := h.clear hfolder hfolders.1 rest
    have hothers := ih hfolders.2 hnext
    rw [Options.place, FileSystem.workingFolder_clear] at hothers
    exact hothers.trans hsame

/-- Making the folders and writing the files of a client changes only what the client has. -/
theorem node?_performAll_of_not_clientPath {actions : List Action} {written : List ClientFile}
    (hwritten : ∀ file ∈ written, IsClientPath file.path)
    (hactions : ∀ action ∈ actions, (∃ path, action = .makeFolder path) ∨
      action ∈ Plan.writes (.ofString options.destination) written)
    {path : List String} (hpath : ¬ IsClientPath path)
    (hthere : files.node? (options.place files ++ path) ≠ none) :
    (files.performAll actions).1.node? (options.place files ++ path) =
      files.node? (options.place files ++ path) := by
  have hbounded : Bounded (fun _ => True)
      (fun place => ∃ path, IsClientPath path ∧ place = options.place files ++ path)
      (fun _ => True) files (files.performAll actions).1 := by
    refine FileSystem.bounded_performAll (fun action haction state hstate => ?_) rfl
    -- making folders takes nothing away, and a file is written at its own path only
    rcases hactions action haction with ⟨path, rfl⟩ | hwrite
    · exact FileSystem.bounded_makeFolders.mono (fun _ _ => .inl trivial) (fun _ h => h.elim)
        fun _ h => h.elim
    · obtain ⟨file, hfile, rfl⟩ := List.mem_map.mp hwrite
      have hclient := hwritten file hfile
      refine FileSystem.bounded_write.mono (fun _ _ => .inl trivial) ?_ fun _ _ => trivial
      rintro place rfl
      refine ⟨file.path, hclient, ?_⟩
      rw [FileSystem.placeOf_below hclient.ne_up, hstate]
      rfl
  have hkept : ¬ ∃ other, IsClientPath other ∧ options.place files ++ path =
      options.place files ++ other := by
    rintro ⟨other, hother, he⟩
    exact hpath (List.append_cancel_left he ▸ hother)
  exact hbounded.node?_eq hkept fun _ => hthere

/-- **A file in a folder that is not reached is left over,** if no client has one of its name. -/
theorem Unreached.leftover (h : Unreached options files folder) (hfolder : folder ∈ renewedFolders)
    {rest : List String} (hclient : ¬ IsClientPath (folder :: rest))
    (hthere : files.node? (options.place files ++ folder :: rest) ≠ none) {document : Json} :
    (files.performAll (Plan.ofDocument options document).actions).1.node?
        (options.place files ++ folder :: rest) =
      files.node? (options.place files ++ folder :: rest) := by
  have hcleared : (cleared options files).node? (options.place files ++ folder :: rest) =
      files.node? (options.place files ++ folder :: rest) :=
    h.foldl_clear (List.Subset.refl renewedFolders) hfolder rest
  have hplace : options.place (cleared options files) = options.place files := by
    rw [Options.place, workingFolder_cleared]
    rfl
  have hpaths : ∀ file ∈ (Client.write options document).files, IsClientPath file.path :=
    fun file hfile => Client.isClientPath_of_mem_write hfile
  -- the folders are not emptied, and no later step writes at such a path
  rw [Plan.ofDocument, performAll_renewals_append, ← hcleared, ← hplace]
  refine node?_performAll_of_not_clientPath hpaths (fun action haction => ?_) hclient ?_
  · rcases List.mem_append.mp haction with hmake | hwrite
    · obtain ⟨path, -, rfl⟩ := List.mem_map.mp hmake
      exact .inl ⟨path, rfl⟩
    · exact .inr hwrite
  · rw [hplace, hcleared]
    exact hthere

/-- No file of a client has the name. -/
theorem not_isClientPath_litter (folder : String) : ¬ IsClientPath [folder, litterName] := by
  have hsuffix : ∀ name : String, name ++ ".ts" ≠ litterName := by
    intro name he
    have hlast : (name ++ ".ts").toList.getLast? = some 's' := by
      rw [String.toList_append, List.getLast?_append]
      rfl
    rw [he] at hlast
    exact absurd hlast (by decide)
  generalize he : [folder, litterName] = path
  intro h
  cases h with
  | common => exact absurd (List.cons.inj (List.cons.inj he).2).1 (by decide)
  | model => cases (List.cons.inj he).2
  | definition => exact hsuffix _ (List.cons.inj (List.cons.inj he).2).1.symm
  | service => exact hsuffix _ (List.cons.inj (List.cons.inj he).2).1.symm
  | actions => cases (List.cons.inj (List.cons.inj he).2).2

/-- A run that is independent of what was there reaches all its folders. -/
theorem Independent.not_unreached (h : Independent options files)
    (hinitial : Initial options files)
    (hgenerated : Generated options (run options files)) (hfolder : folder ∈ renewedFolders) :
    ¬ Unreached options (littered files (options.place files) folder []) folder := by
  intro hunreached
  obtain ⟨text, document, hread, hdocument, -⟩ := exists_of_generated hgenerated
  have hinside : Inside (options.place files) (options.place files ++ [folder, litterName]) :=
    .inr ⟨folder, hfolder, [litterName], by simp⟩
  -- the file is left over whatever it holds
  have hleft :
      ∀ bytes, (run options files).files.node? (options.place files ++ [folder, litterName]) =
      some (.file bytes) := by
    intro bytes
    have halike : Alike options files (littered files (options.place files) folder bytes) :=
      alike_littered hinitial hread hfolder
    obtain ⟨-, hsame⟩ := h.others _ (initial_littered hinitial hfolder) halike
    rw [← hsame _ hinside, run_of_document (halike.source.trans hread) hdocument, files_carryOut]
    have hunreached' :
        Unreached options (littered files (options.place files) folder bytes) folder := by
      refine hunreached.imp_right ?_
      rintro ⟨place, honWay, hnode⟩
      refine ⟨place, honWay, ?_⟩
      rw [node?_littered] at hnode ⊢
      split
      · exact nofun
      · rename_i hfile
        rwa [if_neg hfile] at hnode
    refine (hunreached'.leftover hfolder (not_isClientPath_litter folder) ?_).trans
      node?_littered_self
    change FileSystem.node? _ (options.place files ++ _) ≠ none
    rw [node?_littered_self]
    exact nofun
  have hboth := (hleft []).symm.trans (hleft [0])
  cases hboth

/-- A run that is independent of what was there reaches its folders. -/
theorem Independent.reached (h : Independent options files) (hinitial : Initial options files)
    (hgenerated : Generated options (run options files)) : Reached options files where
  short folder hfolder := by
    by_contra hlong
    exact h.not_unreached hinitial hgenerated hfolder (.inl (by simpa using hlong))
  way place honWay := by
    by_contra hnot
    obtain ⟨hlead, hnot⟩ := not_or.mp hnot
    -- some folder does not lie on the way to this place
    obtain ⟨folder, hfolder, hbelow⟩ : ∃ folder ∈ renewedFolders,
        ¬ options.place files ++ [folder] <+: place := by
      by_cases hcommon : options.place files ++ ["common"] <+: place
      · refine ⟨"defs", by decide, fun hdefs => ?_⟩
        obtain ⟨rest, rfl⟩ := hcommon
        rw [List.append_assoc, List.prefix_append_right_inj] at hdefs
        exact absurd (List.cons_prefix_cons.mp hdefs).1 (by decide)
      · exact ⟨"common", by decide, hcommon⟩
    refine h.not_unreached hinitial hgenerated hfolder (.inr ⟨place, honWay, ?_⟩)
    rw [node?_littered, if_neg, if_neg]
    · split
      · exact nofun
      · rename_i hbelow'
        intro hnode
        refine hnot ⟨?_, hnode⟩
        rintro (rfl | ⟨other, hother, hother'⟩)
        · exact hinitial.model hnode
        · exact hbelow' ⟨other, hother, hother'⟩
    · intro hlead'
      rcases List.prefix_concat_iff.mp hlead' with rfl | hlead'
      · exact hbelow List.prefix_rfl
      · exact hlead hlead'
    · rintro rfl
      exact hbelow ⟨[litterName], by simp⟩

/-- **A run is independent of what was there just if its folders are reached.** -/
theorem independent_iff (hinitial : Initial options files)
    (hgenerated : Generated options (run options files)) :
    Independent options files ↔ Reached options files :=
  ⟨fun h => h.reached hinitial hgenerated, fun h => h.independent hinitial hgenerated⟩

end

/-! ## A folder that is missing on the way -/

/-- A destination that leads up from a folder that is missing. -/
def detourOptions : Options :=
  { Options.standard with source := "api.json", destination := "x/../out", omitVersion := true }

/-- A file of an earlier client at that destination, and an empty document. -/
def detourFiles : FileSystem where
  nodes := [(["work"], .folder), (["work", "api.json"], .file "\x7b\x7d".toUTF8.toList),
    (["work", "out"], .folder), (["work", "out", "controllers"], .folder),
    (["work", "out", "controllers", "Old.ts"], .file [])]
  workingFolder := ["work"]

/-- What is read of that document. -/
def detourDocument : Json := .object [("basePath", .string "")]

theorem ofBytes_detour : Document.ofBytes "\x7b\x7d".toUTF8.toList = .ok detourDocument := by
  have hdecoded : Text.decodeUtf8 "\x7b\x7d".toUTF8.toList = .ok "\x7b\x7d".toList :=
    eq_ok_of_toOption (by decide +kernel)
  have hwhole : Document.withoutPlaceholders "\x7b\x7d".toList = "\x7b\x7d".toList := by
    decide +kernel
  have hread : Json.read "\x7b\x7d".toList = .ok (.object []) :=
    Json.Written.read_text (.object .none .none [])
  unfold Document.ofBytes
  rw [hdecoded]
  change Document.ofText "\x7b\x7d".toList = _
  unfold Document.ofText
  rw [hwhole, hread]
  rfl

theorem initial_detour : Initial detourOptions detourFiles :=
  initial_of_nodes (by decide +kernel) (by decide +kernel) (by decide +kernel) (by decide +kernel)
    (by decide +kernel)

/-- A run makes a client there: an empty one. -/
theorem generated_detour : Generated detourOptions (run detourOptions detourFiles) := by
  have hread : detourFiles.read (.ofString detourOptions.source) = .ok "\x7b\x7d".toUTF8.toList :=
    eq_ok_of_toOption (by decide +kernel)
  have hfiles : (Client.write detourOptions detourDocument).files =
      [Layout.commonFile Document.linterMark Client.commonText,
        Layout.modelFile Document.linterMark ""] := by decide +kernel
  have houtcome : (Client.write detourOptions detourDocument).outcome = .ok ⟨0, 0⟩ := rfl
  have hsteps :
      (detourFiles.performAll (Plan.ofDocument detourOptions detourDocument).actions).2 =
        none := by
    unfold Plan.ofDocument
    dsimp only
    rw [hfiles]
    decide +kernel
  -- every step succeeds, so what is reported is what the writing answers
  refine ⟨⟨0, 0⟩, ?_⟩
  rw [run_of_document hread ofBytes_detour, Plan.carryOut,
    show detourFiles.performAll (Plan.ofDocument detourOptions detourDocument).actions =
      (_, none) from Prod.ext rfl hsteps]
  exact congrArg (Plan.report detourOptions) houtcome

/-- The client is made, but what it leaves depends on what was there. -/
theorem not_independent_detour : Initial detourOptions detourFiles ∧
    Generated detourOptions (run detourOptions detourFiles) ∧
    ¬ Independent detourOptions detourFiles := by
  refine ⟨initial_detour, generated_detour, ?_⟩
  rw [independent_iff initial_detour generated_detour]
  intro hreached
  have honWay :
      OnWay detourFiles.workingFolder (.ofString detourOptions.destination) ["work", "x"] :=
    ⟨["x"], by decide +kernel, by decide +kernel⟩
  rcases hreached.way _ honWay with hlead | ⟨-, hfolder⟩
  · revert hlead
    decide +kernel
  · revert hfolder
    decide +kernel

end ApiClient
