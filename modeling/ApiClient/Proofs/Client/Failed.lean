import ApiClient.Proofs.Client.Independent
import ApiClient.Proofs.Client.Services
import ApiClient.Proofs.Document.Loss

/-!
# What a run that fails leaves

Parameters are read controller by controller, and a controller is written before the next one is
read. So a malformed parameter leaves the services of all controllers before its own: a run that
fails leaves no service just if it fails at the first controller.
-/

namespace ApiClient

open FileSystem (placeOf)
open Json (Name Written)
open Document (bareName)

/-! ## Files among contents -/

namespace Contents

variable {contents : Contents} {files : List ClientFile} {path : List String}

/-- A file that is found was there before, or was written. -/
theorem file_of_foldl_write {bytes : List UInt8}
    (h : files.foldl write contents path = some (.file bytes)) :
    contents path = some (.file bytes) ∨ ∃ file ∈ files, file.path = path := by
  induction files generalizing contents with
  | nil => exact .inl h
  | cons file rest ih =>
    rcases ih h with hwritten | ⟨other, hother, hpath⟩
    · unfold write at hwritten
      split at hwritten
      · rename_i he
        exact .inr ⟨file, List.mem_cons_self, he.symm⟩
      · split at hwritten
        · cases hwritten
        · exact .inl hwritten
    · exact .inr ⟨other, List.mem_cons_of_mem _ hother, hpath⟩

/-- A file of a client stays a file, whatever else is written of the client. -/
theorem foldl_write_file (hfiles : ∀ file ∈ files, IsClientPath file.path)
    (hpath : IsClientPath path)
    (h : (∃ bytes, contents path = some (.file bytes)) ∨ ∃ file ∈ files, file.path = path) :
    ∃ bytes, files.foldl write contents path = some (.file bytes) := by
  induction files generalizing contents with
  | nil => simpa using h
  | cons file rest ih =>
    rw [List.forall_mem_cons] at hfiles
    -- a file that is there stays: another at its path replaces it by a file
    refine ih hfiles.2 ?_
    by_cases he : path = file.path
    · refine .inl ⟨file.text.toUTF8.toList, ?_⟩
      unfold write
      rw [if_pos he]
    · rcases h with ⟨bytes, hthere⟩ | ⟨other, hother, hother'⟩
      · refine .inl ⟨bytes, ?_⟩
        unfold write
        rw [if_neg he, if_neg fun hway => he (hpath.eq_of_prefix hfiles.1 hway.2)]
        exact hthere
      · rcases List.mem_cons.mp hother with rfl | hrest
        · exact absurd hother'.symm he
        · exact .inr ⟨other, hrest, hother'⟩

/-- The files in the folders of a client are those that were written. -/
theorem exists_file_iff {model : Option FileNode} (hfiles : ∀ file ∈ files, IsClientPath file.path)
    (hpath : path ≠ ["model.ts"]) :
    (∃ bytes, ofFiles model files path = some (.file bytes)) ↔
      ∃ file ∈ files, file.path = path := by
  constructor
  · rintro ⟨bytes, h⟩
    refine (file_of_foldl_write h).resolve_left fun hrenewed => ?_
    unfold renewed at hrenewed
    rw [if_neg hpath] at hrenewed
    split at hrenewed
    · cases hrenewed
    · cases hrenewed
  · rintro ⟨file, hfile, rfl⟩
    exact foldl_write_file hfiles (hfiles file hfile) (.inr ⟨file, hfile, rfl⟩)

end Contents

/-! ## Controllers before a malformed parameter -/

namespace Client

/-- A controller with a malformed parameter is not written at all. -/
theorem files_writeController_of_malformed {settings : Settings} {context : Operation.Context}
    {controller : String × List Operation} {malformation : Malformation}
    (h : (writeController settings context controller).outcome =
      .error (.malformed malformation)) :
    Operation.toMethods context controller.2 = .error (.malformed malformation) ∧
      (writeController settings context controller).files = [] := by
  rcases Writing.bind_outcome_error h with h | ⟨methods, -, h⟩
  · refine ⟨h, ?_⟩
    unfold writeController
    change (Writing.andThen (Writing.ofExcept (Operation.toMethods context controller.2))
      _).files = []
    have hmethods : Operation.toMethods context controller.2 = .error (.malformed malformation) :=
      h
    rw [hmethods]
    rfl
  · -- compiling and writing are not broken off by it
    rcases Writing.bind_outcome_error h with h | ⟨compiled, -, h⟩
    · exact absurd h Writing.lift_ne_malformed
    · rcases Writing.bind_outcome_error h with h | ⟨⟨⟩, -, h⟩
      · cases h
      · split at h
        · cases h
        · cases h

/-- How a document breaks off a client: its controllers up to one with a malformed
parameter are written, and no other. -/
structure Breakdown (options : Options) (document : Json) where
  parts : Parts options document
  before : List (String × List Operation)
  faulty : String × List Operation
  after : List (String × List Operation)
  malformation : Malformation
  read : Operation.byController parts.settings.policy.allowed (parts.paths.orElse (.object [])) =
    .ok (before ++ faulty :: after)
  written :
    (Writing.forEach (writeController parts.settings parts.context) before).outcome = .ok ()
  malformed : Operation.toMethods parts.context faulty.2 = .error (.malformed malformation)

namespace Breakdown

variable {options : Options} {document : Json}

/-- What is written of the services. -/
def services (breakdown : Breakdown options document) : List ClientFile :=
  (Writing.forEach (writeController breakdown.parts.settings breakdown.parts.context)
    breakdown.before).files

/-- Every controller that is written has its service. -/
theorem exists_service (breakdown : Breakdown options document)
    {controller : String × List Operation} (h : controller ∈ breakdown.before) :
    ∃ file ∈ breakdown.services, file.path =
      [Layout.controllers, controller.1 ++ Layout.extension] := by
  obtain ⟨hall, hfiles⟩ := Writing.forEach_outcome_ok breakdown.written
  obtain ⟨service, hname, hservice, -⟩ := writeController_ok (hall controller h)
  refine ⟨Controller.file breakdown.parts.settings.header service.name service.methods, ?_, ?_⟩
  · unfold services
    rw [hfiles]
    refine List.mem_flatMap.mpr ⟨controller, h, ?_⟩
    rw [hservice]
    exact List.mem_cons_self
  · rw [← hname]
    rfl

/-- If no controller is written, no service is. -/
theorem services_eq_nil (breakdown : Breakdown options document) (h : breakdown.before = []) :
    breakdown.services = [] := by
  unfold services
  rw [h]
  rfl

end Breakdown

/-- **A malformed parameter breaks off a client at its controller:** the model is written,
and the controllers before it. -/
theorem exists_breakdown {options : Options} {document : Json} {malformation : Malformation}
    (h : (write options document).outcome = .error (.malformed malformation)) :
    ∃ breakdown : Breakdown options document,
      (write options document).files =
        modelFiles breakdown.parts.header breakdown.parts.definitions ++ breakdown.services := by
  obtain ⟨parts, hfiles, hends⟩ := exists_parts fun misuse hmisuse => by
    rw [h] at hmisuse
    cases hmisuse
  have hcontrollers : parts.controllers.outcome = .error (.malformed malformation) := by
    rw [h] at hends
    cases houtcome : parts.controllers.outcome with
    | error fault =>
      rw [houtcome] at hends
      exact congrArg _ (Except.error.inj hends).symm
    | ok names =>
      rw [houtcome] at hends
      cases hends
  -- the paths are read, so it is a controller that fails, and it writes nothing
  rcases Writing.bind_outcome_error hcontrollers with h | ⟨controllers, hread, h⟩
  · exact absurd h Writing.lift_ne_malformed
  rcases Writing.bind_outcome_error h with h | ⟨⟨⟩, -, h⟩
  · have hwritten : parts.controllers.files =
        (Writing.forEach (writeController parts.settings parts.context) controllers).files :=
      (Writing.files_bind_of_ok hread).trans (Writing.files_bind_of_error h)
    obtain ⟨before, faulty, after, rfl, hbefore, hfaulty, hforEach⟩ :=
      Writing.forEach_outcome_error h
    obtain ⟨hmalformed, hnothing⟩ := files_writeController_of_malformed hfaulty
    refine ⟨⟨parts, before, faulty, after, malformation, lift_eq_ok.mp hread, hbefore,
      hmalformed⟩, ?_⟩
    rw [hfiles, hwritten, hforEach, hnothing, List.append_nil]
    rfl
  · cases h

/-- The files of a model lie in no folder of services. -/
theorem path_ne_of_mem_modelFiles {header : String} {definitions : Json} {file : ClientFile}
    (h : file ∈ modelFiles header definitions) {folder : String} {rest : List String}
    (hfolder : folder ∈ [Layout.controllers, Layout.store]) : file.path ≠ folder :: rest := by
  have hhead :
      file.path.head? ∈ [some Layout.common, some Layout.definitions, some "model.ts"] := by
    rcases List.mem_cons.mp h with rfl | h
    · exact List.mem_cons_self
    rcases Writing.mem_files_bind h with h | ⟨members, -, h⟩
    · exact absurd h List.not_mem_nil
    rcases Writing.mem_files_bind h with h | ⟨⟨⟩, -, h⟩
    · obtain ⟨⟨name, schema⟩, -, h⟩ := Writing.mem_files_forEach h
      rcases Writing.mem_files_bind h with h | ⟨text, -, h⟩
      · exact absurd h List.not_mem_nil
      · obtain rfl := List.mem_singleton.mp h
        exact List.mem_cons_of_mem _ List.mem_cons_self
    · rcases Writing.mem_files_bind h with h | ⟨⟨⟩, -, h⟩
      · obtain rfl := List.mem_singleton.mp h
        exact List.mem_cons_of_mem _ (List.mem_cons_of_mem _ List.mem_cons_self)
      · exact absurd h List.not_mem_nil
  -- neither folder is where the model is written
  have hapart : ∀ folder ∈ [Layout.controllers, Layout.store],
      some folder ∉ [some Layout.common, some Layout.definitions, some "model.ts"] := by decide
  intro hpath
  rw [hpath] at hhead
  exact hapart folder hfolder hhead

end Client

/-! ## Runs that fail -/

/-- A run that reports a malformed parameter. -/
def ReportsMalformed (options : Options) (result : RunResult) : Prop :=
  ∃ malformation, result.outcome = Plan.report options (.error (.malformed malformation))

/-- No file lies in the folders of services and actions. -/
def NoServices (options : Options) (before after : FileSystem) : Prop :=
  ∀ folder ∈ [Layout.controllers, Layout.store], ∀ rest bytes,
    after.node? (options.place before ++ folder :: rest) ≠ some (.file bytes)

/-- What a run leaves of the services when it reports a malformed parameter. -/
structure LeavesServices (options : Options) (before after : FileSystem) {document : Json}
    (breakdown : Client.Breakdown options document) : Prop where
  /-- The files in the two folders are those of the controllers that were written. -/
  files : ∀ folder ∈ [Layout.controllers, Layout.store], ∀ rest,
    (∃ bytes, after.node? (options.place before ++ folder :: rest) = some (.file bytes)) ↔
      ∃ file ∈ breakdown.services, file.path = folder :: rest
  /-- There is none of them just if the malformed parameter is one of the first controller. -/
  none_iff : NoServices options before after ↔ breakdown.before = []

section

variable {options : Options} {files : FileSystem}

/-- A run that reports a malformed parameter has taken all steps of a
plan that is broken off by one. -/
theorem exists_of_reportsMalformed (h : ReportsMalformed options (run options files)) :
    ∃ bytes document malformation, files.read (.ofString options.source) = .ok bytes ∧
      Document.ofBytes bytes = .ok document ∧
      files.performAll (Plan.ofDocument options document).actions =
        ((run options files).files, none) ∧
      (Client.write options document).outcome = .error (.malformed malformation) := by
  obtain ⟨malformation, houtcome⟩ := h
  have hreports : Plan.report options (.error (.malformed malformation)) = .ok _ := rfl
  obtain ⟨bytes, document, hread, hdocument, hsteps, hreport⟩ := run_reports hreports houtcome
  rcases hwritten : (Client.write options document).outcome with (misuse | other) | summary
  · rw [hwritten] at hreport
    cases hreport
  · exact ⟨bytes, document, other, hread, hdocument, hsteps, hwritten⟩
  · rw [hwritten] at hreport
    cases hreport

/-- **A run that reports a malformed parameter leaves the services of the controllers before
it,** and so no service just if the parameter is one of the first controller. -/
theorem leavesServices_of_reportsMalformed (hclearable : Clearable options files)
    (hmodel : files.node? (options.place files ++ ["model.ts"]) ≠ some .folder)
    (hfailed : ReportsMalformed options (run options files)) :
    ∃ bytes document, files.read (.ofString options.source) = .ok bytes ∧
      Document.ofBytes bytes = .ok document ∧
      ∃ breakdown : Client.Breakdown options document,
        LeavesServices options files (run options files).files breakdown := by
  obtain ⟨bytes, document, malformation, hread, hdocument, hsteps, hmalformed⟩ :=
    exists_of_reportsMalformed hfailed
  obtain ⟨breakdown, hfiles⟩ := Client.exists_breakdown hmalformed
  have hpaths : ∀ file ∈ (Client.write options document).files, IsClientPath file.path :=
    fun file hfile => Client.isClientPath_of_mem_write hfile
  obtain ⟨hfolder, hholds⟩ := (hclearable.performAll hmodel hpaths).2 _ hsteps
  have hservices : ∀ folder ∈ [Layout.controllers, Layout.store], ∀ rest,
      (∃ bytes, (run options files).files.node? (options.place files ++ folder :: rest) =
        some (.file bytes)) ↔ ∃ file ∈ breakdown.services, file.path = folder :: rest := by
    intro folder hmem rest
    have hall : ∀ folder ∈ [Layout.controllers, Layout.store],
        folder ∈ renewedFolders ∧ folder ≠ "model.ts" := by decide
    obtain ⟨hrenewed, hmodelFile⟩ := hall folder hmem
    have hinside : Inside [] (folder :: rest) := .inr ⟨folder, hrenewed, rest, rfl⟩
    have hhere := hholds.inside _ hinside
    rw [hfolder] at hhere
    have hne : folder :: rest ≠ ["model.ts"] := fun he => hmodelFile (List.cons.inj he).1
    -- what lies there was written, and not for the model
    unfold Options.place
    rw [hhere, Contents.exists_file_iff hpaths hne, hfiles]
    simp only [List.mem_append, or_and_right, exists_or]
    refine or_iff_right ?_
    rintro ⟨file, hfile, hpath⟩
    exact Client.path_ne_of_mem_modelFiles hfile hmem hpath
  refine ⟨bytes, document, hread, hdocument, breakdown, hservices, ?_⟩
  constructor
  · -- a controller in front of the faulty one has left its file
    intro hnone
    by_contra hsome
    obtain ⟨controller, hcontroller⟩ := List.exists_mem_of_ne_nil _ hsome
    have hmem : Layout.controllers ∈ [Layout.controllers, Layout.store] := List.mem_cons_self
    obtain ⟨bytes, hfile⟩ := (hservices _ hmem _).mpr (breakdown.exists_service hcontroller)
    exact hnone _ hmem _ _ hfile
  · intro hfirst folder hmem rest bytes hfile
    obtain ⟨file, hservice, -⟩ := (hservices folder hmem rest).mp ⟨bytes, hfile⟩
    rw [breakdown.services_eq_nil hfirst] at hservice
    exact absurd hservice List.not_mem_nil

end

/-! ## A parameter without a name -/

/-- Two controllers, the second of which has a parameter without a name. -/
def unnamedDocument : Written :=
  let operation (members : List (Name × Written)) : Written :=
    .object .none .none [(bareName "get", .object .none .none members)]
  let parameters : Written := .array .none .none [.object .none .none []]
  .object .none .none [(bareName "paths", .object .none .none
    [(bareName "/a", operation []),
      (bareName "/b", operation [(bareName "parameters", parameters)])])]

example : String.ofList unnamedDocument.text =
    "\x7b\"paths\":\x7b\"/a\":\x7b\"get\":\x7b\x7d\x7d," ++
      "\"/b\":\x7b\"get\":\x7b\"parameters\":[\x7b\x7d]\x7d\x7d\x7d\x7d" := by
  decide +kernel

/-- The paths that are read of it. -/
def unnamedPaths : Json :=
  let operation (members : List (String × Json)) : Json := .object [("get", .object members)]
  .object [("/a", operation []), ("/b", operation [("parameters", .array [.object []])])]

/-- What is read of it. -/
def unnamedValue : Json := .object [("paths", unnamedPaths), ("basePath", .string "")]

def unnamedOptions : Options :=
  { Options.standard with
    source := "api.json", destination := "out", store := false, omitVersion := true }

/-- Nothing but the document is there. -/
def unnamedFiles : FileSystem where
  nodes := [(["work"], .folder),
    (["work", "api.json"], .file (String.ofList unnamedDocument.text).toUTF8.toList)]
  workingFolder := ["work"]

theorem ofBytes_unnamed :
    Document.ofBytes (String.ofList unnamedDocument.text).toUTF8.toList = .ok unnamedValue := by
  have hdecoded : Text.decodeUtf8 (String.ofList unnamedDocument.text).toUTF8.toList =
      .ok unnamedDocument.text := eq_ok_of_toOption (by decide +kernel)
  have hlines : Text.unifyNewlines unnamedDocument.text = unnamedDocument.text := by decide +kernel
  have hready :
      Document.Ready (Document.found unnamedDocument) unnamedDocument := by decide +kernel
  unfold Document.ofBytes Document.ofText
  rw [hdecoded]
  change Document.ofText (Text.unifyNewlines unnamedDocument.text) = _
  rw [hlines]
  unfold Document.ofText
  rw [Document.read_withoutPlaceholders hready]
  rfl

/-- The service of the first controller is left. -/
theorem not_noServices_unnamed : Clearable unnamedOptions unnamedFiles ∧
    unnamedFiles.node? (unnamedOptions.place unnamedFiles ++ ["model.ts"]) ≠ some .folder ∧
    ReportsMalformed unnamedOptions (run unnamedOptions unnamedFiles) ∧
    ¬ NoServices unnamedOptions unnamedFiles (run unnamedOptions unnamedFiles).files := by
  have hinitial : Initial unnamedOptions unnamedFiles :=
    initial_of_nodes (by decide +kernel) (by decide +kernel) (by decide +kernel)
      (by decide +kernel) (by decide +kernel)
  have hclearable : Clearable unnamedOptions unnamedFiles :=
    (reached_of_forall_ne (by decide +kernel) (by decide +kernel)).clearable hinitial (.refl _ _)
  have hread : unnamedFiles.read (.ofString unnamedOptions.source) =
      .ok (String.ofList unnamedDocument.text).toUTF8.toList :=
      eq_ok_of_toOption (by decide +kernel)
  have hsteps :
      (unnamedFiles.performAll (Plan.ofDocument unnamedOptions unnamedValue).actions).2 =
        none := by
    decide +kernel
  have hfailed : ReportsMalformed unnamedOptions (run unnamedOptions unnamedFiles) := by
    refine ⟨.unnamed (.object []), ?_⟩
    rw [run_of_document hread ofBytes_unnamed, Plan.carryOut,
      show unnamedFiles.performAll (Plan.ofDocument unnamedOptions unnamedValue).actions =
        (_, none) from
        Prod.ext rfl hsteps]
    exact eq_ok_of_toOption (by decide +kernel)
  refine ⟨hclearable, hinitial.model, hfailed, ?_⟩
  obtain ⟨bytes, document, hread', hdocument, breakdown, hleaves⟩ :=
    leavesServices_of_reportsMalformed hclearable hinitial.model hfailed
  obtain rfl := Except.ok.inj (hread.symm.trans hread')
  obtain rfl := Except.ok.inj (ofBytes_unnamed.symm.trans hdocument)
  rw [hleaves.none_iff]
  intro hnone
  -- the first controller has no parameter at all
  let context : Operation.Context := ⟨unnamedValue, Client.docBase "" unnamedOptions.docPath, ""⟩
  have hfirst : ((Operation.byController (standardPolicy unnamedOptions.unwrap).allowed
      (unnamedPaths.orElse (.object []))).toOption.all fun controllers =>
        controllers.head?.all fun controller =>
          (Operation.toMethods context controller.2).toOption.isSome) = true := by decide +kernel
  have hpaths : unnamedPaths = breakdown.parts.paths :=
    Except.ok.inj ((show Document.paths unnamedValue = .ok unnamedPaths from rfl).symm.trans
      breakdown.parts.pathsRead)
  have hhost : "" = breakdown.parts.host :=
    Except.ok.inj ((eq_ok_of_toOption (by decide +kernel)).symm.trans breakdown.parts.hostRead)
  have hbase : "" = breakdown.parts.base :=
    Except.ok.inj ((eq_ok_of_toOption (by decide +kernel)).symm.trans breakdown.parts.baseRead)
  have hread : Operation.byController (standardPolicy unnamedOptions.unwrap).allowed
      (unnamedPaths.orElse (.object [])) = .ok (breakdown.faulty :: breakdown.after) := by
    have hread := breakdown.read
    rwa [hnone, ← hpaths] at hread
  have hmalformed : Operation.toMethods context breakdown.faulty.2 =
      .error (.malformed breakdown.malformation) := by
    have hmalformed := breakdown.malformed
    unfold Client.Parts.context at hmalformed
    rwa [← hhost, ← hbase] at hmalformed
  rw [hread] at hfirst
  change (Operation.toMethods context breakdown.faulty.2).toOption.isSome = true at hfirst
  rw [hmalformed] at hfirst
  cases hfirst

end ApiClient
