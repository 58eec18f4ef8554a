import ApiClient.Client.Plan
import ApiClient.Client.Run
import ApiClient.Proofs.Outcome

/-!
# How far a run gets

Only a parameter of a controller can be malformed. So a writing that comes to an end, or breaks
off with a malformed parameter, has written the shared declarations and the whole model, and its
controllers decide how it ends. A run that reports the one or the other has taken all its steps.
-/

namespace ApiClient

/-! ## Writings that do not end in a misuse -/

namespace Writing

variable {α β : Type}

/-- A writing that is not broken off by a value of the wrong kind. -/
def Proper (writing : Writing Fault α) : Prop :=
  ∀ misuse, writing.outcome ≠ .error (.misuse misuse)

/-- A reading in a proper writing succeeds, and the writing goes on from it. -/
theorem Proper.of_lift {reading : Except Misuse α} {next : α → Writing Fault β}
    (h : (((liftM reading : Writing Fault α)) >>= next).Proper) :
    ∃ a, reading = .ok a ∧ (next a).Proper ∧
    ((liftM reading : Writing Fault α) >>= next) = next a := by
  cases reading with
  | error misuse => exact absurd rfl (h misuse)
  | ok a => exact ⟨a, rfl, h, rfl⟩

/-- A part of a proper writing that can only be broken off by a misuse comes to an end. -/
theorem Proper.of_bind {first : Writing Fault α} {next : α → Writing Fault β}
    (h : (first >>= next).Proper)
    (hfirst : ∀ malformation, first.outcome ≠ .error (.malformed malformation)) :
    ∃ a, first.outcome = .ok a ∧ (next a).Proper ∧
      (first >>= next).files = first.files ++ (next a).files ∧
      (first >>= next).outcome = (next a).outcome := by
  change (first.andThen next).Proper at h
  change ∃ a, _ ∧ _ ∧ (first.andThen next).files = _ ∧ (first.andThen next).outcome = _
  unfold Proper andThen at h
  unfold andThen
  rcases houtcome : first.outcome with fault | a
  · rw [houtcome] at h
    cases fault with
    | misuse misuse => exact absurd rfl (h misuse)
    | malformed malformation => exact absurd houtcome (hfirst malformation)
  · rw [houtcome] at h
    exact ⟨a, rfl, h, rfl, rfl⟩

/-- No reading is broken off by a malformed parameter. -/
theorem lift_ne_malformed {reading : Except Misuse α} {malformation : Malformation} :
    (liftM reading : Writing Fault α).outcome ≠ .error (.malformed malformation) := by
  cases reading with
  | error misuse => exact fun h => by cases h
  | ok a => exact fun h => by cases h

/-- A writing in two steps leaves what the first leaves, and what the
second leaves if it is reached. -/
theorem files_bind_of_ok {ε : Type} {first : Writing ε α} {next : α → Writing ε β} {a : α}
    (h : first.outcome = .ok a) : (first >>= next).files = first.files ++ (next a).files := by
  change (first.andThen next).files = _
  unfold andThen
  rw [h]

theorem files_bind_of_error {ε : Type} {first : Writing ε α} {next : α → Writing ε β} {fault : ε}
    (h : first.outcome = .error fault) : (first >>= next).files = first.files := by
  change (first.andThen next).files = _
  unfold andThen
  rw [h]

/-- What breaks off a writing in two steps breaks off one of them. -/
theorem bind_outcome_error {ε : Type} {first : Writing ε α} {next : α → Writing ε β} {fault : ε}
    (h : (first >>= next).outcome = .error fault) :
    first.outcome = .error fault ∨ ∃ a,
    first.outcome = .ok a ∧ (next a).outcome = .error fault := by
  change (first.andThen next).outcome = .error fault at h
  unfold andThen at h
  split at h
  · rename_i a ha
    exact .inr ⟨a, ha, h⟩
  · rename_i other hother
    exact .inl (hother.trans (congrArg _ (Except.error.inj h)))

/-- **What breaks off going through a list breaks off the step at some item.** The items before
it are gone through, and the items after it are not looked at. -/
theorem forEach_outcome_error {ε : Type} {step : α → Writing ε Unit} {items : List α} {fault : ε}
    (h : (forEach step items).outcome = .error fault) :
    ∃ before faulty after, items = before ++ faulty :: after ∧
      (forEach step before).outcome = .ok () ∧ (step faulty).outcome = .error fault ∧
      (forEach step items).files = (forEach step before).files ++ (step faulty).files := by
  induction items with
  | nil => cases h
  | cons item rest ih =>
    change (step item >>= fun _ => forEach step rest).outcome = _ at h
    change ∃ before faulty after, _ ∧ _ ∧ _ ∧ (step item >>= fun _ => forEach step rest).files = _
    -- either the first item breaks off, or one behind it
    rcases bind_outcome_error h with hitem | ⟨⟨⟩, hitem, hrest⟩
    · exact ⟨[], item, rest, rfl, rfl, hitem, files_bind_of_error hitem⟩
    · obtain ⟨before, faulty, after, rfl, hbefore, hfaulty, hfiles⟩ := ih hrest
      refine ⟨item :: before, faulty, after, rfl, ?_, hfaulty, ?_⟩
      · change ((step item).andThen _).outcome = _
        unfold andThen
        rw [hitem]
        exact hbefore
      · change _ = (step item >>= fun _ => forEach step before).files ++ _
        rw [files_bind_of_ok hitem, files_bind_of_ok hitem, hfiles, List.append_assoc]

end Writing

/-! ## The parts of a client -/

/-- No part of a model can be malformed. -/
theorem Definition.writeModel_ne_malformed (header : String) (definitions : Json)
    (malformation : Malformation) :
    (Definition.writeModel header definitions).outcome ≠ .error (.malformed malformation) := by
  intro h
  rcases Writing.bind_outcome_error h with h | ⟨members, -, h⟩
  · exact Writing.lift_ne_malformed h
  rcases Writing.bind_outcome_error h with h | ⟨⟨⟩, -, h⟩
  · obtain ⟨-, ⟨name, schema⟩, -, -, -, h, -⟩ := Writing.forEach_outcome_error h
    rcases Writing.bind_outcome_error h with h | ⟨text, -, h⟩
    · exact Writing.lift_ne_malformed h
    · cases h
  · rcases Writing.bind_outcome_error h with h | ⟨⟨⟩, -, h⟩
    · cases h
    · cases h

/-- A model that is written to its end has the file that gathers it. -/
theorem Definition.exists_modelFile {header : String} {definitions : Json} {names : List String}
    (h : (Definition.writeModel header definitions).outcome = .ok names) :
    ∃ file ∈ (Definition.writeModel header definitions).files, file.path = ["model.ts"] := by
  obtain ⟨members, -, h, hfiles⟩ := Writing.bind_outcome_ok h
  obtain ⟨⟨⟩, -, h, hfiles'⟩ := Writing.bind_outcome_ok h
  obtain ⟨⟨⟩, -, -, hfiles''⟩ := Writing.bind_outcome_ok h
  refine ⟨Layout.modelFile header
    (Definition.modelText (Json.names (Definition.named [] members))), ?_, rfl⟩
  have hlast : Layout.modelFile header
      (Definition.modelText (Json.names (Definition.named [] members))) ∈
        (Writing.write (ε := Fault) (Layout.modelFile header
          (Definition.modelText (Json.names (Definition.named [] members))))).files :=
    List.mem_singleton_self _
  unfold Definition.writeModel
  rw [hfiles, hfiles', hfiles'']
  exact List.mem_append_right _ (List.mem_append_right _ (List.mem_append_left _ hlast))

namespace Client

/-- The files of a client that come before those of its controllers. -/
def modelFiles (header : String) (definitions : Json) : List ClientFile :=
  Layout.commonFile header commonText :: (Definition.writeModel header definitions).files

/-- What a proper writing of a client consists of: the shared declarations, the whole model, and
its controllers, which decide how it ends. -/
structure Parts (options : Options) (document : Json) where
  header : String
  definitions : Json
  types : List String
  host : String
  paths : Json
  base : String
  headerRead : Document.header document options.omitVersion = .ok header
  definitionsRead : Document.definitions document = .ok definitions
  typesWritten : (Definition.writeModel header definitions).outcome = .ok types
  hostRead : Document.shownMember document "host" = .ok host
  pathsRead : Document.paths document = .ok paths
  baseRead : Document.shownMember document "basePath" = .ok base

namespace Parts

variable {options : Options} {document : Json}

/-- What the files of a client are made with. -/
def settings (parts : Parts options document) : Settings :=
  ⟨parts.header, options.store, standardPolicy options.unwrap⟩

/-- What the operations of a client are described with. -/
def context (parts : Parts options document) : Operation.Context :=
  ⟨document, docBase parts.host options.docPath, parts.base⟩

/-- The writing of the controllers. -/
def controllers (parts : Parts options document) : Writing Fault (List String) :=
  writeControllers parts.settings parts.context parts.paths

end Parts

/-- **A proper writing of a client has written its model and gone on to its controllers.** -/
theorem exists_parts {options : Options} {document : Json} (h : (write options document).Proper) :
    ∃ parts : Parts options document,
      (write options document).files =
        modelFiles parts.header parts.definitions ++ parts.controllers.files ∧
      (write options document).outcome =
        parts.controllers.outcome.map fun names => ⟨parts.types.length, names.length⟩ := by
  obtain ⟨header, hheader, h, he₁⟩ := h.of_lift
  obtain ⟨⟨⟩, -, h, hfiles₂, hends₂⟩ := h.of_bind nofun
  obtain ⟨definitions, hdefinitions, h, he₃⟩ := h.of_lift
  obtain ⟨types, htypes, h, hfiles₄, hends₄⟩ :=
    h.of_bind (Definition.writeModel_ne_malformed header definitions)
  obtain ⟨host, hhost, h, he₅⟩ := h.of_lift
  obtain ⟨paths, hpaths, h, he₆⟩ := h.of_lift
  obtain ⟨base, hbase, -, he₇⟩ := h.of_lift
  let parts : Parts options document :=
    ⟨header, definitions, types, host, paths, base, hheader, hdefinitions, htypes, hhost,
      hpaths, hbase⟩
  -- counting what was written writes nothing more
  have hlast : ∀ controllers : Writing Fault (List String),
      (controllers >>= fun names => pure ⟨types.length, names.length⟩ : Writing Fault Summary) =
        ⟨controllers.files, controllers.outcome.map fun names =>
          ⟨types.length, names.length⟩⟩ := by
    rintro ⟨files, fault | names⟩
    · rfl
    · change (⟨files ++ [], _⟩ : Writing Fault Summary) = _
      rw [List.append_nil]
      rfl
  have hcontrollers := he₅.trans (he₆.trans (he₇.trans (hlast parts.controllers)))
  refine ⟨parts, ?_, ?_⟩
  · calc (write options document).files
      _ = [Layout.commonFile header commonText] ++ _ := (congrArg Writing.files he₁).trans hfiles₂
      _ = [Layout.commonFile header commonText] ++
        ((Definition.writeModel header definitions).files ++ _) :=
        congrArg _ ((congrArg Writing.files he₃).trans hfiles₄)
      _ = [Layout.commonFile header commonText] ++
          ((Definition.writeModel header definitions).files ++ parts.controllers.files) :=
        congrArg _ (congrArg _ (congrArg Writing.files hcontrollers))
      _ = _ := (List.append_assoc _ _ _).symm
  · calc (write options document).outcome
      _ = _ := (congrArg Writing.outcome he₁).trans hends₂
      _ = _ := (congrArg Writing.outcome he₃).trans hends₄
      _ = _ := congrArg Writing.outcome hcontrollers

end Client

/-! ## Runs that report -/

section

variable {options : Options} {files : FileSystem} {lines : List Line}

/-- A run with a document carries out the plan for it. -/
theorem run_of_document {bytes : List UInt8} {document : Json}
    (hread : files.read (.ofString options.source) = .ok bytes)
    (hdocument : Document.ofBytes bytes = .ok document) :
    run options files = (Plan.ofDocument options document).carryOut files := by
  unfold run Plan.ofSource
  rw [hread]
  dsimp only
  rw [hdocument]

/-- The lines on what was made, or on a malformed parameter, are not those on a source without a
document. -/
theorem Plan.report_ne_problem {result : Except Fault Client.Summary} {headline detail : String}
    (h : Plan.report options result = .ok (problem headline detail)) :
    headline = "Error while generating from " ++ options.source := by
  unfold Plan.report at h
  split at h
  · cases h
  · have hlines := Except.ok.inj h
    unfold problem at hlines
    exact congrArg Line.text (List.cons.inj hlines).1.symm
  · cases h

theorem Plan.report_ne_unreadable {result : Except Fault Client.Summary} {reason : String}
    (h : Plan.report options result = .ok lines) :
    (Plan.unreadable options reason).outcome ≠ .ok lines := by
  intro hsame
  obtain rfl := Except.ok.inj hsame
  have hheadline := congrArg (fun text => text.toList.head?) (Plan.report_ne_problem h)
  simp only [String.toList_append, List.head?_append] at hheadline
  cases hheadline

theorem Plan.report_ne_unusable {result : Except Fault Client.Summary} {reason : String}
    (h : Plan.report options result = .ok lines) :
    (Plan.unusable options reason).outcome ≠ .ok lines := by
  intro hsame
  obtain rfl := Except.ok.inj hsame
  -- both begin or end with the source, and the rest is not equally long
  have hlength := congrArg String.length (Plan.report_ne_problem h)
  rw [String.length_append, String.length_append, Nat.add_comm] at hlength
  exact absurd (Nat.add_right_cancel hlength) (by decide)

/-- **A run that reports on its client has taken all steps of the plan for a document.** -/
theorem run_reports {result : Except Fault Client.Summary}
    (hreport : Plan.report options result = .ok lines)
    (h : (run options files).outcome = .ok lines) :
    ∃ bytes document, files.read (.ofString options.source) = .ok bytes ∧
      Document.ofBytes bytes = .ok document ∧
      files.performAll (Plan.ofDocument options document).actions =
        ((run options files).files, none) ∧
      Plan.report options (Client.write options document).outcome = .ok lines := by
  -- a plan without actions answers what it says, and that is none of the reports
  have hnone : ∀ plan : Plan, plan.actions = [] → plan.outcome ≠ .ok lines →
      (plan.carryOut files).outcome ≠ .ok lines := by
    intro plan hactions houtcome
    unfold Plan.carryOut
    rw [hactions]
    exact houtcome
  unfold run Plan.ofSource at h
  split at h
  · exact absurd h (hnone _ rfl nofun)
  · exact absurd h (hnone _ rfl (Plan.report_ne_unreadable hreport))
  · rename_i bytes hread
    split at h
    · rename_i document hdocument
      refine ⟨bytes, document, hread, hdocument, ?_⟩
      rw [run_of_document hread hdocument]
      unfold Plan.carryOut at h ⊢
      split at h
      · cases h
      · rename_i after hsteps
        rw [hsteps]
        exact ⟨rfl, h⟩
    · exact absurd h (hnone _ rfl (Plan.report_ne_unreadable hreport))
    · exact absurd h (hnone _ rfl nofun)
    · exact absurd h (hnone _ rfl (Plan.report_ne_unusable hreport))

end

end ApiClient
