import ApiClient.Client.Plan
import ApiClient.FileSystem.Basic

/-!
# Runs

A run reads its source, plans, and carries the plan out step by step until one fails. Lines are
shown only once all steps are taken.
-/

namespace ApiClient

/-- Takes one step. -/
def FileSystem.perform (files : FileSystem) : Action → FileSystem.Attempt
  | .clear text => (files.clear text, none)
  | .makeFolder path => files.makeFolders path
  | .write path text => files.write path text.toUTF8.toList

/-- Takes steps in order until one fails. -/
def FileSystem.performAll (files : FileSystem) : List Action → FileSystem.Attempt
  | [] => (files, none)
  | action :: rest =>
    match files.perform action with
    | (next, none) => next.performAll rest
    | failed => failed

/-- What a run leaves: the files, and lines for the user unless it broke off. -/
structure RunResult where
  files : FileSystem
  outcome : Except Failure (List Line)

/-- Carries out a plan. -/
def Plan.carryOut (plan : Plan) (files : FileSystem) : RunResult :=
  match files.performAll plan.actions with
  | (after, some fault) => ⟨after, .error (.file fault)⟩
  | (after, none) => ⟨after, plan.outcome⟩

/-- Makes a client. -/
def run (options : Options) (files : FileSystem) : RunResult :=
  (Plan.ofSource options (files.read (FilePath.ofString options.source))).carryOut files

end ApiClient
