import ApiClient.Command.Basic

/-!
# The program

Reads the source, plans the run, and carries the plan out on real files.
-/

namespace ApiClient

/-- The fault that an input or output error stands for. -/
def faultOf : IO.Error → FileFault
  | .noFileOrDirectory .. | .noSuchThing .. => .notFound
  | .alreadyExists .. => .exists
  | .inappropriateType _ code _ => if code == 21 then .isAFolder else .notAFolder
  | _ => .notFound

/-- Takes one step on real files. -/
def Action.perform : Action → IO Unit
  | .clear text => do
    try IO.FS.removeDirAll ⟨text⟩ catch _ => pure ()
  | .makeFolder path => IO.FS.createDirAll ⟨path.text⟩
  | .write path text => do
    IO.FS.createDirAll ⟨path.parent.text⟩
    IO.FS.writeFile ⟨path.text⟩ text

/-- The bytes of a real file. -/
def readSource (path : FilePath) : IO (Except FileFault (List UInt8)) := do
  try return .ok (← IO.FS.readBinFile ⟨path.text⟩).toList
  catch fault => return .error (faultOf fault)

/-- Makes a client on real files. -/
def runOnFiles (options : Options) : IO UInt32 := do
  let plan := Plan.ofSource options (← readSource (FilePath.ofString options.source))
  plan.actions.forM Action.perform
  match plan.outcome with
  | .ok lines =>
    let stdout ← IO.getStdout
    stdout.putStr (Command.linesText (← stdout.isTty) lines)
    return 0
  | .error failure =>
    IO.eprintln failure.message
    return 1

end ApiClient

/-- The command line. -/
def main (arguments : List String) : IO UInt32 := do
  match ApiClient.Command.request arguments with
  | .error fault =>
    IO.eprint fault.message
    return 2
  | .ok .help =>
    IO.print ApiClient.Command.helpText
    return 0
  | .ok (.run options) => ApiClient.runOnFiles options
