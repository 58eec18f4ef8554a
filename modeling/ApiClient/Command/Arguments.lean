import ApiClient.Client.Run
import ApiClient.Text.Similarity

/-!
# The command line

Arguments are read from left to right. An option has a short or a long form or both; a value may
stand beside it or in the next argument, and the last one given counts. Two dashes end the options.
-/

namespace ApiClient.Command

/-- The options that a user can give. -/
inductive Flag where
  | source
  | destination
  | noStore
  | unwrap
  | docPath
  | omitVersion
  | help
  deriving DecidableEq

/-- Whether an option comes with a value. -/
def Flag.takesValue : Flag → Bool
  | source | destination | docPath => true
  | _ => false

/-- The long forms. -/
def longForms : List (String × Flag) :=
  [("--src", .source), ("--dest", .destination), ("--no-store", .noStore),
    ("--unwrap-single-param-methods", .unwrap), ("--swagger-url-path", .docPath),
    ("--omit-version", .omitVersion), ("--help", .help)]

/-- The short forms. -/
def shortForms : List (Char × Flag) :=
  [('s', .source), ('d', .destination), ('u', .unwrap), ('w', .docPath)]

/-- Arguments that make no command. -/
inductive UsageFault where
  /-- An option that is not there, and those it may be a slip for. -/
  | noSuchOption (option : String) (candidates : List String)
  | missingValue (option : String)
  | unwantedValue (option : String)
  | extraArguments (arguments : List String)

/-- What the arguments say. -/
structure Given where
  options : Options
  help : Bool
  /-- Arguments that are no options. -/
  extra : List String

/-- What is given when no argument says otherwise. -/
def Given.nothing : Given := ⟨.standard, false, []⟩

/-- Notes an option. -/
def Given.note (given : Given) (flag : Flag) (value : String) : Given :=
  match flag with
  | .source => { given with options := { given.options with source := value } }
  | .destination => { given with options := { given.options with destination := value } }
  | .noStore => { given with options := { given.options with store := false } }
  | .unwrap => { given with options := { given.options with unwrap := true } }
  | .docPath => { given with options := { given.options with docPath := value } }
  | .omitVersion => { given with options := { given.options with omitVersion := true } }
  | .help => { given with help := true }

/-- What one argument leaves to be done: nothing, or to read a value from the next argument. -/
inductive Step where
  | next (given : Given)
  | value (given : Given) (option : String) (flag : Flag)

/-- Reads short options that stand together; the rest of the argument can be the value of one. -/
def readShort (given : Given) : List Char → Except UsageFault Step
  | [] => .ok (.next given)
  | c :: rest =>
    let option := "-" ++ String.singleton c
    match shortForms.lookup c with
    | none => .error (.noSuchOption option [])
    | some flag =>
      if flag.takesValue then
        if rest.isEmpty then .ok (.value given option flag)
        else .ok (.next (given.note flag (String.ofList rest)))
      else readShort (given.note flag "") rest

/-- An argument before and after its first equals sign. -/
def splitValue (argument : List Char) : String × Option String :=
  match argument.dropWhile (· != '=') with
  | _ :: value =>
    (String.ofList (argument.takeWhile (· != '=')), some (String.ofList value))
  | [] => (String.ofList argument, none)

/-- The long forms that a slip may stand for, in alphabetical order. -/
def candidates (option : String) : List String :=
  (Text.closest option (longForms.map (·.1))).mergeSort fun left right => decide (left ≤ right)

/-- Reads a long option, with its value if it has one. -/
def readLong (given : Given) (argument : List Char) : Except UsageFault Step :=
  let (option, value) := splitValue argument
  match longForms.lookup option, value with
  | none, _ => .error (.noSuchOption option (candidates option))
  | some flag, some value =>
    if flag.takesValue then .ok (.next (given.note flag value))
    else .error (.unwantedValue option)
  | some flag, none =>
    if flag.takesValue then .ok (.value given option flag) else .ok (.next (given.note flag ""))

/-- Reads one argument. -/
def readArgument (given : Given) (argument : String) : Except UsageFault Step :=
  match argument.toList with
  | '-' :: '-' :: rest => readLong given ('-' :: '-' :: rest)
  | '-' :: c :: rest => readShort given (c :: rest)
  | _ => .ok (.next { given with extra := given.extra ++ [argument] })

/-- Reads all arguments. -/
def readArguments (given : Given) : List String → Except UsageFault Given
  | [] => .ok given
  | "--" :: rest => .ok { given with extra := given.extra ++ rest }
  | argument :: rest => do
    match ← readArgument given argument, rest with
    | .next given, rest => readArguments given rest
    | .value given _ flag, value :: rest => readArguments (given.note flag value) rest
    | .value _ option _, [] => throw (.missingValue option)

/-- A command: to show the help, or to run. -/
inductive Request where
  | help
  | run (options : Options)

/-- The command that the arguments give. Help is given even where arguments are left over. -/
def request (arguments : List String) : Except UsageFault Request := do
  let given ← readArguments .nothing arguments
  if given.help then return .help
  if given.extra.isEmpty then return .run given.options
  throw (.extraArguments given.extra)

end ApiClient.Command
