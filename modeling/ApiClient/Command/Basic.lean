import ApiClient.Command.Arguments

/-!
# Commands

What a command prints and the code it exits with.
-/

namespace ApiClient.Command

/-! ## Texts -/

/-- How the command is used, in one line. -/
def usageLine : String := "Usage: main [OPTIONS]\n"

/-- The help text. -/
def helpText : String :=
  usageLine ++
  "\n" ++
  "  Generate an Angular API client from a Swagger schema.\n" ++
  "\n" ++
  "Options:\n" ++
  "  -s, --src TEXT                  Source Swagger JSON schema.  [default:\n" ++
  "                                  conf/api/api-docs.json]\n" ++
  "  -d, --dest TEXT                 Destination directory.  [default: src/api]\n" ++
  "  --no-store                      Do not generate NgRx store actions.\n" ++
  "  -u, --unwrap-single-param-methods\n" ++
  "                                  Also emit positional-argument variants of\n" ++
  "                                  single-parameter methods.\n" ++
  "  -w, --swagger-url-path TEXT     Path where the Swagger UI is served, used for\n" ++
  "                                  method doc links.  [default: /swagger]\n" ++
  "  --omit-version                  Leave API version info out of file headers.\n" ++
  "  --help                          Show this message and exit.\n"

/-- The question whether another option was meant. -/
def suggestion : List String → String
  | [] => ""
  | [candidate] => " Did you mean " ++ Json.quoteShown candidate ++ "?"
  | candidates =>
    " (Did you mean one of: " ++ ", ".intercalate (candidates.map Json.quoteShown) ++ "?)"

/-- How a wrong use is worded. -/
def UsageFault.reason : UsageFault → String
  | noSuchOption option candidates =>
    "No such option " ++ Json.quoteShown option ++ "." ++ suggestion candidates
  | missingValue option => "Option " ++ Json.quoteShown option ++ " requires an argument."
  | unwantedValue option => "Option " ++ Json.quoteShown option ++ " does not take a value."
  | extraArguments arguments =>
    "Got unexpected extra argument" ++ (if arguments.length == 1 then "" else "s") ++ " (" ++
      " ".intercalate arguments ++ ")"

/-- How a wrong use is reported. A value that is missing or not wanted needs no reminder. -/
def UsageFault.message (fault : UsageFault) : String :=
  let reminder := usageLine ++ "Try 'main --help' for help.\n\n"
  let reported := "Error: " ++ fault.reason ++ "\n"
  match fault with
  | missingValue _ | unwantedValue _ => reported
  | noSuchOption _ _ | extraArguments _ => reminder ++ reported

/-! ## The terminal -/

/-- Whether a character is a parameter of a control sequence. -/
def isParameter (c : Char) : Bool := '0' ≤ c && c ≤ '?'

/-- Whether a character can stand between the parameters of a control sequence and its end. -/
def isIntermediate (c : Char) : Bool := ' ' ≤ c && c ≤ '/'

/-- Whether a character ends a control sequence. -/
def isFinal (c : Char) : Bool := '@' ≤ c && c ≤ '~'

/-- What follows a control sequence at the front of a text that comes after an escape character. -/
def afterSequence? : List Char → Option (List Char)
  | '[' :: rest =>
    match (rest.dropWhile isParameter).dropWhile isIntermediate with
    | c :: after => if isFinal c then some after else none
    | [] => none
  | _ => none

theorem length_of_afterSequence? {text rest : List Char} (h : afterSequence? text = some rest) :
    rest.length < text.length := by
  unfold afterSequence? at h
  split at h
  · rename_i body
    have hparameters := (List.dropWhile_suffix (l := body) isParameter).length_le
    have hintermediates :=
      (List.dropWhile_suffix (l := body.dropWhile isParameter) isIntermediate).length_le
    split at h
    · rename_i hd
      split at h
      · obtain rfl := Option.some.inj h
        simp only [hd, List.length_cons] at hintermediates ⊢
        omega
      · simp at h
    · simp at h
  · simp at h

/-- A text without control sequences, for a terminal that shows no colours. -/
def dropSequences (text : List Char) : List Char :=
  match text with
  | [] => []
  | c :: rest =>
    if c = '\x1b' then
      match h : afterSequence? rest with
      | some after =>
        have := length_of_afterSequence? h
        dropSequences after
      | none => c :: dropSequences rest
    else c :: dropSequences rest
termination_by text.length

/-- A text as the terminal gets it. -/
def terminalText (colours : Bool) (text : String) : String :=
  if colours then text else String.ofList (dropSequences text.toList)

/-- The control sequence that starts a colour. -/
def Colour.sequence : Colour → String
  | .red => "\x1b[31m"
  | .green => "\x1b[32m"

/-- A line as the terminal gets it; with colours every line ends by switching them off. -/
def lineText (colours : Bool) (line : Line) : String :=
  if colours then
    (line.colour.map Colour.sequence).getD "" ++ line.text ++ "\x1b[0m" ++ "\n"
  else terminalText colours line.text ++ "\n"

/-- Lines as the terminal gets them. -/
def linesText (colours : Bool) (lines : List Line) : String :=
  String.join (lines.map (lineText colours))

/-! ## Results -/

/-- What a command leaves. -/
structure Result where
  exitCode : Nat
  output : String
  files : FileSystem
  failure : Option Failure

/-- Carries out a command. A source that cannot be read is reported and is no failure. -/
def execute (arguments : List String) (colours : Bool) (files : FileSystem) : Result :=
  match request arguments with
  | .error fault => ⟨2, terminalText colours fault.message, files, none⟩
  | .ok .help => ⟨0, helpText, files, none⟩
  | .ok (.run options) =>
    let result := ApiClient.run options files
    match result.outcome with
    | .ok lines => ⟨0, linesText colours lines, result.files, none⟩
    | .error failure => ⟨1, "", result.files, some failure⟩

end ApiClient.Command
