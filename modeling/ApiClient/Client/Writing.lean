/-!
# Writing a client

A client is made file by file, and making it can fail part way. What was written up to then stays
written, so a writing keeps its files whether or not it comes to an end.
-/

namespace ApiClient

/-- A file of a client: where it lies below the destination, and its text. -/
structure ClientFile where
  path : List String
  text : String
  deriving DecidableEq

/-- Files written in order, and what came of it. -/
structure Writing (ε α : Type) where
  files : List ClientFile
  outcome : Except ε α

namespace Writing

variable {ε α β : Type}

/-- Writes nothing more. -/
def done (value : α) : Writing ε α := ⟨[], .ok value⟩

/-- Goes on with the value of a writing, unless it failed. -/
def andThen (first : Writing ε α) (next : α → Writing ε β) : Writing ε β :=
  match first.outcome with
  | .ok value => ⟨first.files ++ (next value).files, (next value).outcome⟩
  | .error fault => ⟨first.files, .error fault⟩

instance : Monad (Writing ε) where
  pure := done
  bind := andThen

/-- Writes one file. -/
def write (file : ClientFile) : Writing ε Unit := ⟨[file], .ok ()⟩

/-- Writes several files. -/
def writeAll (files : List ClientFile) : Writing ε Unit := ⟨files, .ok ()⟩

/-- A computation that writes nothing. -/
def ofExcept (outcome : Except ε α) : Writing ε α := ⟨[], outcome⟩

instance : MonadLift (Except ε) (Writing ε) where
  monadLift := ofExcept

/-- Goes through a list in order, as long as no step fails. -/
def forEach (step : α → Writing ε Unit) : List α → Writing ε Unit
  | [] => done ()
  | item :: rest => (step item).andThen fun _ => forEach step rest

end Writing

end ApiClient
