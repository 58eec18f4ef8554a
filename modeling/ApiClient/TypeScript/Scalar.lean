import ApiClient.Text.Blank
import ApiClient.Text.Digit

/-!
# Scalar types

Telling from its printed form whether a type is one that a plain argument can carry: a basic type,
or a union of literals. The unions are recognised by an automaton that takes one character at a
time. It is generous: literals may stand side by side, and a separator may end the text.
-/

namespace ApiClient.TypeScript

/-- Where the automaton stands. -/
inductive UnionState where
  /-- A literal must begin. -/
  | start
  /-- A separator has ended: a literal may begin, or the text end. -/
  | separated
  /-- A literal has ended, and can be extended by no further character. -/
  | ended
  /-- Inside quotes. -/
  | quoted
  /-- Inside a word; `rest` is what it still needs. -/
  | word (rest : List Char)
  /-- Inside a separator; `rest` is what it still needs. -/
  | separator (rest : List Char)
  /-- After a minus sign. -/
  | sign
  /-- Inside a number that can still take a point. -/
  | digits
  /-- After a point. -/
  | point
  /-- After the first digit behind a point. -/
  | fraction
  deriving DecidableEq

namespace UnionState

/-- The start of a literal. -/
def begin? (c : Char) : Option UnionState :=
  if c = '\'' then some quoted
  else if c = '-' then some sign
  else if c = 't' then some (word ['r', 'u', 'e'])
  else if c = 'f' then some (word ['a', 'l', 's', 'e'])
  else if Text.isDecimalDigit c then some digits
  else none

/-- What may follow a whole literal: a separator, or the next literal. -/
def next? (c : Char) : Option UnionState :=
  if c = ' ' then some (separator ['|', ' ']) else begin? c

/-- The state after one more character.

A second digit behind a point may also be the start of a new number, which can take a point of its
own: from there on the automaton stands in a number again. -/
def step : UnionState → Char → Option UnionState
  | start, c => begin? c
  | separated, c => begin? c
  | ended, c => next? c
  | quoted, c => some (if c = '\'' then ended else quoted)
  | word [], c => next? c
  | word [last], c => if c = last then some ended else none
  | word (head :: rest), c => if c = head then some (word rest) else none
  | separator [], c => begin? c
  | separator [last], c => if c = last then some separated else none
  | separator (head :: rest), c => if c = head then some (separator rest) else none
  | sign, c => if Text.isDecimalDigit c then some digits else none
  | digits, c => if c = '.' then some point else next? c
  | point, c => if Text.isDecimalDigit c then some fraction else none
  | fraction, c => if Text.isDecimalDigit c then some digits else next? c

/-- Whether the text may end here. -/
def accepts : UnionState → Bool
  | separated | ended | digits | fraction => true
  | _ => false

/-- Whether a text read from here on is a union. -/
def run : UnionState → List Char → Bool
  | state, [] => state.accepts
  | state, c :: rest =>
    match state.step c with
    | some next => run next rest
    | none => false

end UnionState

/-- The basic types. -/
def basicTypes : List String := ["string", "number", "boolean", "any", "File"]

/-- Whether a printed type is a basic one or a union of literals. -/
def isScalar (type : String) : Bool :=
  let text := Text.dropFinalNewline type.toList
  basicTypes.contains (String.ofList text) || UnionState.start.run text

end ApiClient.TypeScript
