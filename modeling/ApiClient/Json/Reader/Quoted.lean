import ApiClient.Json.Reader.Basic
import ApiClient.Text.Hex

/-!
# Reading quoted texts

The characters between double quotes, with their escapes. A character beyond the basic plane may be
written as two unit escapes, which are joined once the whole text is read.
-/

namespace ApiClient.Json

/-- Where a reader stands inside a quoted text; `mark` is the text from the escape it is in. -/
inductive Quoted where
  | plain
  | escape (mark : List Char)
  | unit (mark : List Char) (digits value : Nat)

/-- The escapes of one character. -/
def simpleEscape? (c : Char) : Option Nat :=
  if c = '"' ∨ c = '\\' ∨ c = '/' then some c.toNat
  else if c = 'b' then some 8
  else if c = 'f' then some 12
  else if c = 'n' then some 10
  else if c = 'r' then some 13
  else if c = 't' then some 9
  else none

/--
Reads the codes of a text up to its closing quote. `opening` is the text from the opening quote and
`done` the codes so far, reversed. A unit escape must not be the very last thing in the text.
-/
def readCodes (opening : List Char) (done : List Nat) :
    Quoted → List Char → Except Stuck (List Nat × List Char)
  | .plain, [] => .error ⟨.unterminatedText, opening⟩
  | .escape _, [] => .error ⟨.unterminatedText, opening⟩
  | .unit mark _ _, [] => .error ⟨.unitEscape, mark⟩
  | .plain, c :: rest =>
    if c = '"' then .ok (done.reverse, rest)
    else if c = '\\' then readCodes opening done (.escape (c :: rest)) rest
    else if c.toNat < 32 then .error ⟨.controlCharacter, c :: rest⟩
    else readCodes opening (c.toNat :: done) .plain rest
  | .escape mark, c :: rest =>
    if c = 'u' then readCodes opening done (.unit (c :: rest) 0 0) rest
    else match simpleEscape? c with
      | some code => readCodes opening (code :: done) .plain rest
      | none => .error ⟨.escape, mark⟩
  | .unit mark digits value, c :: rest =>
    match Text.hexValue? c with
    | none => .error ⟨.unitEscape, mark⟩
    | some digit =>
      if digits < 3 then readCodes opening done (.unit mark (digits + 1) (value * 16 + digit)) rest
      else if rest.isEmpty then .error ⟨.unitEscape, mark⟩
      else readCodes opening ((value * 16 + digit) :: done) .plain rest

theorem length_of_readCodes {opening : List Char} {done : List Nat} {state : Quoted}
    {text : List Char} {read : List Nat × List Char}
    (h : readCodes opening done state text = .ok read) : read.2.length < text.length := by
  induction text generalizing done state with
  | nil => cases state <;> simp [readCodes] at h
  | cons c rest ih =>
    have step {done : List Nat} {state : Quoted}
        (h : readCodes opening done state rest = .ok read) : read.2.length < (c :: rest).length :=
      Nat.lt_succ_of_lt (ih h)
    cases state with
    | plain =>
      simp only [readCodes] at h
      split at h
      · obtain rfl := Except.ok.inj h
        exact Nat.lt_succ_self _
      · split at h
        · exact step h
        · split at h
          · simp at h
          · exact step h
    | escape mark =>
      simp only [readCodes] at h
      split at h
      · exact step h
      · split at h
        · exact step h
        · simp at h
    | unit mark digits value =>
      simp only [readCodes] at h
      split at h
      · simp at h
      · split at h
        · exact step h
        · split at h
          · simp at h
          · exact step h

/-- Joins the halves of characters that were written as two units. A half that stands alone is
read as U+FFFD: the texts of a document are made of whole characters, while a reader of JSON
may keep such a half as it is. -/
def joinUnits : List Nat → List Char
  | [] => []
  | high :: low :: rest =>
    if 0xD800 ≤ high ∧ high < 0xDC00 ∧ 0xDC00 ≤ low ∧ low < 0xE000 then
      Char.ofNat (0x10000 + (high - 0xD800) * 0x400 + (low - 0xDC00)) :: joinUnits rest
    else if 0xD800 ≤ high ∧ high < 0xE000 then '\uFFFD' :: joinUnits (low :: rest)
    else Char.ofNat high :: joinUnits (low :: rest)
  | [code] => [if 0xD800 ≤ code ∧ code < 0xE000 then '\uFFFD' else Char.ofNat code]

/-- Reads a quoted text from its opening quote. -/
def readText (text : List Char) (complaint : Complaint) : Except Stuck (Reading String text) :=
  match text with
  | '"' :: rest =>
    match h : readCodes ('"' :: rest) [] .plain rest with
    | .ok (codes, after) =>
      .ok ⟨String.ofList (joinUnits codes), after, Nat.lt_succ_of_lt (length_of_readCodes h)⟩
    | .error stuck => .error stuck
  | _ => .error ⟨complaint, text⟩

end ApiClient.Json
