import ApiClient.Text.Hex

/-!
# Reading UTF-8

A decoder that takes one byte at a time. A lead byte says how many bytes continue the character and
in which range the first of them lies; that range is what excludes overlong forms, surrogates and
code points past the last one. The first byte that cannot go on ends the reading, and the fault
names the bytes of the character it left unfinished.
-/

namespace ApiClient.Text

/-- Why bytes are not UTF-8. -/
inductive Utf8Fault.Reason where
  /-- A byte that begins no character. -/
  | startByte
  /-- A byte that does not continue the character begun. -/
  | continuationByte
  /-- The bytes end inside a character. -/
  | endOfData
  deriving DecidableEq

/-- Bytes that are not UTF-8: the offending ones begin at `position` with the byte `lead`. -/
structure Utf8Fault where
  reason : Utf8Fault.Reason
  position : Nat
  length : Nat
  lead : UInt8

/-- What a lead byte announces: its own bits, the count of further bytes, and the range of the
first. -/
structure Utf8Lead where
  bits : Nat
  missing : Nat
  low : Nat
  high : Nat

/-- The lead bytes of UTF-8 that are not ASCII. -/
def Utf8Lead.ofByte? (byte : UInt8) : Option Utf8Lead :=
  let code := byte.toNat
  if 0xC2 ≤ code ∧ code ≤ 0xDF then some ⟨code - 0xC0, 1, 0x80, 0xBF⟩
  else if code = 0xE0 then some ⟨0, 2, 0xA0, 0xBF⟩
  else if code = 0xED then some ⟨0xD, 2, 0x80, 0x9F⟩
  else if 0xE1 ≤ code ∧ code ≤ 0xEF then some ⟨code - 0xE0, 2, 0x80, 0xBF⟩
  else if code = 0xF0 then some ⟨0, 3, 0x90, 0xBF⟩
  else if 0xF1 ≤ code ∧ code ≤ 0xF3 then some ⟨code - 0xF0, 3, 0x80, 0xBF⟩
  else if code = 0xF4 then some ⟨4, 3, 0x80, 0x8F⟩
  else none

/-- Where a decoder stands: between characters, or `seen` bytes into one. -/
inductive Utf8State where
  | between
  | within (lead : UInt8) (seen : Nat) (progress : Utf8Lead)

/-- Decodes what follows; `position` counts the bytes taken and `done` holds their text,
reversed. -/
def decodeUtf8From (position : Nat) (done : List Char) :
    Utf8State → List UInt8 → Except Utf8Fault (List Char)
  | .between, [] => .ok done.reverse
  | .within lead seen _, [] => .error ⟨.endOfData, position - seen, seen, lead⟩
  | .between, byte :: rest =>
    if byte.toNat < 0x80 then
      decodeUtf8From (position + 1) (Char.ofNat byte.toNat :: done) .between rest
    else match Utf8Lead.ofByte? byte with
      | none => .error ⟨.startByte, position, 1, byte⟩
      | some announced => decodeUtf8From (position + 1) done (.within byte 1 announced) rest
  | .within lead seen progress, byte :: rest =>
    if progress.low ≤ byte.toNat ∧ byte.toNat ≤ progress.high then
      let bits := progress.bits * 64 + (byte.toNat - 0x80)
      if progress.missing ≤ 1 then
        decodeUtf8From (position + 1) (Char.ofNat bits :: done) .between rest
      else
        decodeUtf8From (position + 1) done
          (.within lead (seen + 1) ⟨bits, progress.missing - 1, 0x80, 0xBF⟩) rest
    else .error ⟨.continuationByte, position - seen, seen, lead⟩

/-- The text that bytes spell in UTF-8. -/
def decodeUtf8 (bytes : List UInt8) : Except Utf8Fault (List Char) :=
  decodeUtf8From 0 [] .between bytes

/-- How the reason is worded. -/
def Utf8Fault.Reason.message : Utf8Fault.Reason → String
  | .startByte => "invalid start byte"
  | .continuationByte => "invalid continuation byte"
  | .endOfData => "unexpected end of data"

/-- How the fault is reported: one byte is shown, several are given by their positions. -/
def Utf8Fault.message (fault : Utf8Fault) : String :=
  let span :=
    if fault.length = 1 then
      "byte 0x" ++ String.ofList (hex 2 fault.lead.toNat) ++ " in position " ++
        toString fault.position
    else
      "bytes in position " ++ toString fault.position ++ "-" ++
        toString (fault.position + fault.length - 1)
  "'utf-8' codec can't decode " ++ span ++ ": " ++ fault.reason.message

end ApiClient.Text
