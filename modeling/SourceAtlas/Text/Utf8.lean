import SourceAtlas.Text.Quoted

/-!
# UTF-8

Bytes are read as UTF-8 with every ill-formed piece replaced, or refused at the first one. A piece
is the longest front of a sequence that could still have gone on.
-/

namespace SourceAtlas

/-- The content of a file. -/
abbrev Bytes := List UInt8

namespace Utf8

/-- Why a piece of bytes is no character. -/
inductive Reason where
  | invalidStart
  | invalidContinuation
  | unexpectedEnd
  deriving DecidableEq, Repr

def Reason.text : Reason → Text
  | .invalidStart => "invalid start byte".toList
  | .invalidContinuation => "invalid continuation byte".toList
  | .unexpectedEnd => "unexpected end of data".toList

/-- An ill-formed piece: its first byte, offset, length and what is wrong with it. -/
structure Fault where
  byte : UInt8
  start : Nat
  length : Nat
  reason : Reason
  deriving DecidableEq, Repr

def Fault.message (fault : Fault) : Text :=
  let place :=
    if fault.length = 1 then
      "byte 0x".toList ++ hexDigits 2 fault.byte.toNat ++ " in position ".toList ++
        natText fault.start
    else
      "bytes in position ".toList ++ natText fault.start ++ "-".toList ++
        natText (fault.start + fault.length - 1)
  "'utf-8' codec can't decode ".toList ++ place ++ ": ".toList ++ fault.reason.text

/-- One step of decoding: a character or an ill-formed piece, and how many bytes it takes. -/
inductive Step where
  | char (c : Char) (length : Nat)
  | bad (reason : Reason) (length : Nat)

def secondRange (first : UInt8) : UInt8 × UInt8 :=
  if first = 0xE0 then (0xA0, 0xBF)
  else if first = 0xED then (0x80, 0x9F)
  else if first = 0xF0 then (0x90, 0xBF)
  else if first = 0xF4 then (0x80, 0x8F)
  else (0x80, 0xBF)

def followers? (first : UInt8) : Option Nat :=
  if first < 0x80 then some 0
  else if first < 0xC2 then none
  else if first < 0xE0 then some 1
  else if first < 0xF0 then some 2
  else if first < 0xF5 then some 3
  else none

def leadBits (first : UInt8) : Nat :=
  if first < 0x80 then first.toNat
  else if first < 0xE0 then first.toNat % 32
  else if first < 0xF0 then first.toNat % 16
  else first.toNat % 8

/-- Reads the bytes that must follow. `done` bytes of the sequence were read, `value` is the
character so far, and the next byte has to lie between `low` and `high`. -/
def readTail (value done : Nat) (low high : UInt8) : Nat → Bytes → Step
  | 0, _ => .char (Char.ofNat value) done
  | _ + 1, [] => .bad .unexpectedEnd done
  | owed + 1, b :: rest =>
    if low ≤ b && b ≤ high then
      readTail (value * 64 + b.toNat % 64) (done + 1) 0x80 0xBF owed rest
    else .bad .invalidContinuation done

def readChar (first : UInt8) (rest : Bytes) : Step :=
  match followers? first with
  | none => .bad .invalidStart 1
  | some owed =>
    readTail (leadBits first) 1 (secondRange first).1 (secondRange first).2 owed rest

/-- Decodes bytes with every ill-formed piece replaced by U+FFFD. `skip` bytes of a character are
still to be passed over. -/
def repairFrom (skip : Nat) : Bytes → Text
  | [] => []
  | first :: rest =>
    if 0 < skip then repairFrom (skip - 1) rest
    else
      match readChar first rest with
      | .char c length => c :: repairFrom (length - 1) rest
      | .bad _ length => Char.ofNat 0xFFFD :: repairFrom (length - 1) rest

def decodeFrom (skip index : Nat) : Bytes → Except Fault Text
  | [] => .ok []
  | first :: rest =>
    if 0 < skip then decodeFrom (skip - 1) (index + 1) rest
    else
      match readChar first rest with
      | .char c length => (decodeFrom (length - 1) (index + 1) rest).map (c :: ·)
      | .bad reason length => .error ⟨first, index, length, reason⟩

/-- The text of a file, ill-formed pieces replaced and line breaks unified. -/
def repair (bytes : Bytes) : Text :=
  unifyBreaks (repairFrom 0 bytes)

/-- The text of a file with line breaks unified, if it is well formed. -/
def decode (bytes : Bytes) : Except Fault Text :=
  (decodeFrom 0 0 bytes).map unifyBreaks

def encode (text : Text) : Bytes :=
  text.flatMap String.utf8EncodeChar

end Utf8

end SourceAtlas
