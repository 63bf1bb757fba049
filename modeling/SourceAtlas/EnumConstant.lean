import SourceAtlas.Dialect
import SourceAtlas.Line
import SourceAtlas.Text.Digit

/-!
# Enumeration constants

The constants of an enumeration are read line by line and reported as `Name` or `Name = 5`.
-/

namespace SourceAtlas

def isHexDigit (c : Char) : Bool :=
  c.isDigit || ('a' ≤ c && c ≤ 'f') || ('A' ≤ c && c ≤ 'F')

/-- The unsigned number at the start of a text: hexadecimal after `0x`, else decimal. -/
def unsignedNumber? (text : Text) : Option Text :=
  let decimal := text.takeWhile isDecimalDigit
  let plain := if decimal.isEmpty then none else some decimal
  match text with
  | '0' :: x :: rest =>
    let digits := rest.takeWhile isHexDigit
    if (x = 'x' || x = 'X') && !digits.isEmpty then some ('0' :: x :: digits) else plain
  | _ => plain

def integerLiteral? : Text → Option Text
  | '-' :: rest => (unsignedNumber? rest).map ('-' :: ·)
  | text => unsignedNumber? text

/-- Reads one constant: an identifier and an optional integer value. -/
def enumConstant? (part : Text) : Option Text :=
  match part with
  | c :: _ =>
    if isNameStart c then
      let name := part.takeWhile isWord
      match trimLeft (part.drop name.length) with
      | '=' :: rest =>
        match integerLiteral? (trimLeft rest) with
        | some value => some (name ++ " = ".toList ++ value)
        | none => some name
      | _ => some name
    else none
  | [] => none

def lineConstants (dialect : Dialect) (raw : Text) : List Text :=
  let line := codeOf raw
  if line.isEmpty || dialect.isComment line then []
  else (splitOn ',' (dialect.peel line).2).filterMap fun part => enumConstant? (trim part)

def scanEnumValues (dialect : Dialect) (body : Text) : List Text :=
  (lines body).flatMap (lineConstants dialect)

end SourceAtlas
