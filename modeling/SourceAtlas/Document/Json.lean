import SourceAtlas.Document.Basic

/-!
# JSON

A text is cut into tokens, and the tokens are put together with a stack of open lists and tables.
The first fault from the left is reported with its place. Lists and tables may be nested to any depth.
-/

namespace SourceAtlas.Json

/-- What is wrong with a text. -/
inductive Problem where
  | expectingValue
  | expectingName
  | expectingColon
  | expectingComma
  | extraData
  | unterminatedString
  | controlCharacter
  | invalidEscape
  | invalidUnicodeEscape
  | byteOrderMark
  deriving DecidableEq, Repr

def Problem.text : Problem → Text
  | .expectingValue => "Expecting value".toList
  | .expectingName => "Expecting property name enclosed in double quotes".toList
  | .expectingColon => "Expecting ':' delimiter".toList
  | .expectingComma => "Expecting ',' delimiter".toList
  | .extraData => "Extra data".toList
  | .unterminatedString => "Unterminated string starting at".toList
  | .controlCharacter => "Invalid control character at".toList
  | .invalidEscape => "Invalid \\escape".toList
  | .invalidUnicodeEscape => "Invalid \\uXXXX escape".toList
  | .byteOrderMark => "Unexpected UTF-8 BOM (decode using utf-8-sig)".toList

/-- A problem at an offset. -/
structure Fault where
  problem : Problem
  offset : Nat
  deriving DecidableEq, Repr

def Fault.message (fault : Fault) (text : Text) : Text :=
  let before := text.take fault.offset
  fault.problem.text ++ ": line ".toList ++ natText (before.count '\n' + 1) ++
    " column ".toList ++ natText ((afterLast '\n' before).length + 1) ++
    " (char ".toList ++ natText fault.offset ++ ")".toList

/-- Why a text gives no document: it is malformed, or it has an integer with too many digits. -/
inductive Rejection where
  | malformed (fault : Fault)
  | longNumber (digits : Nat)
  deriving DecidableEq, Repr

/-- A token. `strange` is a character that starts no token. -/
inductive TokenKind where
  | openList
  | closeList
  | openTable
  | closeTable
  | colon
  | comma
  | string (value : Text)
  | scalar (value : Document)
  | longNumber (digits : Nat)
  | broken (fault : Fault)
  | strange

/-- A token with its offset. -/
structure Token where
  kind : TokenKind
  offset : Nat

def isGap (c : Char) : Bool :=
  c == ' ' || c == '\t' || c == '\n' || c == '\r'

def hexValue? (c : Char) : Option Nat :=
  if c.isDigit then some (c.toNat - 48)
  else if 'a' ≤ c && c ≤ 'f' then some (c.toNat - 87)
  else if 'A' ≤ c && c ≤ 'F' then some (c.toNat - 55)
  else none

/-- The number that four hexadecimal digits at the start of a text stand for. -/
def hexFour? (text : Text) : Option Nat :=
  match text with
  | a :: b :: c :: d :: _ => do
    let a ← hexValue? a
    let b ← hexValue? b
    let c ← hexValue? c
    let d ← hexValue? d
    some (((a * 16 + b) * 16 + c) * 16 + d)
  | _ => none

/-- The character of a code unit. Half of a surrogate pair alone is no character and is replaced; a
report that shows it cannot be encoded, which is one of the ways in which a disk may stop. -/
def unitChar (code : Nat) : Char :=
  if 0xD800 ≤ code && code ≤ 0xDFFF then Char.ofNat 0xFFFD else Char.ofNat code

/-- Reads the digits of a `\u` escape. `index` is the offset of the `u` and `rest` the text after
it. Gives the character and how many characters were read after the `u`. -/
def unicodeEscape (index : Nat) (rest : Text) : Except Fault (Char × Nat) :=
  if rest.length < 5 then .error ⟨.invalidUnicodeEscape, index⟩
  else
    match hexFour? rest with
    | none => .error ⟨.invalidUnicodeEscape, index⟩
    | some code =>
      if 0xD800 ≤ code && code ≤ 0xDBFF && 11 ≤ rest.length then
        match rest.drop 4 with
        | '\\' :: 'u' :: more =>
          match hexFour? more with
          | none => .error ⟨.invalidUnicodeEscape, index + 6⟩
          | some low =>
            if 0xDC00 ≤ low && low ≤ 0xDFFF then
              .ok (Char.ofNat (0x10000 + (code - 0xD800) * 0x400 + (low - 0xDC00)), 10)
            else .ok (unitChar code, 4)
        | _ => .ok (unitChar code, 4)
      else .ok (unitChar code, 4)

/-- Reads an escape. `index` is the offset of the backslash and `rest` the text after it. Gives the
character and how many characters were read after the backslash. -/
def readEscape (start index : Nat) (rest : Text) : Except Fault (Char × Nat) :=
  match rest with
  | [] => .error ⟨.unterminatedString, start⟩
  | 'u' :: digits => (unicodeEscape (index + 1) digits).map fun (c, used) => (c, used + 1)
  | c :: _ =>
    if c = '\x22' || c = '\\' || c = '/' then .ok (c, 1)
    else if c = 'b' then .ok (Char.ofNat 8, 1)
    else if c = 'f' then .ok (Char.ofNat 12, 1)
    else if c = 'n' then .ok ('\n', 1)
    else if c = 'r' then .ok ('\r', 1)
    else if c = 't' then .ok ('\t', 1)
    else .error ⟨.invalidEscape, index⟩

/-- Reads a string after its opening quote at `start`. `skip` characters of an escape are still to be
passed over and `index` is the offset of the text at hand. Gives the string and the offset after
its closing quote. -/
def readString (start skip index : Nat) : Text → Except Fault (Text × Nat)
  | [] => .error ⟨.unterminatedString, start⟩
  | c :: rest =>
    if 0 < skip then readString start (skip - 1) (index + 1) rest
    else if c = '\x22' then .ok ([], index + 1)
    else if c = '\\' then
      match readEscape start index rest with
      | .error fault => .error fault
      | .ok (d, used) =>
        (readString start used (index + 1) rest).map fun (text, stop) => (d :: text, stop)
    else if c.toNat < 0x20 then .error ⟨.controlCharacter, index⟩
    else (readString start 0 (index + 1) rest).map fun (text, stop) => (c :: text, stop)

def decimalValue (digits : Text) : Nat :=
  digits.foldl (fun value c => value * 10 + (c.toNat - 48)) 0

def fractionDigits (text : Text) : Text :=
  match text with
  | '.' :: rest => rest.takeWhile Char.isDigit
  | _ => []

/-- The exponent after an `e`, with the number of characters it takes. -/
def exponentPart? (text : Text) : Option (Int × Nat) :=
  match text with
  | e :: rest =>
    if e = 'e' || e = 'E' then
      let (negative, signed, digits) := match rest with
        | '-' :: digits => (true, 1, digits)
        | '+' :: digits => (false, 1, digits)
        | digits => (false, 0, digits)
      let digits := digits.takeWhile Char.isDigit
      if digits.isEmpty then none
      else
        let value := Int.ofNat (decimalValue digits)
        some (if negative then -value else value, 1 + signed + digits.length)
    else none
  | [] => none

/-- Reads an unsigned number. Gives its token and the number of characters it takes. -/
def unsigned? (negative : Bool) (text : Text) : Option (TokenKind × Nat) :=
  let whole := match text with
    | '0' :: _ => ['0']
    | _ => text.takeWhile Char.isDigit
  if whole.isEmpty then none
  else
    let afterWhole := text.drop whole.length
    let fraction := fractionDigits afterWhole
    let pointLength := if fraction.isEmpty then 0 else fraction.length + 1
    let exponent := exponentPart? (afterWhole.drop pointLength)
    let length := whole.length + pointLength + (exponent.map (·.2)).getD 0
    if fraction.isEmpty && exponent.isNone then
      let value := Int.ofNat (decimalValue whole)
      some (if digitLimit < whole.length then .longNumber whole.length
        else .scalar (.int (if negative then -value else value)), length)
    else
      some (.scalar (.real (Binary64.ofDecimal negative (decimalValue (whole ++ fraction))
        ((exponent.map (·.1)).getD 0 - Int.ofNat fraction.length))), length)

def literals : List (Text × Document) :=
  [("null".toList, .null), ("true".toList, .bool true), ("false".toList, .bool false),
    ("NaN".toList, .real .notANumber), ("Infinity".toList, .real (.infinite false)),
    ("-Infinity".toList, .real (.infinite true))]

/-- Reads a literal or a number. Gives its token and the number of characters it takes. -/
def scalar? (text : Text) : Option (TokenKind × Nat) :=
  match literals.find? (fun literal => startsWith literal.1 text) with
  | some (word, value) => some (.scalar value, word.length)
  | none =>
    match text with
    | '-' :: rest => (unsigned? true rest).map fun (kind, length) => (kind, length + 1)
    | _ => unsigned? false text

def punctuation? : Char → Option TokenKind
  | '[' => some .openList
  | ']' => some .closeList
  | '{' => some .openTable
  | '}' => some .closeTable
  | ':' => some .colon
  | ',' => some .comma
  | _ => none

/-- The tokens of a text up to the first broken or strange one. `skip` characters of a token are
still to be passed over. -/
def tokensFrom (skip index : Nat) : Text → List Token
  | [] => []
  | c :: rest =>
    if 0 < skip then tokensFrom (skip - 1) (index + 1) rest
    else if isGap c then tokensFrom 0 (index + 1) rest
    else
      match punctuation? c with
      | some kind => ⟨kind, index⟩ :: tokensFrom 0 (index + 1) rest
      | none =>
        if c = '\x22' then
          match readString index 0 (index + 1) rest with
          | .error fault => [⟨.broken fault, index⟩]
          | .ok (value, stop) =>
            ⟨.string value, index⟩ :: tokensFrom (stop - index - 1) (index + 1) rest
        else
          match scalar? (c :: rest) with
          | some (kind, length) =>
            ⟨kind, index⟩ :: tokensFrom (length - 1) (index + 1) rest
          | none => [⟨.strange, index⟩]

/-- A list or table that is still open: its items, last one first, or its entries and the key whose
value comes next. -/
inductive Frame where
  | list (items : List Document)
  | table (entries : Entries Text Document) (key : Text)

/-- What may come next. -/
inductive Mode where
  | value
  | firstItem
  | firstName
  | name
  | colon
  | next

def Mode.problem (mode : Mode) (isNested : Bool) : Problem :=
  match mode with
  | .value => .expectingValue
  | .firstItem => .expectingValue
  | .firstName => .expectingName
  | .name => .expectingName
  | .colon => .expectingColon
  | .next => if isNested then .expectingComma else .extraData

/-- The open lists and tables with a finished value on top, or the whole document. -/
structure State where
  stack : List Frame
  mode : Mode
  result : Option Document

def State.finish (stack : List Frame) (value : Document) : State :=
  match stack with
  | [] => ⟨[], .next, some value⟩
  | .list items :: rest => ⟨.list (value :: items) :: rest, .next, none⟩
  | .table entries key :: rest => ⟨.table (Entries.put key value entries) key :: rest, .next, none⟩

def State.takeValue? (stack : List Frame) (kind : TokenKind) : Option State :=
  match kind with
  | .openList => some ⟨.list [] :: stack, .firstItem, none⟩
  | .openTable => some ⟨.table [] [] :: stack, .firstName, none⟩
  | .string value => some (State.finish stack (.text value))
  | .scalar value => some (State.finish stack value)
  | _ => none

def State.take? (state : State) (kind : TokenKind) : Option State :=
  match state.mode, kind, state.stack with
  | .value, kind, stack => State.takeValue? stack kind
  | .firstItem, .closeList, .list items :: rest => some (State.finish rest (.list items.reverse))
  | .firstItem, kind, stack => State.takeValue? stack kind
  | .firstName, .closeTable, .table entries _ :: rest => some (State.finish rest (.table entries))
  | .firstName, .string key, .table entries _ :: rest =>
    some ⟨.table entries key :: rest, .colon, none⟩
  | .name, .string key, .table entries _ :: rest => some ⟨.table entries key :: rest, .colon, none⟩
  | .colon, .colon, stack => some ⟨stack, .value, none⟩
  | .next, .comma, .list items :: rest => some ⟨.list items :: rest, .value, none⟩
  | .next, .comma, .table entries key :: rest => some ⟨.table entries key :: rest, .name, none⟩
  | .next, .closeList, .list items :: rest => some (State.finish rest (.list items.reverse))
  | .next, .closeTable, .table entries _ :: rest => some (State.finish rest (.table entries))
  | _, _, _ => none

/-- Whether a string may come next, so that a broken one is reported as such. -/
def Mode.takesString : Mode → Bool
  | .colon => false
  | .next => false
  | _ => true

def Mode.takesValue : Mode → Bool
  | .value => true
  | .firstItem => true
  | _ => false

/-- Puts tokens together. `stop` is the offset of the end of the text. -/
def assemble (stop : Nat) (state : State) : List Token → Except Rejection Document
  | [] =>
    match state.result with
    | some value => .ok value
    | none => .error (.malformed ⟨state.mode.problem !state.stack.isEmpty, stop⟩)
  | token :: rest =>
    match state.take? token.kind with
    | some next => assemble stop next rest
    | none =>
      match token.kind, state.mode.takesString, state.mode.takesValue with
      | .broken fault, true, _ => .error (.malformed fault)
      | .longNumber digits, _, true => .error (.longNumber digits)
      | _, _, _ => .error (.malformed ⟨state.mode.problem !state.stack.isEmpty, token.offset⟩)

def parse (text : Text) : Except Rejection Document :=
  if text.head? == some (Char.ofNat 0xFEFF) then .error (.malformed ⟨.byteOrderMark, 0⟩)
  else assemble text.length ⟨[], .value, none⟩ (tokensFrom 0 0 text)

end SourceAtlas.Json
