import SourceAtlas.Document.Json

/-!
# YAML scalars

A plain scalar is a number, a truth value, nothing, a date or else a text. Quoted scalars are always
texts. Line breaks inside a scalar are folded.
-/

namespace SourceAtlas.Yaml

def truthWords : List (String × Bool) :=
  [("yes", true), ("no", false), ("true", true), ("false", false), ("on", true), ("off", false)]

/-- The three ways to write a word: in lower case, with a capital, in upper case. -/
def caseForms (word : String) : List Text :=
  let small := word.toList
  [small, upper (small.take 1) ++ small.drop 1, upper small]

def truth? (text : Text) : Option Bool :=
  (truthWords.find? fun (word, _) => (caseForms word).contains text).map (·.2)

def isNull (text : Text) : Bool :=
  text.isEmpty || text == ['~'] || (caseForms "null").contains text

def digitIn? (base : Nat) (c : Char) : Option Nat :=
  (Json.hexValue? c).filter (· < base)

/-- The number that digits stand for in some base; underscores are passed over. -/
def numberIn? (base : Nat) (text : Text) : Option Nat :=
  let digits := text.filter (· != '_')
  if digits.isEmpty then none
  else digits.foldlM (fun value c => (digitIn? base c).map fun digit => value * base + digit) 0

/-- Parts of sixty, such as minutes: one or two digits, the first at most five. -/
def isSixtieth (text : Text) : Bool :=
  match text with
  | [a] => a.isDigit
  | [a, b] => '0' ≤ a && a ≤ '5' && b.isDigit
  | _ => false

def sixtiethsValue (parts : List Text) : Nat :=
  parts.foldl (fun value part => value * 60 + (numberIn? 10 part).getD 0) 0

def isPositive (text : Text) : Bool :=
  match text with
  | [] => false
  | c :: rest => '1' ≤ c && c ≤ '9' && rest.all fun d => d.isDigit || d == '_'

/-- Reads a natural number: decimal, binary, octal, hexadecimal or in parts of sixty. -/
def natural? (text : Text) : Option Nat :=
  match text with
  | ['0'] => some 0
  | '0' :: 'b' :: rest => if rest.isEmpty then none else numberIn? 2 rest
  | '0' :: 'x' :: rest => if rest.isEmpty then none else numberIn? 16 rest
  | '0' :: rest => if rest.all (· == '_') then some 0 else numberIn? 8 rest
  | _ =>
    match splitOn ':' text with
    | [whole] => if isPositive whole then numberIn? 10 whole else none
    | whole :: rest =>
      if isPositive whole && rest.all isSixtieth then
        some (sixtiethsValue (whole.filter (· != '_') :: rest))
      else none
    | [] => none

def splitSign (text : Text) : Bool × Text :=
  match text with
  | '-' :: rest => (true, rest)
  | '+' :: rest => (false, rest)
  | _ => (false, text)

def integer? (text : Text) : Option Int :=
  let (negative, digits) := splitSign text
  (natural? digits).map fun n => if negative then -Int.ofNat n else Int.ofNat n

/-- The exponent at the end of a number: nothing, or an `e`, a sign and digits. -/
def exponent? (text : Text) : Option Int :=
  match text with
  | [] => some 0
  | e :: sign :: digits =>
    if (e = 'e' || e = 'E') && (sign = '-' || sign = '+') && !digits.isEmpty &&
        digits.all Char.isDigit then
      let value := Int.ofNat (Json.decimalValue digits)
      some (if sign = '-' then -value else value)
    else none
  | _ => none

/-- Reads what follows the sign of a number with a point. Without a sign there need not be digits
before the point. -/
def pointed? (signed negative : Bool) (text : Text) : Option Binary64 :=
  let isPart := fun (c : Char) => c.isDigit || c == '_'
  let whole := text.takeWhile isPart
  match text.dropWhile isPart with
  | '.' :: rest =>
    let fraction := rest.takeWhile isPart
    let wellFormed := match whole, fraction with
      | [], [] => false
      | [], d :: _ => !signed && d.isDigit
      | d :: _, _ => d.isDigit
    if wellFormed then
      (exponent? (rest.dropWhile isPart)).map fun exponent =>
        let places := fraction.filter (· != '_')
        Binary64.ofDecimal negative (Json.decimalValue (whole.filter (· != '_') ++ places))
          (exponent - Int.ofNat places.length)
    else none
  | _ => none

def real? (text : Text) : Option Binary64 :=
  let (negative, body) := splitSign text
  if (caseForms "inf").any fun word => body == '.' :: word then some (.infinite negative)
  else if [".nan", ".NaN", ".NAN"].any fun word => text == word.toList then some .notANumber
  else pointed? (text != body) negative body

/-- Whether a scalar is a date: four, two and two digits with dashes between them. -/
def isDate (text : Text) : Bool :=
  match splitOn '-' text with
  | [year, month, day] =>
    year.length == 4 && month.length == 2 && day.length == 2 &&
      (year ++ month ++ day).all Char.isDigit
  | _ => false

def resolve (text : Text) : Document :=
  if isNull text then .null
  else
    match truth? text, real? text, integer? text with
    | some value, _, _ => .bool value
    | none, some value, _ => .real value
    | none, none, some value => .int value
    | none, none, none => if isDate text then .moment text else .text text

def keyText? : Document → Option Text
  | .null => some "None".toList
  | .moment value => some value
  | value => value.scalarText?

/-- What line breaks inside a scalar become: a blank for one, else one break less. -/
def foldBreaks (breaks : Nat) : Text :=
  if breaks ≤ 1 then [' '] else List.replicate (breaks - 1) '\n'

/-- Passes over blanks and line breaks. Gives the number of breaks and what follows. -/
def skipBreaks (text : Text) : Nat × Text :=
  let gap := text.takeWhile fun c => c == ' ' || c == '\t' || c == '\n'
  (gap.count '\n', text.drop gap.length)

/-- Blanks inside a quoted scalar: kept, or folded when there are line breaks among them. -/
def foldGap (gap : Text) : Text :=
  let breaks := gap.count '\n'
  if breaks = 0 then gap else foldBreaks breaks

def isInnerBlank (c : Char) : Bool :=
  c == ' ' || c == '\t' || c == '\n'

/-- Reads a single-quoted scalar after its opening quote. `gap` holds the blanks just read, last one
first. Gives the text and what follows the closing quote. -/
def singleQuoted? (gap : Text) : Text → Option (Text × Text)
  | [] => none
  | '\x27' :: '\x27' :: rest =>
    (singleQuoted? [] rest).map fun (text, after) =>
      (foldGap gap.reverse ++ '\x27' :: text, after)
  | c :: rest =>
    if c = '\x27' then some (foldGap gap.reverse, rest)
    else if isInnerBlank c then singleQuoted? (c :: gap) rest
    else (singleQuoted? [] rest).map fun (text, after) => (foldGap gap.reverse ++ c :: text, after)

def escapes : List (Char × Nat) :=
  [('0', 0), ('a', 7), ('b', 8), ('t', 9), ('\t', 9), ('n', 10), ('v', 11), ('f', 12), ('r', 13),
    ('e', 27), (' ', 32), ('\x22', 34), ('\\', 92), ('/', 47), ('N', 0x85), ('_', 0xA0),
    ('L', 0x2028), ('P', 0x2029)]

/-- The number of digits of an escape that gives a character's code. -/
def codeDigits? : Char → Option Nat
  | 'x' => some 2
  | 'u' => some 4
  | 'U' => some 8
  | _ => none

/-- Reads what follows a backslash. Gives the text it stands for and the number of characters read. -/
def escape? (text : Text) : Option (Text × Nat) :=
  match text with
  | [] => none
  | c :: rest =>
    match escapes.lookup c, codeDigits? c with
    | some code, _ => some ([Char.ofNat code], 1)
    | none, some count =>
      let digits := rest.take count
      if digits.length = count && digits.all fun d => (Json.hexValue? d).isSome then
        (numberIn? 16 digits).map fun code => ([Json.unitChar code], count + 1)
      else none
    | none, none =>
      if c = '\n' then
        let (breaks, after) := skipBreaks rest
        some (List.replicate breaks '\n', 1 + (rest.length - after.length))
      else none

/-- Reads a double-quoted scalar after its opening quote. `gap` holds the blanks just read, last one
first, and `skip` characters of an escape are still to be passed over. -/
def doubleQuoted? (gap : Text) (skip : Nat) : Text → Option (Text × Text)
  | [] => none
  | c :: rest =>
    if 0 < skip then doubleQuoted? gap (skip - 1) rest
    else if c = '\x22' then some (foldGap gap.reverse, rest)
    else if c = '\\' then
      match escape? rest with
      | none => none
      | some (value, used) =>
        (doubleQuoted? [] used rest).map fun (text, after) =>
          (foldGap gap.reverse ++ value ++ text, after)
    else if isInnerBlank c then doubleQuoted? (c :: gap) 0 rest
    else
      (doubleQuoted? [] 0 rest).map fun (text, after) => (foldGap gap.reverse ++ c :: text, after)

def startsPlain (inFlow : Bool) (text : Text) : Bool :=
  match text with
  | [] => false
  | c :: rest =>
    let beforeBlank := match rest with
      | [] => true
      | d :: _ => isInnerBlank d
    !isInnerBlank c &&
      (!"-?:,[]\x7b\x7d#&*!|>'\"%@\x60".toList.contains c ||
        (!beforeBlank && (c == '-' || (!inFlow && (c == '?' || c == ':')))))

def endsPlain (inFlow : Bool) (text : Text) : Bool :=
  match text with
  | [] => true
  | c :: rest =>
    let endsKey := match rest with
      | [] => true
      | d :: _ => isInnerBlank d || (inFlow && ",[]\x7b\x7d".toList.contains d)
    isInnerBlank c || (c == ':' && endsKey) ||
      (inFlow && ",?[]\x7b\x7d".toList.contains c)

/-- Reads a word of a plain scalar. Gives the word and what follows. -/
def plainWord (inFlow : Bool) : Text → Text × Text
  | [] => ([], [])
  | c :: rest =>
    if endsPlain inFlow (c :: rest) then ([], c :: rest)
    else
      let (word, after) := plainWord inFlow rest
      (c :: word, after)

/-- The gap after a word of a plain scalar: blanks, line breaks and the blanks that indent the next
line. Gives what the gap folds to, the indentation of a next line, and what follows. -/
def plainGap (text : Text) : Text × Option Nat × Text :=
  let blanks := text.takeWhile (· == ' ')
  let after := text.drop blanks.length
  if after.head? == some '\n' then
    let gap := after.takeWhile fun c => c == ' ' || c == '\n'
    (foldBreaks (gap.count '\n'), some (gap.reverse.takeWhile (· == ' ')).length,
      after.drop gap.length)
  else (blanks, none, after)

/-- Reads a plain scalar word by word; the words of a next line have to be indented by `floor` or
more. Gives the text and what follows its last word. -/
def plainScalar (inFlow : Bool) (floor : Nat) (text : Text) : Text × Text :=
  let (word, after) := plainWord inFlow text
  let (gap, indent, next) := plainGap after
  if next.length < text.length then
    let stops := word.isEmpty || gap.isEmpty || next.head? == some '#' ||
      endsPlain inFlow next || (!inFlow && indent.any (· < floor))
    if stops then (word, after)
    else
      let (more, rest) := plainScalar inFlow floor next
      (word ++ gap ++ more, rest)
  else (word, after)
termination_by text.length

end SourceAtlas.Yaml
