import SourceAtlas.Text.Basic
import SourceAtlas.Text.Digit

/-!
# Integers in text

An integer may have blanks around it, a sign, digits of any script and single underscores between
digits. There is a limit to the number of its digits, in reading and in writing.
-/

namespace SourceAtlas

/-- The number a run of digits stands for. `value` is the number so far and `afterDigit` says
whether an underscore may come next. -/
def digitsFrom? (value : Nat) (afterDigit : Bool) : Text → Option Nat
  | [] => if afterDigit then some value else none
  | c :: rest =>
    if c = '_' then if afterDigit then digitsFrom? value false rest else none
    else (digitValue? c).bind fun digit => digitsFrom? (value * 10 + digit) true rest

/-- Blanks around a number: of those below U+0080 only the space and U+0009 to U+000D. -/
def isNumberBlank (c : Char) : Bool :=
  c == ' ' || (9 ≤ c.toNat && c.toNat ≤ 13) || (0x80 ≤ c.toNat && isBlank c)

def digitLimit : Nat :=
  4300

/-- The number of a run of digits that is not too long. -/
def unsignedInt? (digits : Text) : Option Nat :=
  if digitLimit < digits.countP (· != '_') then none else digitsFrom? 0 false digits

def parseInt? (text : Text) : Option Int :=
  match dropEndWhile isNumberBlank (text.dropWhile isNumberBlank) with
  | '-' :: digits => (unsignedInt? digits).map fun n => -Int.ofNat n
  | '+' :: digits => (unsignedInt? digits).map Int.ofNat
  | digits => (unsignedInt? digits).map Int.ofNat

end SourceAtlas
