import SourceAtlas.Text.Basic

/-!
# Binary floating-point numbers in decimal

A number is kept as a mantissa below 2^53 times a power of two. A decimal is rounded to the nearest
such number, half to even, and a number is written with the fewest digits that are read back as it.
-/

namespace SourceAtlas

/-- A double-precision number. -/
inductive Binary64 where
  | finite (negative : Bool) (mantissa : Nat) (power : Int)
  | infinite (negative : Bool)
  | notANumber
  deriving DecidableEq, Repr

namespace Binary64

/-- A quotient rounded to the nearest natural number, half to even. -/
def roundDiv (num den : Nat) : Nat :=
  let low := num / den
  let twice := 2 * (num % den)
  if den < twice || (twice == den && low % 2 == 1) then low + 1 else low

/-- The mantissa of `num / den` at a power of two. -/
def mantissaAt (num den : Nat) (power : Int) : Nat :=
  roundDiv (num * Nat.pow 2 (-power).toNat) (den * Nat.pow 2 power.toNat)

/-- The number nearest to `num / den`. -/
def ofRatio (negative : Bool) (num den : Nat) : Binary64 :=
  let guess := max (-1074) (Int.ofNat num.log2 - Int.ofNat den.log2 - 53)
  let power := if mantissaAt num den guess < Nat.pow 2 53 then guess else guess + 1
  let mantissa := mantissaAt num den power
  let (mantissa, power) := if mantissa < Nat.pow 2 53 then (mantissa, power)
    else (mantissa / 2, power + 1)
  if power ≤ 971 then .finite negative mantissa power else .infinite negative

/-- The number nearest to `digits * 10 ^ exponent`. Numbers far outside the range are not computed
out. -/
def ofDecimal (negative : Bool) (digits : Nat) (exponent : Int) : Binary64 :=
  let size := Int.ofNat (natText digits).length + exponent
  if digits = 0 || size < -400 then .finite negative 0 0
  else if 400 < size then .infinite negative
  else ofRatio negative (digits * Nat.pow 10 exponent.toNat)
    (Nat.pow 10 (-exponent).toNat)

/-- A number as numerator and denominator, with the half gaps to its neighbours in the same unit. -/
structure Interval where
  value : Nat
  below : Nat
  above : Nat
  unit : Nat
  closed : Bool

/-- The decimals that are read back as `mantissa * 2 ^ power`. -/
def interval (mantissa : Nat) (power : Int) : Interval :=
  let scale := Nat.pow 2 power.toNat
  { value := 4 * mantissa * scale
    below := if mantissa = Nat.pow 2 52 && -1074 < power then scale else 2 * scale
    above := 2 * scale
    unit := 4 * Nat.pow 2 (-power).toNat
    closed := mantissa % 2 == 0 }

/-- Whether `candidate` units of `step` are read back as the number, everything scaled alike. -/
def Interval.holds (i : Interval) (scale step candidate : Nat) : Bool :=
  let low := (i.value - i.below) * scale
  let high := (i.value + i.above) * scale
  let point := candidate * step
  if i.closed then low ≤ point && point ≤ high else low < point && point < high

/-- The decimal on the grid of `10 ^ exponent` that is read back and lies nearest. -/
def Interval.onGrid? (i : Interval) (exponent : Int) : Option Nat :=
  let scale := Nat.pow 10 (-exponent).toNat
  let step := i.unit * Nat.pow 10 exponent.toNat
  let value := i.value * scale
  let low := value / step
  let candidates := if 2 * (value % step) < step || (2 * (value % step) == step && low % 2 == 0)
    then [low, low + 1] else [low + 1, low]
  candidates.find? (i.holds scale step)

/-- The first decimal found on finer and finer grids, from `exponent` down; at most `fuel` grids. -/
def Interval.shortest (i : Interval) : Nat → Int → Nat × Int
  | 0, exponent => (0, exponent)
  | fuel + 1, exponent =>
    match i.onGrid? exponent with
    | some digits => (digits, exponent)
    | none => i.shortest fuel (exponent - 1)

def dropZeros : Text → Int → Text × Int
  | '0' :: rest, exponent => dropZeros rest (exponent + 1)
  | reversed, exponent => (reversed.reverse, exponent)

/-- The shortest digits of `mantissa * 2 ^ power` and the power of ten of their last one. -/
def shortestDigits (mantissa : Nat) (power : Int) : Text × Int :=
  let i := interval mantissa power
  let top := Int.ofNat (natText (i.value * Nat.pow 10 330 / i.unit)).length - 331
  let (digits, exponent) := i.shortest 20 top
  dropZeros (natText digits).reverse exponent

/-- The text of digits with an exponent: positional for decimal exponents from -4 to 15, else with
a signed exponent of at least two digits. -/
def layOut (digits : Text) (exponent : Int) : Text :=
  let point := Int.ofNat digits.length + exponent
  if -4 < point && point ≤ 16 then
    if point ≤ 0 then "0.".toList ++ List.replicate (-point).toNat '0' ++ digits
    else if Int.ofNat digits.length ≤ point then
      digits ++ List.replicate (point.toNat - digits.length) '0' ++ ".0".toList
    else digits.take point.toNat ++ '.' :: digits.drop point.toNat
  else
    let power := point - 1
    let shown := natText power.natAbs
    digits.take 1 ++ (if digits.length = 1 then [] else '.' :: digits.drop 1) ++
      (if power < 0 then "e-".toList else "e+".toList) ++
      (if shown.length = 1 then '0' :: shown else shown)

def text : Binary64 → Text
  | .notANumber => "nan".toList
  | .infinite negative => if negative then "-inf".toList else "inf".toList
  | .finite negative mantissa power =>
    let body := if mantissa = 0 then "0.0".toList
      else
        let (digits, exponent) := shortestDigits mantissa power
        layOut digits exponent
    if negative then '-' :: body else body

def isZero : Binary64 → Bool
  | .finite _ mantissa _ => mantissa == 0
  | _ => false

end Binary64

end SourceAtlas
