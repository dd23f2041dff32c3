import PixelRecord.Failure

/-!
Binary floating-point numbers, as exact values and in decimal digits.

Exact fractions are rounded in two ways. `Ratio.round` gives the nearest integer, with a
tie going to the even neighbor; `Ratio.significant` gives the nearest number with a fixed
count of significant digits in any base. The same two functions serve binary and decimal
numbers: `Binary.quotient` is the division of two integers rounded to the nearest number
with 24 significant bits, and `General.text` is the general decimal format. That has a
fixed count of significant digits, is positional for moderate exponents and scientific for
the others, and leaves out the zeros that end a fraction. The digits are those of the exact
value rounded once.

`General.text` has an answer for every count of digits. `General.Checked.text` is the same
where no more than `maxPlaces` digits after the point are to be worked out, and faults
elsewhere.
-/

namespace PixelRecord

/-! ### Fractions -/

/-- The fraction `num / den`; the denominator is meant to be positive. -/
structure Ratio where
  num : Nat
  den : Nat
  deriving DecidableEq, Repr

namespace Ratio

def shift (base : Nat) (k : Int) (r : Ratio) : Ratio :=
  if 0 ≤ k then ⟨r.num * Nat.pow base k.toNat, r.den⟩
  else ⟨r.num, r.den * Nat.pow base (-k).toNat⟩

/-- The nearest integer; of two that are equally near, the even one. -/
def round (r : Ratio) : Nat :=
  let q := r.num / r.den
  let rest := r.num % r.den
  if 2 * rest < r.den then q
  else if r.den < 2 * rest then q + 1
  else q + q % 2

/-- The exponent of the leading digit in a base: the `e` with
`base ^ e ≤ num / den < base ^ (e + 1)`, for a positive fraction. The counts of
digits leave two candidates. -/
def order (base : Nat) (r : Ratio) : Int :=
  let e : Int := (Nat.toDigits base r.num).length - (Nat.toDigits base r.den).length
  let scaled := r.shift base (-e)
  if scaled.den ≤ scaled.num then e else e - 1

/-- A positive fraction rounded to `digits` significant digits: the digits as
one integer `m`, and the exponent `e` of the leading one, so that the rounded
number is `m * base ^ (e + 1 - digits)`. Rounding may carry into a new digit. -/
def significant (base digits : Nat) (r : Ratio) : Nat × Int :=
  let e := r.order base
  let m := (r.shift base (digits - 1 - e)).round
  if m = Nat.pow base digits then (Nat.pow base (digits - 1), e + 1) else (m, e)

end Ratio

/-! ### Binary numbers -/

/-- What a binary floating-point datum stands for; a finite one is
`coefficient * 2 ^ exponent`, negated if `negative`. -/
inductive Binary where
  | nan
  | infinity (negative : Bool)
  | finite (negative : Bool) (coefficient : Nat) (exponent : Int)
  deriving DecidableEq, Repr

namespace Binary

/-- The bit before the 52 bits of a fraction. -/
def leadingBit : Nat := 4503599627370496

/-- The datum of a 64-bit word: one bit of sign, eleven of exponent, and 52 of
fraction, which continue a leading 1 unless the exponent bits are all zero. -/
def ofBits (w : UInt64) : Binary :=
  let bits := w.toNat
  let negative : Bool := bits / 9223372036854775808 = 1
  let field : Nat := bits / leadingBit % 2048
  let fraction : Nat := bits % leadingBit
  if field = 2047 then if fraction = 0 then .infinity negative else .nan
  else if field = 0 then .finite negative fraction (-1074)
  else .finite negative (leadingBit + fraction) ((field : Int) - 1075)

def magnitude (coefficient : Nat) (exponent : Int) : Ratio :=
  Ratio.shift 2 exponent ⟨coefficient, 1⟩

def singleBits : Nat := 24

/-- The quotient of two integers in single precision: the nearest number with 24
significant bits, a tie going to the even neighbor. The quotients of channel
values are far from both ends of the exponent range. -/
def quotient (num den : Nat) : Binary :=
  if num = 0 then .finite false 0 0
  else
    let (m, e) := Ratio.significant 2 singleBits ⟨num, den⟩
    .finite false m (e + 1 - singleBits)

end Binary

/-! ### The general format -/

namespace General

/-- The digits of `m` with a point before the last `places` of them; at least
one digit stands before the point, and no point is written for zero places. -/
def pointed (m places : Nat) : List Char :=
  let digits := Nat.toDigits 10 m
  let padded := List.replicate (places + 1 - digits.length) '0' ++ digits
  let whole := padded.take (padded.length - places)
  if places = 0 then whole else whole ++ '.' :: padded.drop (padded.length - places)

/-- A number's text without the zeros that end its fraction, and without the
point if nothing is left of the fraction. -/
def trimFraction (cs : List Char) : List Char :=
  if cs.contains '.' then
    ((cs.reverse.dropWhile (· == '0')).dropWhile (· == '.')).reverse
  else cs

/-- A decimal exponent with its sign and at least two digits. -/
def exponentText (e : Int) : List Char :=
  let digits := Nat.toDigits 10 e.natAbs
  (if e < 0 then '-' else '+') :: (List.replicate (2 - digits.length) '0' ++ digits)

/-- Whether a number whose leading digit has exponent `e` is written with an
exponent when `precision` digits are asked for. -/
def isScientific (precision : Nat) (e : Int) : Bool := e < -4 || precision ≤ e

/-- The text of a positive fraction with `precision` significant digits, at
least one. Which form is used is decided by the exponent after rounding. -/
def ofRatio (r : Ratio) (precision : Nat) : List Char :=
  let p := max precision 1
  let (m, e) := r.significant 10 p
  if isScientific p e then trimFraction (pointed m (p - 1)) ++ 'e' :: exponentText e
  else
    let places := ((p : Int) - 1 - e).toNat
    trimFraction (pointed (r.shift 10 places).round places)

/-- The characters of a number in the general format. Both zeros are written
alike. -/
def chars (x : Binary) (precision : Nat) : List Char :=
  match x with
  | .nan => ['N', 'a', 'N']
  | .infinity negative => (if negative then ['-'] else []) ++ ['i', 'n', 'f']
  | .finite negative c e =>
    if c = 0 then ['0']
    else (if negative then ['-'] else []) ++ ofRatio (Binary.magnitude c e) precision

def text (x : Binary) (precision : Nat) : String := String.ofList (chars x precision)

namespace Checked

/-- The most digits after the point that can be worked out. -/
def maxPlaces : Nat := 65535

/-- Whether the digits of a positive fraction can be worked out: those of the
scientific form, from which the exponent is taken, and, if the number is written
without an exponent, those of the positional form. -/
def admitsRatio (r : Ratio) (precision : Nat) : Bool :=
  let p := max precision 1
  p - 1 ≤ maxPlaces &&
    (let e := (r.significant 10 p).2
    isScientific p e || (p : Int) - 1 - e ≤ maxPlaces)

/-- Whether the digits of a number can be worked out; zero and the numbers that
are not finite have none. -/
def admits (x : Binary) (precision : Nat) : Bool :=
  match x with
  | .nan | .infinity _ => true
  | .finite _ c e => c = 0 || admitsRatio (Binary.magnitude c e) precision

/-- `General.text`, faulting on digits that cannot be worked out. -/
def text (x : Binary) (precision : Nat) : Except Fault String :=
  if admits x precision then .ok (General.text x precision) else .error .tooManyPlaces

end Checked

end General

end PixelRecord
