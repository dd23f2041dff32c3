import PixelRecord.Failure

/-!
Fixed-point arithmetic. On a scale with maximum `max`, the integer `v` stands
for the fraction `v / max`; products, quotients and interpolations of fractions
are rounded back to integers of the scale. Results are kept as 32-bit words, so
each function ends in `word`; on a scale that fits, nothing is cut off.

The plain functions are total and are meant for a positive divisor. The
functions of `Checked` are the same with the divisor looked at first.
-/

namespace PixelRecord.FixedPoint

/-- The number of values of a 32-bit word. -/
def wordValues : Nat := 4294967296

/-- What a 32-bit word keeps of a number. -/
def word (n : Nat) : Nat := n % wordValues

/-- The quotient rounded to the nearest integer, halves up (for an odd divisor
no quotient is a half). -/
def divRound (num den : Nat) : Nat := (num + den / 2) / den

/-- The product of two fractions of the scale. -/
def mulDiv (a b max : Nat) : Nat := word (divRound (a * b) max)

/-- The quotient of two fractions of the scale, at most `max`; a divisor of zero
gives `max`. -/
def divNorm (a b max : Nat) : Nat :=
  if b = 0 then max else min (word (divRound (a * max) b)) max

/-- The signed step from `dst` towards `src` by the fraction `k`, rounded to the
nearest integer, halves away from zero. -/
def blendStep (src dst k max : Nat) : Int :=
  let delta : Int := ((src : Int) - dst) * k
  let half : Int := (max / 2 : Nat)
  if 0 ≤ delta then (delta + half) / max else -((-delta + half) / max)

/-- Linear interpolation from `dst` towards `src` by the fraction `k`. -/
def blend (src dst k max : Nat) : Nat :=
  ((dst + blendStep src dst k max) % wordValues).toNat

namespace Checked

/-- The value `v` of a computation that divides by `den`. -/
def nonzero (den v : Nat) : Except Fault Nat :=
  if den = 0 then .error .divisionByZero else .ok v

/-- `FixedPoint.divRound`, faulting on divisor zero. -/
def divRound (num den : Nat) : Except Fault Nat := nonzero den (FixedPoint.divRound num den)

/-- `FixedPoint.mulDiv`, faulting on an empty scale. -/
def mulDiv (a b max : Nat) : Except Fault Nat := nonzero max (FixedPoint.mulDiv a b max)

/-- `FixedPoint.divNorm`, which has an answer for every divisor. -/
def divNorm (a b max : Nat) : Except Fault Nat := .ok (FixedPoint.divNorm a b max)

/-- `FixedPoint.blend`, faulting on an empty scale. -/
def blend (src dst k max : Nat) : Except Fault Nat := nonzero max (FixedPoint.blend src dst k max)

@[simp] theorem nonzero_of_pos {den v : Nat} (h : 0 < den) : nonzero den v = .ok v := by
  simp [nonzero, Nat.ne_of_gt h]

end Checked

end PixelRecord.FixedPoint
