import Mathlib.Algebra.Ring.Nat
import PixelRecord.Composite.Record

/-!
Compositing in arithmetic that forgives nothing.

The steps are those of `Composite.Record`, but every number is worked out exactly and
looked at before it is used. A product or a sum that is too large, a value that is kept
without being on the scale, and a divisor of zero are faults here, where the other
arithmetic cuts off, clamps or has an answer ready. In a run without a fault nothing of
the kind was needed, not even for a number that is only passed through.
-/

namespace PixelRecord

namespace FixedPoint.Strict

/-- `v`, if `bits` bits hold it beside its sign. -/
def fit (bits : Nat) (v : Int) : Except Failure Int :=
  if v.natAbs < 2 ^ bits then .ok v else .error (.fault .overflow)

/-- `n`, if `bits` bits hold it. -/
def fitNat (bits n : Nat) : Except Failure Nat :=
  if n < 2 ^ bits then .ok n else .error (.fault .overflow)

/-- `v`, if it is a value of the scale. -/
def onScale (max : Nat) (v : Int) : Except Failure Nat :=
  if 0 ≤ v ∧ v ≤ max then .ok v.toNat else .error (.fault .overflow)

/-- The quotient rounded to the nearest integer, halves up. -/
def divRound (num den : Int) : Except Failure Int := do
  if den = 0 then throw (.fault .divisionByZero)
  return (← fit 63 (num + den / 2)) / den

/-- The same with halves away from zero. -/
def divRoundAway (num den : Int) : Except Failure Int := do
  if 0 ≤ num then divRound num den
  else return -(← divRound (-num) den)

/-- The product of two fractions of the scale. -/
def mulDiv (a b max : Nat) : Except Failure Nat := do
  let num ← fit 63 (a * b)
  onScale max (← divRound num max)

/-- The quotient of two fractions of the scale. It has to be on the scale itself. -/
def divNorm (a b max : Nat) : Except Failure Nat := do
  let num ← fit 63 (a * max)
  onScale max (← divRound num b)

/-- Linear interpolation from `dst` towards `src` by the fraction `k`. -/
def blend (src dst k max : Nat) : Except Failure Nat := do
  let gap ← fit 63 ((src : Int) - dst)
  let delta ← fit 63 (gap * k)
  onScale max (dst + (← divRoundAway delta max))

end FixedPoint.Strict

open FixedPoint.Strict

/-- The target of an operation. Where an operation itself bounds its target, that is
what the operation is, and no allowance. -/
def Op.strictTarget (op : Op) (s d max : Nat) : Except Failure Nat := do
  match op with
  | .multiply => mulDiv s d max
  | .divide =>
    let product ← fit 63 (d * (← fit 63 (max + 1)))
    let num ← fit 63 (product + (s / 2 : Nat))
    onScale max (min (num / (← fit 63 (s + 1))) max)
  | .screen =>
    let rest ← mulDiv (← onScale max ((max : Int) - s)) (← onScale max ((max : Int) - d)) max
    onScale max ((max : Int) - rest)
  | .add => onScale max (min (← fit 32 (s + d)) max)
  | .over | .darken | .lighten | .subtract | .copy | .erase => onScale max (op.target s d max)

namespace Format.Strict

/-- Stores a value that is on the scale as it is. -/
def store (f : Format) (ch : Channel) (d v : Nat) : Edit Unit := do
  ch.store f.depth d (← onScale f.depth.max v)

def effectiveAlpha (d : Depth) (srcAlpha cover : Nat) : Except Failure Nat :=
  if cover = d.max then onScale d.max srcAlpha else mulDiv srcAlpha cover d.max

def copyChannel (f : Format) (src : Bytes) (s d : Nat) (ch : Channel) : Edit Unit := do
  store f ch d (← ch.load f.depth src s)

def copyRecord (f : Format) (sa : Nat) (src : Bytes) (s d : Nat) : Edit Unit := do
  f.layout.colors.forM (copyChannel f src s d)
  match f.layout.alpha? with
  | some ch => store f ch d sa
  | none => pure ()

def eraseRecord (f : Format) (sa d : Nat) : Edit Unit := do
  match f.layout.alpha? with
  | some ch =>
    let da ← ch.load f.depth (← get) d
    let kept ← onScale f.depth.max ((f.depth.max : Int) - sa)
    store f ch d (← mulDiv da kept f.depth.max)
  | none => pure ()

def uniteAlpha (f : Format) (sa d : Nat) : Edit Nat := do
  match f.layout.alpha? with
  | some ch =>
    let da ← ch.load f.depth (← get) d
    if da < f.depth.max then
      let rest ← onScale f.depth.max ((f.depth.max : Int) - da)
      let added ← mulDiv rest sa f.depth.max
      let united ← onScale f.depth.max ((da : Int) + added)
      store f ch d united
      divNorm sa united f.depth.max
    else
      return sa
  | none => return sa

def blendChannel (f : Format) (op : Op) (k : Nat) (src : Bytes) (s d : Nat) (ch : Channel) :
    Edit Unit := do
  let sc ← ch.load f.depth src s
  let dc ← ch.load f.depth (← get) d
  let target ← op.strictTarget sc dc f.depth.max
  store f ch d (← blend target dc k f.depth.max)

def blendRecord (f : Format) (op : Op) (sa : Nat) (src : Bytes) (s d : Nat) : Edit Unit := do
  let k ← uniteAlpha f sa d
  f.layout.colors.forM (blendChannel f op k src s d)

def layRecord (f : Format) (op : Op) (sa : Nat) (src : Bytes) (s d : Nat) : Edit Unit :=
  match op with
  | .copy => copyRecord f sa src s d
  | .erase => if sa = 0 then pure () else eraseRecord f sa d
  | _ => if sa = 0 then pure () else blendRecord f op sa src s d

/-- `Format.compositeRecord`, with every number looked at. -/
def compositeRecord (f : Format) (op : Op) (cover : Nat) (src : Bytes) (s d : Nat) :
    Edit Unit := do
  if cover = 0 then
    pure ()
  else
    let sa ← effectiveAlpha f.depth (← f.sourceAlpha src s) cover
    layRecord f op sa src s d

end Format.Strict

end PixelRecord
