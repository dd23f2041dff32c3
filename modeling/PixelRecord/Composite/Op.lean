import PixelRecord.Failure
import PixelRecord.FixedPoint

/-!
The operations that lay a source over a destination. A *separable* operation
moves each color channel from its old value towards a target that depends on
the source and destination values of this channel alone; `Op.target` is that
target. `copy` and `erase` are not separable.
-/

namespace PixelRecord

inductive Op where
  /-- The target is the source color. -/
  | over
  /-- The destination becomes the source color, unblended. -/
  | copy
  /-- Alpha is taken away and colors are kept. -/
  | erase
  /-- The target is the product. -/
  | multiply
  /-- The target is the quotient of the destination by the source. -/
  | divide
  /-- The target is the complement of the product of the complements. -/
  | screen
  /-- The target is the lesser value. -/
  | darken
  /-- The target is the greater value. -/
  | lighten
  /-- The target is the sum, up to the greatest value. -/
  | add
  /-- The target is the difference, down to zero. -/
  | subtract
  deriving DecidableEq, Repr

namespace Op

def all : List Op :=
  [.over, .copy, .erase, .multiply, .divide, .screen, .darken, .lighten, .add, .subtract]

def default : Op := .over

def name : Op → String
  | .over => "over"
  | .copy => "copy"
  | .erase => "erase"
  | .multiply => "multiply"
  | .divide => "divide"
  | .screen => "screen"
  | .darken => "darken"
  | .lighten => "lighten"
  | .add => "add"
  | .subtract => "subtract"

/-- Whether an operation blends each color channel towards a target. -/
def isSeparable : Op → Bool
  | .copy | .erase => false
  | _ => true

def ofText (text : String) : Except Error Op :=
  (Text.byName all name text).mapError .unknownOp

/-- The value towards which a color channel moves, from its source value `s` and
destination value `d` on a scale up to `max`. An operation that is not
separable moves nothing. -/
def target (op : Op) (s d max : Nat) : Nat :=
  match op with
  | .over => s
  | .multiply => FixedPoint.mulDiv s d max
  | .divide => min ((d * (max + 1) + s / 2) / (s + 1)) max
  | .screen => max - FixedPoint.mulDiv (max - s) (max - d) max
  | .darken => min s d
  | .lighten => Nat.max s d
  | .add => min (s + d) max
  | .subtract => d - s
  | .copy | .erase => d

/-- `Op.target`, faulting where a target divides by an empty scale. -/
def checkedTarget (op : Op) (s d max : Nat) : Except Fault Nat :=
  match op with
  | .multiply | .screen => FixedPoint.Checked.nonzero max (op.target s d max)
  | _ => .ok (op.target s d max)

end Op

end PixelRecord
