import PixelRecord.Composite.Op
import PixelRecord.DeviceColor

/-!
Compositing as formulas on the values of a record: no shortcuts, no words, no
buffers. Every product and quotient is the integer nearest to the exact value.
These are the rules that `Format.composite` follows.
-/

namespace PixelRecord

/-- The values of a record: its colors in the order of declaration, and its
alpha, if it has one. -/
@[ext]
structure PixelValues where
  colors : List Int
  alpha : Option Int
  deriving DecidableEq, Repr

/-- The values of the record that starts at byte `start`. -/
def Format.valuesAt (f : Format) (buf : Bytes) (start : Nat) : PixelValues :=
  let value (ch : Channel) : Int := f.depth.load buf (start + ch.position)
  ⟨f.layout.colors.map value, f.layout.alpha?.map value⟩

namespace Formula

/-- The integer nearest to the fraction `num / den`, halves up. -/
def nearest (num den : Int) : Int := (2 * num + den) / (2 * den)

/-- Mask times opacity; a missing mask is full. -/
def cover (d : Depth) (mask : Option UInt8) (opacity : UInt8) : Int :=
  nearest (d.widen (mask.getD 255) * d.widen opacity) d.max

def target (op : Op) (max s d : Int) : Int :=
  match op with
  | .over => s
  | .multiply => nearest (s * d) max
  | .divide => min max ((d * (max + 1) + s / 2) / (s + 1))
  | .screen => max - nearest ((max - s) * (max - d)) max
  | .darken => min s d
  | .lighten => Max.max s d
  | .add => min max (s + d)
  | .subtract => Max.max 0 (d - s)
  | .copy | .erase => d

/-- The alpha that a separable operation leaves, for an effective alpha `sa`: what
is not covered yet is covered by the part `sa`. -/
def united (max sa : Int) (alpha : Option Int) : Option Int :=
  alpha.map fun da => da + nearest ((max - da) * sa) max

def share (max sa : Int) : Option Int → Int
  | some a => nearest (sa * max) a
  | none => sa

/-- The value of a color channel that moves by the fraction `k` towards its
target. -/
def moved (op : Op) (max k s d : Int) : Int := d + nearest ((target op max s d - d) * k) max

/-- The values that a separable operation leaves, for an effective alpha `sa`
above zero. -/
def blended (op : Op) (max sa : Int) (src dst : PixelValues) : PixelValues :=
  let alpha := united max sa dst.alpha
  ⟨List.zipWith (moved op max (share max sa alpha)) src.colors dst.colors, alpha⟩

/-- The values that an operation leaves of a destination record under a source
record. -/
def composited (op : Op) (max cover : Int) (src dst : PixelValues) : PixelValues :=
  let sa := nearest (src.alpha.getD max * cover) max
  match op with
  | .copy => if cover = 0 then dst else ⟨src.colors, dst.alpha.map fun _ => sa⟩
  | .erase =>
    if sa = 0 then dst
    else ⟨dst.colors, dst.alpha.map fun da => nearest (da * (max - sa)) max⟩
  | _ => if sa = 0 then dst else blended op max sa src dst

end Formula

end PixelRecord
