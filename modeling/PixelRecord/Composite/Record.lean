import PixelRecord.Composite.Op
import PixelRecord.DeviceColor

/-!
One source record laid over one destination record. The strength of the source
is its *effective alpha*: its own alpha times the cover, which is the mask value
times the global opacity. A channel is read only when it is needed, and where a
factor is full or zero the product is not taken; `Composite.Formula` has the
same rules without these shortcuts, as exact formulas on the values of a record.
-/

namespace PixelRecord.Format

open FixedPoint

/-- The cover of a mask byte and an opacity, on the scale of the depth. No mask
covers fully. -/
def cover (d : Depth) (mask : Option UInt8) (opacity : UInt8) : Nat :=
  match mask with
  | none => d.widen opacity
  | some m =>
    if d.widen m = d.max then d.widen opacity else mulDiv (d.widen m) (d.widen opacity) d.max

def effectiveAlpha (d : Depth) (srcAlpha cover : Nat) : Nat :=
  if cover = d.max then srcAlpha else mulDiv srcAlpha cover d.max

/-- The alpha of the source record at byte `s`; a record without alpha is opaque. -/
def sourceAlpha (f : Format) (src : Bytes) (s : Nat) : Except Failure Nat :=
  match f.layout.alpha? with
  | some ch => ch.load f.depth src s
  | none => .ok f.depth.max

/-- The value of a channel in the destination record at byte `d` becomes that in
the source record at byte `s`. -/
def copyChannel (f : Format) (src : Bytes) (s d : Nat) (ch : Channel) : Edit Unit := do
  ch.store f.depth d (← ch.load f.depth src s)

/-- The destination record at byte `d` takes the colors of the source record at
byte `s`, and alpha `sa`. -/
def copyRecord (f : Format) (sa : Nat) (src : Bytes) (s d : Nat) : Edit Unit := do
  f.layout.colors.forM (f.copyChannel src s d)
  match f.layout.alpha? with
  | some ch => ch.store f.depth d sa
  | none => pure ()

/-- What is left of a destination alpha when the part `sa` of it is taken away. -/
def erasedAlpha (da sa max : Nat) : Nat := mulDiv da (max - sa) max

/-- The destination record at byte `d` loses the part `sa` of its alpha. -/
def eraseRecord (f : Format) (sa d : Nat) : Edit Unit := do
  match f.layout.alpha? with
  | some ch =>
    let da ← ch.load f.depth (← get) d
    ch.store f.depth d (erasedAlpha da sa f.depth.max)
  | none => pure ()

/-- The union of a destination alpha and an effective alpha: what is not covered
yet is covered by the part `sa`. -/
def unitedAlpha (da sa max : Nat) : Nat := da + mulDiv (max - da) sa max

/-- Raises the alpha of the destination record at byte `d` to its union with
`sa`, and gives the part of the union that the source makes up. Over an opaque
destination, or without alpha, that part is `sa` itself. -/
def uniteAlpha (f : Format) (sa d : Nat) : Edit Nat := do
  match f.layout.alpha? with
  | some ch =>
    let da ← ch.load f.depth (← get) d
    if da < f.depth.max then
      ch.store f.depth d (unitedAlpha da sa f.depth.max)
      return divNorm sa (unitedAlpha da sa f.depth.max) f.depth.max
    else
      return sa
  | none => return sa

/-- The value of a channel in the destination record at byte `d` moves by the
fraction `k` towards its target. -/
def blendChannel (f : Format) (op : Op) (k : Nat) (src : Bytes) (s d : Nat) (ch : Channel) :
    Edit Unit := do
  let sc ← ch.load f.depth src s
  let dc ← ch.load f.depth (← get) d
  ch.store f.depth d (blend (op.target sc dc f.depth.max) dc k f.depth.max)

/-- The destination record at byte `d` has its colors moved towards their
targets, after its alpha has taken in `sa`. -/
def blendRecord (f : Format) (op : Op) (sa : Nat) (src : Bytes) (s d : Nat) : Edit Unit := do
  let k ← f.uniteAlpha sa d
  f.layout.colors.forM (f.blendChannel op k src s d)

/-- The destination record at byte `d` under a source record of effective alpha
`sa`. -/
def layRecord (f : Format) (op : Op) (sa : Nat) (src : Bytes) (s d : Nat) : Edit Unit :=
  match op with
  | .copy => f.copyRecord sa src s d
  | .erase => if sa = 0 then pure () else f.eraseRecord sa d
  | _ => if sa = 0 then pure () else f.blendRecord op sa src s d

/-- Lays the source record at byte `s` of `src` over the destination record at
byte `d` of the buffer. -/
def compositeRecord (f : Format) (op : Op) (cover : Nat) (src : Bytes) (s d : Nat) :
    Edit Unit := do
  if cover = 0 then
    pure ()
  else
    f.layRecord op (effectiveAlpha f.depth (← f.sourceAlpha src s) cover) src s d

end PixelRecord.Format
