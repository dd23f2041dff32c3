import PixelRecord.Composite.Record

/-!
A rectangle of source records laid over a rectangle of destination records, with
an optional mask and a global opacity. Rectangles lie in larger buffers: the
rows of a rectangle start `stride` bytes apart. The geometry is checked before
the first byte is written.
-/

namespace PixelRecord

/-- The source rectangle: it starts at byte 0 of its bytes. -/
structure Surface where
  bytes : Bytes
  stride : Nat
  deriving DecidableEq, Repr

/-- Coverage, one byte a record, starting at byte 0 of its bytes. -/
structure Mask where
  bytes : Bytes
  stride : Nat
  deriving DecidableEq, Repr

structure Composition where
  rows : Nat
  cols : Nat
  opacity : UInt8
  op : Op
  deriving DecidableEq, Repr

/-- Refuses `rows` rows of `rowBytes` bytes, `stride` bytes apart, that do not
fit into `size` bytes. The name `what` stands for the rectangle in the message. -/
def checkRectangle (size stride rows rowBytes : Nat) (what : String) : Except Error Unit :=
  if stride < rowBytes then .error (.narrowStride what stride rowBytes)
  else
    -- The last row need not be followed by the rest of its stride.
    let needed := (rows - 1) * stride + rowBytes
    if Layout.addressSpace ≤ needed then .error (.rectangleOverflow what)
    else if size < needed then .error (.shortRectangle what size rows needed)
    else .ok ()

/-- The mask byte of the record in row `r` and column `c`, if there is a mask. -/
def Mask.at? (mask : Option Mask) (r c : Nat) : Except Failure (Option UInt8) :=
  match mask with
  | none => .ok none
  | some m =>
    match m.bytes[r * m.stride + c]? with
    | some b => .ok (some b)
    | none => .error (.fault .outOfRange)

namespace Format

/-- Refuses a composition whose rectangles do not fit into their buffers: the
destination, of `size` bytes, then the source, then the mask. -/
def checkComposition (f : Format) (size stride : Nat) (src : Surface) (mask : Option Mask)
    (what : Composition) : Except Error Unit := do
  let rowBytes := what.cols * f.recordSize
  if Layout.addressSpace ≤ rowBytes then throw .rowOverflow
  checkRectangle size stride what.rows rowBytes "composite destination"
  checkRectangle src.bytes.size src.stride what.rows rowBytes "composite source"
  match mask with
  | some m => checkRectangle m.bytes.size m.stride what.rows what.cols "composite mask"
  | none => pure ()

def compositeAt (f : Format) (stride : Nat) (src : Surface) (mask : Option Mask)
    (what : Composition) (r c : Nat) : Edit Unit := do
  let coverage ← Mask.at? mask r c
  f.compositeRecord what.op (cover f.depth coverage what.opacity) src.bytes
    (r * src.stride + c * f.recordSize) (r * stride + c * f.recordSize)

/-- Composites a source over the buffer, whose rows start `stride` bytes apart,
row by row and in each row from left to right. An empty rectangle asks nothing
of the buffers. -/
def composite (f : Format) (stride : Nat) (src : Surface) (mask : Option Mask)
    (what : Composition) : Edit Unit := do
  if what.rows = 0 ∨ what.cols = 0 then
    pure ()
  else
    Edit.require (f.checkComposition (← Edit.size) stride src mask what)
    (List.range what.rows).forM fun r => (List.range what.cols).forM fun c =>
      f.compositeAt stride src mask what r c

end Format

end PixelRecord
