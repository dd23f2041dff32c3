import PixelRecord.Composite.Strict
import PixelRecord.Session

/-!
Calls in arithmetic that forgives nothing.

The calls of a session once more, as loops that take nothing for granted.

A composition is made row by row. `Format.composite` finds every record by its place in the
whole buffer; here the rows of destination, source and mask are cut out of their buffers
first, and a record is found by its place in the row. A row that starts at a byte whose
number 64 bits do not hold is a fault, and so is one that goes past the end of its buffer.
Records are composited as in `Composite.Strict`.

A mix builds up its sums term by term. Every product, every sum on the way and every
numerator with what is added to it for rounding has to fit into 64 bits, and a value that
is stored has to be on the scale by itself.

A run of alpha and a picture are made chunk by chunk. `Format.setAlpha` and
`Format.writePicture` count records; here the buffers are cut into chunks of a record or of
a pixel. What is too short for a chunk is left out, chunks of two buffers are paired for as
long as both have one, and of these no more than asked for are taken. A step of a loop has
nothing but its chunks in sight.
-/

namespace PixelRecord

open FixedPoint.Strict

/-! ### Compositing row by row -/

/-- Row `r` of rows of `count` bytes that start `stride` bytes apart. -/
def rowSlice (bytes : Bytes) (stride r count : Nat) : Except Failure Bytes := do
  let start ← fitNat 64 (r * stride)
  if start + count ≤ bytes.size then return bytes.extract start (start + count)
  else throw (.fault .outOfRange)

/-- A row of a mask, if there is a mask. -/
def Mask.rowSlice? (mask : Option Mask) (r cols : Nat) : Except Failure (Option Bytes) :=
  match mask with
  | none => .ok none
  | some m => do return some (← rowSlice m.bytes m.stride r cols)

/-- A call that sees this row as its whole buffer. -/
def Edit.onRow {α : Type} (stride r count : Nat) (e : Edit α) : Edit α := do
  let start ← fitNat 64 (r * stride)
  if start + count ≤ (← Edit.size) then Edit.within start (start + count) e
  else throw (.fault .outOfRange)

namespace Format

/-- Composites a row. The buffer, the source and the mask are this row and nothing else. -/
def compositeRow (f : Format) (src : Bytes) (mask : Option Bytes) (what : Composition) :
    Edit Unit :=
  (List.range what.cols).forM fun c =>
    f.compositeAt (what.cols * f.recordSize) ⟨src, what.cols * f.recordSize⟩
      (mask.map fun m => ⟨m, what.cols⟩) { what with rows := 1 } 0 c

/-- Hands the rows of a composition to `row`, one after the other, cut out of the three
buffers. -/
def onRows (f : Format) (stride : Nat) (src : Surface) (mask : Option Mask) (what : Composition)
    (row : Bytes → Option Bytes → Edit Unit) : Edit Unit := do
  if what.rows = 0 ∨ what.cols = 0 then
    pure ()
  else
    Edit.require (f.checkComposition (← Edit.size) stride src mask what)
    (List.range what.rows).forM fun r => do
      let srcRow ← rowSlice src.bytes src.stride r (what.cols * f.recordSize)
      let maskRow ← Mask.rowSlice? mask r what.cols
      Edit.onRow stride r (what.cols * f.recordSize) (row srcRow maskRow)

/-- `Format.composite`, with every row cut out of the three buffers. -/
def compositeBySlices (f : Format) (stride : Nat) (src : Surface) (mask : Option Mask)
    (what : Composition) : Edit Unit :=
  f.onRows stride src mask what fun srcRow maskRow => f.compositeRow srcRow maskRow what

namespace Strict

/-- `Format.cover`, on the scale by itself. -/
def cover (d : Depth) (mask : Option UInt8) (opacity : UInt8) : Except Failure Nat :=
  match mask with
  | none => onScale d.max (d.widen opacity)
  | some m =>
    if d.widen m = d.max then onScale d.max (d.widen opacity)
    else mulDiv (d.widen m) (d.widen opacity) d.max

def compositeAt (f : Format) (stride : Nat) (src : Surface) (mask : Option Mask)
    (what : Composition) (r c : Nat) : Edit Unit := do
  let coverage ← Mask.at? mask r c
  compositeRecord f what.op (← cover f.depth coverage what.opacity) src.bytes
    (r * src.stride + c * f.recordSize) (r * stride + c * f.recordSize)

def compositeRow (f : Format) (src : Bytes) (mask : Option Bytes) (what : Composition) :
    Edit Unit :=
  (List.range what.cols).forM fun c =>
    compositeAt f (what.cols * f.recordSize) ⟨src, what.cols * f.recordSize⟩
      (mask.map fun m => ⟨m, what.cols⟩) { what with rows := 1 } 0 c

/-- `Format.compositeBySlices`, with every number looked at. -/
def composite (f : Format) (stride : Nat) (src : Surface) (mask : Option Mask)
    (what : Composition) : Edit Unit :=
  f.onRows stride src mask what fun srcRow maskRow => compositeRow f srcRow maskRow what

end Strict

end Format

/-! ### Mixing -/

namespace FixedPoint.Strict

/-- The products of values and weights, one by one. -/
def products (values weights : List Nat) : Except Failure (List Nat) :=
  (values.zip weights).mapM fun (v, w) => fitNat 64 (v * w)

/-- The sum of terms that are added one after the other. -/
def sum (terms : List Nat) : Except Failure Nat :=
  terms.foldlM (fun sofar term => fitNat 64 (sofar + term)) 0

end FixedPoint.Strict

namespace Format.Strict

/-- The mean of values under weights, rounded to the nearest integer. -/
def weightedMean (values weights : List Nat) : Except Failure Nat := do
  let num ← sum (← products values weights)
  let den ← sum weights
  if den = 0 then throw (.fault .divisionByZero)
  return (← fitNat 64 (num + den / 2)) / den

def mixColors (f : Format) (inputs : List Bytes) (weights : List Nat) : Edit Unit := do
  let whole ← sum weights
  f.layout.colors.forM fun ch => do
    if whole = 0 then
      store f ch 0 0
    else
      let values ← f.channelValues ch inputs
      store f ch 0 (← weightedMean values weights)

def average (f : Format) (inputs : List Bytes) (weights : List Nat) : Edit Unit := do
  match f.layout.alpha? with
  | none => mixColors f inputs weights
  | some alpha =>
    let alphas ← f.channelValues alpha inputs
    mixColors f inputs (← products alphas weights)
    store f alpha 0 (← weightedMean alphas weights)

def mixRecord (f : Format) (inputs : List Bytes) (weights : List Nat) : Edit Unit :=
  match inputs with
  | [only] => Edit.write 0 (only.extract 0 f.recordSize).toList
  | _ => do
    let whole ← sum weights
    if whole = 0 then Edit.write 0 (List.replicate f.recordSize 0)
    else average f inputs weights

/-- `Format.mix`, with every number looked at. -/
def mix (f : Format) (inputs : List Bytes) (weights : List UInt8) : Edit Unit := do
  Edit.require (f.checkMix (← Edit.size) inputs weights)
  mixRecord f inputs (weights.map UInt8.toNat)

end Format.Strict

/-! ### Loops over chunks -/

/-- The chunks of `step` bytes of a buffer. -/
def chunks (buf : Bytes) (step : Nat) : List Bytes :=
  (List.range (buf.size / step)).map fun i => buf.extract (i * step) (i * step + step)

/-- A call that sees the `i`-th chunk of `step` bytes as its whole buffer. -/
def Edit.onChunk {α : Type} (step i : Nat) (e : Edit α) : Edit α :=
  Edit.within (i * step) (i * step + step) e

namespace Format

/-- `Format.setAlpha`, chunk by chunk. -/
def setAlphaByChunks (f : Format) (opacity : UInt8) (count : Nat) : Edit Unit := do
  match f.layout.alpha? with
  | none => Edit.refuse .noAlpha
  | some ch =>
    Edit.require (f.layout.checkRecords (← Edit.size) count "set_alpha")
    let cells := List.range ((← Edit.size) / f.recordSize)
    (cells.take count).forM fun i =>
      Edit.onChunk f.recordSize i (ch.store f.depth 0 (f.depth.widen opacity))

/-- Decodes a record into a pixel, each of them a buffer of its own. -/
def writeChunk (f : Format) (record : Bytes) : Edit Unit := do
  let (c, opacity) ← f.decodeAt record 0
  Edit.write 0 [c.r, c.g, c.b, opacity]

/-- `Format.writePicture`, chunk by chunk. -/
def writePictureByChunks (f : Format) (src : Bytes) (width height : Nat) : Edit Unit := do
  Edit.require (f.checkSource src.size width height)
  Edit.require (checkPixels (← Edit.size) (width * height))
  let cells := List.range ((← Edit.size) / 4)
  (((chunks src f.recordSize).zip cells).take (width * height)).forM fun (record, i) =>
    Edit.onChunk 4 i (f.writeChunk record)

/-- `Format.toPicture`, chunk by chunk. -/
def toPictureByChunks (f : Format) (src : Bytes) (width height : Nat) : Except Failure Picture :=
  match f.checkSource src.size width height with
  | .error e => .error (.refused e)
  | .ok () =>
    let blank := Array.replicate (4 * (width * height)) 0
    match (f.writePictureByChunks src width height).on blank with
    | (.ok (), data) => .ok ⟨width, height, data⟩
    | (.error e, _) => .error e

end Format

/-! ### Sessions -/

/-- A mix with so few inputs that 64 bits hold its sums, whatever the inputs are; or any
other call. -/
def Call.Bounded : Call → Prop
  | .mix _ weights => weights.length ≤ 2 ^ 24
  | _ => True

namespace Format.Strict

/-- `Format.perform` by the calls above. Those that work on a single record and calculate
nothing are what they are. -/
def perform (f : Format) : Call → Edit Answer
  | .setAlpha opacity count => do
    f.setAlphaByChunks opacity count
    return .done
  | .mix inputs weights => do
    mix f inputs weights
    return .done
  | .composite stride src mask what => do
    composite f stride src mask what
    return .done
  | .writePicture src width height => do
    f.writePictureByChunks src width height
    return .done
  | .toPicture width height _ _ => do
    let picture ← f.toPictureByChunks (← get) width height
    return .picture picture
  | call => f.perform call

/-- `Format.session` by the calls above. -/
def session (f : Format) : Bytes → List Call → List Outcome := outcomes (perform f)

end Format.Strict

end PixelRecord
