import PixelRecord.Raster

/-!
Pictures: rasters of straight RGBA bytes, four a pixel, row after row without
padding. `Format.writePicture` decodes records into such bytes, and
`Format.toPicture` makes a picture of them.

A picture can be made by several tasks. The records and the bytes of the picture are cut
into chunks apart from each other, by as many bytes as `rowsPerTask` rows of
either take; the last chunk of each may be shorter. A task decodes a chunk of
records into the chunk of the picture with the same number. The tasks touch
disjoint bytes, so the order in which they run does not matter;
`Format.toPictureInOrder` takes the order as an argument.
-/

namespace PixelRecord

structure Picture where
  width : Nat
  height : Nat
  data : Bytes
  deriving DecidableEq, Repr

namespace Picture

/-- Whether the data reach to the last pixel. -/
def isComplete (p : Picture) : Bool := 4 * (p.width * p.height) ≤ p.data.size

/-- The pixel in column `x` and row `y`; there is none outside the picture or
beyond the end of its data. -/
def pixel? (p : Picture) (x y : Nat) : Option (Rgba UInt8) :=
  if x < p.width ∧ y < p.height then
    let i := 4 * (y * p.width + x)
    if h : i + 4 ≤ p.data.size then some ⟨p.data[i], p.data[i + 1], p.data[i + 2], p.data[i + 3]⟩
    else none
  else none

end Picture

namespace Format

/-- The number of pixels of a picture, if it can be addressed. -/
def pixelCount (width height : Nat) : Except Error Nat :=
  if Layout.addressSpace ≤ width * height then .error (.pictureOverflow width height)
  else .ok (width * height)

/-- Refuses a source of `size` bytes that does not hold the records of a picture. -/
def checkSource (f : Format) (size width height : Nat) : Except Error Unit := do
  let count ← pixelCount width height
  f.layout.checkRecords size count "display source"

/-- Refuses a buffer of `size` bytes that does not hold `count` pixels. -/
def checkPixels (size count : Nat) : Except Error Unit :=
  if size < 4 * count then .error (.shortPicture size count (4 * count)) else .ok ()

/-- Decodes the `i`-th record into the `i`-th pixel of the buffer. -/
def writePixel (f : Format) (src : Bytes) (i : Nat) : Edit Unit := do
  let (c, opacity) ← f.decodeAt src (i * f.recordSize)
  Edit.write (4 * i) [c.r, c.g, c.b, opacity]

/-- Decodes the records of a `width` by `height` picture into the buffer. -/
def writePicture (f : Format) (src : Bytes) (width height : Nat) : Edit Unit := do
  Edit.require (f.checkSource src.size width height)
  Edit.require (checkPixels (← Edit.size) (width * height))
  (List.range (width * height)).forM fun i => f.writePixel src i

/-- The picture of `width` by `height` records. The place `x`, `y` of the
rectangle in a larger picture has no influence on the bytes. -/
def toPicture (f : Format) (src : Bytes) (width height : Nat) (_x _y : Int) :
    Except Failure Picture :=
  match f.checkSource src.size width height with
  | .error e => .error (.refused e)
  | .ok () =>
    match (f.writePicture src width height).on (Array.replicate (4 * (width * height)) 0) with
    | (.ok (), data) => .ok ⟨width, height, data⟩
    | (.error e, _) => .error e

end Format

/-! ### Several tasks -/

structure Threading where
  /-- Whether rows are shared out at all. -/
  parallel : Bool
  /-- Rows of a task. -/
  rowsPerTask : UInt64
  /-- Threads that run the tasks; as many as the machine likes if not given. -/
  threads : Option UInt64
  deriving DecidableEq, Repr

namespace Threading

/-- One task on the caller's thread. -/
def default : Threading := ⟨false, 64, none⟩

/-- Refuses a sharing without rows or without threads. -/
def check (t : Threading) : Except Error Unit :=
  if t.rowsPerTask = 0 then .error .zeroRowsPerTask
  else if t.threads = some 0 then .error .zeroThreads
  else .ok ()

end Threading

namespace Format

/-- The number of chunks of `step` bytes that `size` bytes are cut into. -/
def chunkCount (size step : Nat) : Nat := (size + step - 1) / step

/-- The byte after the `k`-th chunk of `step` bytes of a buffer of `size` bytes. -/
def chunkStop (size step k : Nat) : Nat := min ((k + 1) * step) size

def recordStep (f : Format) (width rowsPerTask : Nat) : Nat := width * f.recordSize * rowsPerTask

def pictureStep (width rowsPerTask : Nat) : Nat := 4 * width * rowsPerTask

/-- Decodes the `k`-th chunk of the records into the `k`-th chunk of the buffer,
as many rows as that has room for. -/
def runTask (f : Format) (records : Bytes) (width rowsPerTask k : Nat) : Edit Unit := do
  let inStep := f.recordStep width rowsPerTask
  let outStep := pictureStep width rowsPerTask
  -- Both are cut by bytes; nothing here says that these are bytes of the same rows.
  let chunk := records.extract (k * inStep) (chunkStop records.size inStep k)
  Edit.within (k * outStep) (chunkStop (← Edit.size) outStep k) do
    f.writePicture chunk width ((← Edit.size) / (4 * width))

/-- The picture of `width` by `height` records, made by the tasks named in
`order`, one after the other. -/
def toPictureInOrder (f : Format) (order : List Nat) (records : Bytes)
    (width height rowsPerTask : Nat) : Except Failure Picture :=
  match (order.forM fun k => f.runTask records width rowsPerTask k).on
      (Array.replicate (4 * (width * height)) 0) with
  | (.ok (), data) => .ok ⟨width, height, data⟩
  | (.error e, _) => .error e

/-- The number of tasks: chunks of records and of the picture go in pairs. -/
def taskCount (f : Format) (width height rowsPerTask : Nat) : Nat :=
  min (chunkCount (4 * (width * height)) (pictureStep width rowsPerTask))
    (chunkCount (width * height * f.recordSize) (f.recordStep width rowsPerTask))

/-- Refuses what cannot be shared out in tasks of `rowsPerTask` rows. -/
def checkTasks (f : Format) (size width height rowsPerTask : Nat) : Except Error Unit := do
  if rowsPerTask = 0 then throw .zeroRowsPerTask
  let count ← pixelCount width height
  let needed := count * f.recordSize
  if size < needed then throw (.shortSource size count needed)

/-- The picture of `width` by `height` records, made by tasks of `rowsPerTask`
rows that run in the order that `schedule` gives for their number. -/
def toPictureByTasks (f : Format) (schedule : Nat → List Nat) (src : Bytes)
    (width height rowsPerTask : Nat) : Except Failure Picture :=
  match f.checkTasks src.size width height rowsPerTask with
  | .error e => .error (.refused e)
  | .ok () =>
    if width * height = 0 then .ok ⟨width, height, #[]⟩
    else
      f.toPictureInOrder (schedule (f.taskCount width height rowsPerTask))
        (src.extract 0 (width * height * f.recordSize)) width height rowsPerTask

/-- The picture of `width` by `height` records, shared out as the settings say. -/
def toPictureWith (f : Format) (schedule : Nat → List Nat) (t : Threading) (src : Bytes)
    (width height : Nat) : Except Failure Picture :=
  match t.check with
  | .error e => .error (.refused e)
  | .ok () =>
    if !t.parallel || height ≤ 1 then f.toPicture src width height 0 0
    else f.toPictureByTasks schedule src width height t.rowsPerTask.toNat

/-- Whether 64 bits hold the bytes of a task, where pixels are shared out to tasks. -/
def CountsTasks (f : Format) (t : Threading) (width height : Nat) : Prop :=
  t.parallel = true → 1 < height → 0 < width →
    f.recordStep width t.rowsPerTask.toNat < Layout.addressSpace ∧
      pictureStep width t.rowsPerTask.toNat < Layout.addressSpace

instance (f : Format) (t : Threading) (width height : Nat) :
    Decidable (f.CountsTasks t width height) :=
  inferInstanceAs (Decidable (_ → _ → _ → _ ∧ _))

/-- `Format.toPictureWith`, faulting where the bytes of a task cannot be counted.
Rows of a task are only asked to be some, so that there is no other check. -/
def Checked.toPictureWith (f : Format) (schedule : Nat → List Nat) (t : Threading) (src : Bytes)
    (width height : Nat) : Except Failure Picture :=
  match f.toPictureWith schedule t src width height with
  | .error e => .error e
  | .ok picture =>
    if f.CountsTasks t width height then .ok picture else .error (.fault .overflow)

end Format

end PixelRecord
