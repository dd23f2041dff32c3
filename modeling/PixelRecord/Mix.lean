import PixelRecord.DeviceColor
import PixelRecord.FixedPoint

/-!
The weighted average of records. Alpha is averaged by weight; a color channel is
averaged by weight times alpha, so that a transparent record does not tint the
result. Means are exact quotients of sums, rounded to the nearest integer.
-/

namespace PixelRecord.Format

/-- Refuses inputs that cannot be mixed into a buffer of `size` bytes. -/
def checkMix (f : Format) (size : Nat) (inputs : List Bytes) (weights : List UInt8) :
    Except Error Unit := do
  if inputs.isEmpty then throw .nothingToMix
  if inputs.length ≠ weights.length then throw (.weightCount inputs.length weights.length)
  f.layout.checkRecords size 1 "mix_colors output"
  inputs.forM fun input => f.layout.checkRecords input.size 1 "mix_colors input"

/-- The values of a channel in the first records of some buffers. -/
def channelValues (f : Format) (ch : Channel) (inputs : List Bytes) : Except Failure (List Nat) :=
  inputs.mapM fun input => ch.load f.depth input 0

def total (values : List Nat) : Nat := values.foldr (· + ·) 0

def weightedSum (values weights : List Nat) : Nat := total (List.zipWith (· * ·) values weights)

/-- The mean of values under weights, rounded to the nearest integer; it faults
if the weights sum to zero. -/
def weightedMean (values weights : List Nat) : Except Failure Nat :=
  (FixedPoint.Checked.divRound (weightedSum values weights) (total weights)).mapError .fault

/-- Mixes the colors of a record by `weights`, which sum to zero only if no input
counts; the colors are then zero. -/
def mixColors (f : Format) (inputs : List Bytes) (weights : List Nat) : Edit Unit :=
  f.layout.colors.forM fun ch => do
    if total weights = 0 then
      ch.store f.depth 0 0
    else
      let values ← f.channelValues ch inputs
      ch.store f.depth 0 (← weightedMean values weights)

/-- Writes the weighted average of the first records of `inputs`, under weights
that do not sum to zero, into the first record of the buffer. -/
def average (f : Format) (inputs : List Bytes) (weights : List Nat) : Edit Unit := do
  match f.layout.alpha? with
  | none => f.mixColors inputs weights
  | some alpha =>
    -- The buffer is not among the inputs, so no alpha changes while colors are stored.
    let alphas ← f.channelValues alpha inputs
    f.mixColors inputs (List.zipWith (· * ·) alphas weights)
    alpha.store f.depth 0 (← weightedMean alphas weights)

/-- Mixes the first records of `inputs` into the first record of the buffer. A
single input is copied as it is, and weights that are all zero give a record of
zero bytes. -/
def mixRecord (f : Format) (inputs : List Bytes) (weights : List Nat) : Edit Unit :=
  match inputs with
  | [only] => Edit.write 0 (only.extract 0 f.recordSize).toList
  | _ =>
    if total weights = 0 then Edit.write 0 (List.replicate f.recordSize 0)
    else f.average inputs weights

/-- Writes the weighted average of the first records of `inputs` into the first
record of the buffer. -/
def mix (f : Format) (inputs : List Bytes) (weights : List UInt8) : Edit Unit := do
  Edit.require (f.checkMix (← Edit.size) inputs weights)
  f.mixRecord inputs (weights.map UInt8.toNat)

end PixelRecord.Format
