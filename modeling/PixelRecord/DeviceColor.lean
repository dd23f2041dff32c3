import PixelRecord.Edit
import PixelRecord.Number

/-!
A pixel format is a depth and a layout. Its records are exchanged with device
colors: three 8-bit components and an 8-bit opacity. `Format.encode` writes a
device color into a record and `Format.decode` reads one; the first three color
channels carry red, green and blue in this order, whatever they are called.

The value of a single channel is shown as text: the integer itself, or the fraction
of the greatest value that it is, taken in single precision and written with six
significant digits. Six digits are enough to tell any two values of a channel apart.
-/

namespace PixelRecord

/-- A depth and a layout: all that is needed to read and write records. -/
structure Format where
  depth : Depth
  layout : Layout
  deriving DecidableEq

/-- A color as devices and pickers exchange it. -/
structure DeviceColor where
  r : UInt8
  g : UInt8
  b : UInt8
  deriving DecidableEq, Repr

namespace DeviceColor

def black : DeviceColor := ⟨0, 0, 0⟩

def white : DeviceColor := ⟨255, 255, 255⟩

def components (c : DeviceColor) : List UInt8 := [c.r, c.g, c.b]

/-- The color of the first three components; those that are missing are zero. -/
def ofComponents (cs : List UInt8) : DeviceColor := ⟨cs.getD 0 0, cs.getD 1 0, cs.getD 2 0⟩

@[simp] theorem ofComponents_components (c : DeviceColor) : ofComponents c.components = c := rfl

end DeviceColor

def opaqueOpacity : UInt8 := 255

namespace Format

abbrev recordSize (f : Format) : Nat := f.layout.recordSize

/-- Writes a color into the first record of the buffer. Without an opacity the
alpha channel keeps what it holds. -/
def encode (f : Format) (color : DeviceColor) (opacity : Option UInt8) : Edit Unit := do
  Edit.require (f.layout.checkRecords (← Edit.size) 1 "native_color")
  (f.layout.colors.zip color.components).forM fun (ch, v) =>
    ch.store f.depth 0 (f.depth.widen v)
  match opacity, f.layout.alpha? with
  | some o, some ch => ch.store f.depth 0 (f.depth.widen o)
  | _, _ => pure ()

/-- The color and opacity of the record that starts at byte `start`. A record
without alpha is opaque. -/
def decodeAt (f : Format) (buf : Bytes) (start : Nat) : Except Failure (DeviceColor × UInt8) := do
  let components ← (f.layout.colors.take 3).mapM fun ch =>
    return f.depth.narrow (← ch.load f.depth buf start)
  let opacity ← match f.layout.alpha? with
    | some ch => do pure (f.depth.narrow (← ch.load f.depth buf start))
    | none => pure opaqueOpacity
  return (DeviceColor.ofComponents components, opacity)

def decode (f : Format) (buf : Bytes) : Except Failure (DeviceColor × UInt8) := do
  match f.layout.checkRecords buf.size 1 "to_device" with
  | .ok () => f.decodeAt buf 0
  | .error e => throw (.refused e)

def decodeColor (f : Format) (buf : Bytes) : Except Failure DeviceColor :=
  (·.1) <$> f.decode buf

/-- Gives the first `count` records of the buffer the alpha of an opacity. -/
def setAlpha (f : Format) (opacity : UInt8) (count : Nat) : Edit Unit := do
  match f.layout.alpha? with
  | none => Edit.refuse .noAlpha
  | some ch =>
    Edit.require (f.layout.checkRecords (← Edit.size) count "set_alpha")
    (List.range count).forM fun i =>
      ch.store f.depth (i * f.recordSize) (f.depth.widen opacity)

/-! ### The value of a channel as text -/

/-- Significant digits of a channel value written as a fraction. -/
def fractionDigits : Nat := 6

/-- The value of the channel declared at `index`, in the first record of a
buffer; `what` names the call. The index is looked at before the buffer. -/
def channelValue (f : Format) (buf : Bytes) (index : Nat) (what : String) :
    Except Failure Nat :=
  match f.layout.channel index with
  | .error e => .error (.refused e)
  | .ok ch =>
    match f.layout.checkRecords buf.size 1 what with
    | .error e => .error (.refused e)
    | .ok () => ch.load f.depth buf 0

def channelText (f : Format) (buf : Bytes) (index : Nat) : Except Failure String := do
  return String.ofList (Nat.toDigits 10 (← f.channelValue buf index "channel_value_text"))

/-- The text of the fraction that `v` is of the greatest value of a depth. -/
def fractionText (d : Depth) (v : Nat) : String :=
  General.text (Binary.quotient v d.max) fractionDigits

def normalizedChannelText (f : Format) (buf : Bytes) (index : Nat) : Except Failure String := do
  return fractionText f.depth (← f.channelValue buf index "normalised_channel_value_text")

end Format

end PixelRecord
