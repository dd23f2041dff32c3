import PixelRecord.DeviceColor

/-!
Rasters that come from outside: samples in the order red, green, blue, alpha,
four a pixel. Importing a raster writes each pixel as the record that the
built-in spaces use, blue first. The records are described here by their fields,
independently of the channel tables.
-/

namespace PixelRecord

structure Rgba (α : Type) where
  r : α
  g : α
  b : α
  a : α
  deriving DecidableEq, Repr

namespace Rgba

def toList {α : Type} (p : Rgba α) : List α := [p.r, p.g, p.b, p.a]

def map {α β : Type} (f : α → β) (p : Rgba α) : Rgba β := ⟨f p.r, f p.g, f p.b, f p.a⟩

end Rgba

structure Bgra8 where
  blue : UInt8
  green : UInt8
  red : UInt8
  alpha : UInt8
  deriving DecidableEq, Repr

namespace Bgra8

def ofRgba (p : Rgba UInt8) : Bgra8 := ⟨p.b, p.g, p.r, p.a⟩

def bytes (p : Bgra8) : List UInt8 := [p.blue, p.green, p.red, p.alpha]

end Bgra8

structure Bgra16 where
  blue : UInt16
  green : UInt16
  red : UInt16
  alpha : UInt16
  deriving DecidableEq, Repr

/-- The two bytes of a 16-bit value, the low one first. -/
def lowFirst (v : UInt16) : List UInt8 := [v.toUInt8, (v >>> 8).toUInt8]

namespace Bgra16

def ofRgba (p : Rgba UInt16) : Bgra16 := ⟨p.b, p.g, p.r, p.a⟩

def bytes (p : Bgra16) : List UInt8 :=
  lowFirst p.blue ++ lowFirst p.green ++ lowFirst p.red ++ lowFirst p.alpha

end Bgra16

/-- A raster with four samples for each of its pixels, row after row. Samples
after those of the last pixel are not looked at. -/
structure Raster (α : Type) where
  width : Nat
  height : Nat
  samples : Array α
  complete : 4 * (width * height) ≤ samples.size

namespace Raster

variable {α : Type}

/-- The raster of some samples, if there are enough of them. -/
def ofSamples? (width height : Nat) (samples : Array α) : Option (Raster α) :=
  if h : 4 * (width * height) ≤ samples.size then some ⟨width, height, samples, h⟩ else none

/-- The pixel with index `i`, rows counted one after the other. -/
def pixel (r : Raster α) (i : Nat) (h : i < r.width * r.height) : Rgba α :=
  have := r.complete
  ⟨r.samples[4 * i], r.samples[4 * i + 1], r.samples[4 * i + 2], r.samples[4 * i + 3]⟩

def pixels (r : Raster α) : List (Rgba α) :=
  List.ofFn fun i : Fin (r.width * r.height) => r.pixel i i.isLt

/-- The records of the built-in 8-bit space for all pixels. -/
def bytes8 (r : Raster UInt8) : Bytes :=
  (r.pixels.flatMap fun p => (Bgra8.ofRgba p).bytes).toArray

/-- The records of the built-in 16-bit space for all pixels. -/
def bytes16 (r : Raster UInt16) : Bytes :=
  (r.pixels.flatMap fun p => (Bgra16.ofRgba p).bytes).toArray

end Raster

end PixelRecord
