import PixelRecord.Raster

/-!
Images as files hold them: gray or color, with or without alpha, at either depth.
They become rasters of one depth, or a mask of 8-bit luminance. Widening repeats
the byte; narrowing, other than for records, goes to the nearest value.
-/

namespace PixelRecord

inductive ColorModel where
  | gray
  | grayAlpha
  | rgb
  | rgba
  deriving DecidableEq, Repr

def ColorModel.channels : ColorModel → Nat
  | .gray => 1
  | .grayAlpha => 2
  | .rgb => 3
  | .rgba => 4

/-- An image; rows follow one another without padding. Samples that are missing
count as zero. -/
structure Image where
  width : Nat
  height : Nat
  model : ColorModel
  depth : Depth
  samples : Array Nat
  deriving DecidableEq, Repr

/-- The component with index `k`, in the order red, green, blue, alpha. -/
def Rgba.component {α : Type} (p : Rgba α) : Nat → α
  | 0 => p.r
  | 1 => p.g
  | 2 => p.b
  | _ => p.a

namespace Image

/-- The pixel with index `i`: gray stands for equal colors, and a pixel without
alpha is opaque. -/
def pixel (m : Image) (i : Nat) : Rgba Nat :=
  let sampleAt (k : Nat) := m.samples.getD (m.model.channels * i + k) 0
  match m.model with
  | .gray => ⟨sampleAt 0, sampleAt 0, sampleAt 0, m.depth.max⟩
  | .grayAlpha => ⟨sampleAt 0, sampleAt 0, sampleAt 0, sampleAt 1⟩
  | .rgb => ⟨sampleAt 0, sampleAt 1, sampleAt 2, m.depth.max⟩
  | .rgba => ⟨sampleAt 0, sampleAt 1, sampleAt 2, sampleAt 3⟩

/-- A sample on the 8-bit scale, to the nearest value. -/
def sample8 (d : Depth) (v : Nat) : UInt8 :=
  match d with
  | .eight => v.toUInt8
  | .sixteen => ((v + 128) / 257).toUInt8

def sample16 (d : Depth) (v : Nat) : UInt16 :=
  match d with
  | .eight => (v * 257).toUInt16
  | .sixteen => v.toUInt16

/-- The raster of an image whose samples are changed to another type. -/
def raster {α : Type} (m : Image) (sample : Nat → α) : Raster α where
  width := m.width
  height := m.height
  samples := Array.ofFn fun k : Fin (4 * (m.width * m.height)) =>
    sample ((m.pixel (k / 4)).component (k % 4))
  complete := by simp

def raster8 (m : Image) : Raster UInt8 := m.raster (sample8 m.depth)

def raster16 (m : Image) : Raster UInt16 := m.raster (sample16 m.depth)

def records (m : Image) : Depth → Bytes
  | .eight => m.raster8.bytes8
  | .sixteen => m.raster16.bytes16

/-- The luminance of three components, with weights in ten-thousandths; that of
equal components is their value. -/
def luminance (r g b : Nat) : Nat := (2126 * r + 7152 * g + 722 * b) / 10000

theorem luminance_self (v : Nat) : luminance v v v = v := by
  simp only [luminance]
  omega

/-- The 8-bit luminance of every pixel; alpha plays no part in it. -/
def luminance8 (m : Image) : Bytes :=
  Array.ofFn fun i : Fin (m.width * m.height) =>
    let p := m.pixel i
    sample8 m.depth (luminance p.r p.g p.b)

end Image

end PixelRecord
