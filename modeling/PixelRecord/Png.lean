import PixelRecord.Image
import PixelRecord.Picture
import PixelRecord.Png.Chunk
import PixelRecord.Png.Inflate

/-!
PNG files. What is read are the filtered rows of each pass, and from them the samples
of the image, with palettes and transparent colors resolved. Compressed data may hold
more than the image, and may be cut once all of it is there. Pictures are written in
blocks that are stored as they are.
-/

namespace PixelRecord.Png

/-! ## Reading -/

/-- Of three neighbors, the one that is nearest to what a plane through them
would give. -/
def paeth (left above corner : Nat) : Nat :=
  let p : Int := (left : Int) + above - corner
  let distance (v : Nat) : Nat := (p - v).natAbs
  if distance left ≤ distance above ∧ distance left ≤ distance corner then left
  else if distance above ≤ distance corner then above
  else corner

/-- What a filter predicts from the bytes to the left, above, and above left. -/
def predicted? (filter left above corner : Nat) : Option Nat :=
  match filter with
  | 0 => some 0
  | 1 => some left
  | 2 => some above
  | 3 => some ((left + above) / 2)
  | 4 => some (paeth left above corner)
  | _ => none

/-- A row of bytes from its differences to what the filter predicts. Bytes that
belong together lie `unit` bytes apart. -/
def unfilterRow? (filter unit : Nat) (previous differences : Bytes) : Option Bytes :=
  differences.foldl (fun row difference => row.bind fun row =>
    let i := row.size
    let byte (bytes : Bytes) : Nat := if i < unit then 0 else (bytes.getD (i - unit) 0).toNat
    (predicted? filter (byte row) (previous.getD i 0).toNat (byte previous)).map fun p =>
      row.push (difference + p.toUInt8)) (some #[])

/-- The next `count` rows of `rowBytes` bytes from byte `i` on. -/
def rows? (data : Bytes) (unit rowBytes : Nat) : Nat → Nat → Bytes → Option (List Bytes)
  | 0, _, _ => some []
  | count + 1, i, previous =>
    if data.size < i + 1 + rowBytes then none
    else
      match unfilterRow? (data.getD i 0).toNat unit previous
          (data.extract (i + 1) (i + 1 + rowBytes)) with
      | none => none
      | some row => (rows? data unit rowBytes count (i + 1 + rowBytes) row).map (row :: ·)

def sampleOf (bits : Nat) (row : Bytes) (k : Nat) : Nat :=
  if bits = 16 then (row.getD (2 * k) 0).toNat * 256 + (row.getD (2 * k + 1) 0).toNat
  else
    let place := k * bits
    ((row.getD (place / 8) 0).toNat >>> (8 - bits - place % 8)) % (1 <<< bits)

/-- The pixels that a pass gives: every `dx`-th of every `dy`-th row, from column
`x` and row `y` on. -/
structure Pass where
  x : Nat
  y : Nat
  dx : Nat
  dy : Nat

def passes (interlaced : Bool) : List Pass :=
  if interlaced then
    [⟨0, 0, 8, 8⟩, ⟨4, 0, 8, 8⟩, ⟨0, 4, 4, 8⟩, ⟨2, 0, 4, 4⟩, ⟨0, 2, 2, 4⟩, ⟨1, 0, 2, 2⟩,
      ⟨0, 1, 1, 2⟩]
  else [⟨0, 0, 1, 1⟩]

def Pass.columns (p : Pass) (h : Header) : Nat := (h.width - p.x + p.dx - 1) / p.dx

/-- Rows of a pass; one without columns has none. -/
def Pass.rows (p : Pass) (h : Header) : Nat :=
  if p.columns h = 0 then 0 else (h.height - p.y + p.dy - 1) / p.dy

def Pass.rowBytes (p : Pass) (h : Header) : Nat :=
  (p.columns h * h.coding.channels * h.bits + 7) / 8

/-- Bytes of the data of a pass. Each row stands behind the number of its filter. -/
def Pass.size (p : Pass) (h : Header) : Nat := p.rows h * (1 + p.rowBytes h)

def Header.dataSize (h : Header) : Nat :=
  (passes h.interlaced).foldl (fun size p => size + p.size h) 0

/-- Samples with those of a row of a pass put in their places. -/
def placeRow (h : Header) (p : Pass) (samples : Array Nat) (bytes : Bytes) (row : Nat) :
    Array Nat :=
  let channels := h.coding.channels
  (List.range (p.columns h * channels)).foldl (fun samples k =>
    let pixel := (p.y + row * p.dy) * h.width + p.x + k / channels * p.dx
    samples.setIfInBounds (pixel * channels + k % channels) (sampleOf h.bits bytes k)) samples

/-- The samples of a file after some passes, whose data start at byte `i`. -/
def passSamples (h : Header) (data : Bytes) :
    List Pass → Nat → Array Nat → Option (Array Nat)
  | [], _, samples => some samples
  | p :: rest, i, samples =>
    match rows? data (max 1 (h.coding.channels * h.bits / 8)) (p.rowBytes h) (p.rows h) i #[] with
    | none => none
    | some rows =>
      passSamples h data rest (i + p.size h)
        (rows.zipIdx.foldl (fun samples (bytes, row) => placeRow h p samples bytes row) samples)

/-! ## Color -/

def Header.depth (h : Header) : Depth := if h.bits = 16 then .sixteen else .eight

def colorModel (h : Header) (p : Preamble) : ColorModel :=
  match h.coding, p.transparency.isSome with
  | .gray, false => .gray
  | .gray, true | .grayAlpha, _ => .grayAlpha
  | .rgb, false | .palette, false => .rgb
  | .rgb, true | .palette, true | .rgba, _ => .rgba

/-- The transparent color that some data give for `channels` samples of `bits`
bits. Of a sample of fewer than 16 bits the low byte counts, and data that go on
are as good as others; 16-bit samples equal none if the data go on. -/
def transparentColor (bits channels : Nat) (data : Bytes) : List Nat :=
  if bits < 16 then (List.range channels).map fun k => (data.getD (2 * k + 1) 0).toNat
  else if data.size = 2 * channels then (List.range channels).map fun k => word16 data (2 * k)
  else []

/-- The samples of some pixels with an alpha added, which is zero for the pixels
that equal the transparent color. -/
def withTransparent (channels max : Nat) (color : List Nat) (samples : Array Nat) : Array Nat :=
  (List.range (samples.size / channels)).foldl (fun out i =>
    let pixel := (List.range channels).map fun k => samples.getD (channels * i + k) 0
    (pixel.foldl Array.push out).push (if pixel = color then 0 else max)) #[]

/-- The samples of palette indices: three of color, and one of alpha if the file
says something on transparency. Colors that are missing are black, alphas that
are missing opaque; more alphas than colors count as none. -/
def fromPalette (palette : Bytes) (alphas : Option Bytes) (indices : Array Nat) : Array Nat :=
  indices.foldl (fun out index =>
    let byte (k : Nat) : Nat := (palette.getD (3 * index + k) 0).toNat
    let colored := ((out.push (byte 0)).push (byte 1)).push (byte 2)
    match alphas with
    | none => colored
    | some alphas =>
      let alpha := if 3 * alphas.size ≤ palette.size then alphas.getD index 255 else 255
      colored.push alpha.toNat) #[]

/-- The samples of a file whose chunks may name a transparent color, with the
alpha that follows from it. -/
def withColorKey (h : Header) (p : Preamble) (samples : Array Nat) : Array Nat :=
  let channels := h.coding.channels
  match p.transparency with
  | some data =>
    withTransparent channels ((1 <<< h.bits) - 1) (transparentColor h.bits channels data) samples
  | none => samples

/-- The samples of an image, given those of its file. Gray of fewer than eight
bits is brought to the 8-bit scale. -/
def imageSamples? (h : Header) (p : Preamble) (samples : Array Nat) : Option (Array Nat) :=
  match h.coding with
  | .palette => p.palette.map fun palette => fromPalette palette p.transparency samples
  | .gray =>
    let keyed := withColorKey h p samples
    some (if h.bits < 8 then keyed.map fun v => v * 255 / ((1 <<< h.bits) - 1) else keyed)
  | .rgb => some (withColorKey h p samples)
  | .grayAlpha | .rgba => some samples

/-- The most bytes that the samples of an image may take. -/
def maxImageBytes : Nat := 536870912

def decode? (bytes : Bytes) : Option Image := do
  let chunks ← chunks? bytes
  let h ← header? (← chunks.head?)
  let (p, rest) ← preamble? h { } chunks.tail
  let model := colorModel h p
  if maxImageBytes < h.width * h.height * model.channels * h.depth.bytes then none
  let inflated := inflate (← pictureData? p rest)
  if inflated.ending = .damaged ∨ inflated.output.size < h.dataSize then none
  let samples ← passSamples h inflated.output (passes h.interlaced) 0
    (Array.replicate (h.width * h.height * h.coding.channels) 0)
  return ⟨h.width, h.height, model, h.depth, ← imageSamples? h p samples⟩

/-! ## Writing -/

def highFirst (n : Nat) : Bytes :=
  #[(n >>> 24).toUInt8, (n >>> 16).toUInt8, (n >>> 8).toUInt8, n.toUInt8]

def chunk (name : String) (data : Bytes) : Bytes :=
  let body := (name.toList.map fun c => c.toNat.toUInt8).toArray ++ data
  highFirst data.size ++ body ++ highFirst (crc body).toNat

/-- The rows of a picture, each behind the mark for no filter. -/
def filteredRows (p : Picture) : Bytes :=
  (List.range p.height).foldl (fun out y =>
    out.push 0 ++ p.data.extract (4 * (y * p.width)) (4 * ((y + 1) * p.width))) #[]

def blockLimit : Nat := 65535

def storedBlocks (data : Bytes) : Bytes :=
  let count := max 1 ((data.size + blockLimit - 1) / blockLimit)
  (List.range count).foldl (fun out k =>
    let block := data.extract (k * blockLimit) ((k + 1) * blockLimit)
    let size := block.size
    let complement := blockLimit - size
    let final : UInt8 := if k + 1 = count then 1 else 0
    out ++ #[final, size.toUInt8, (size / 256).toUInt8, complement.toUInt8,
      (complement / 256).toUInt8] ++ block) #[]

def encode (p : Picture) : Bytes :=
  let data := filteredRows p
  #[137, 80, 78, 71, 13, 10, 26, 10] ++
    chunk "IHDR" (highFirst p.width ++ highFirst p.height ++ #[8, 6, 0, 0, 0]) ++
    chunk "IDAT" (#[0x78, 0x01] ++ storedBlocks data ++ highFirst (adler data)) ++
    chunk "IEND" #[]

end PixelRecord.Png
