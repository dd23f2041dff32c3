import PixelRecord.Depth

/-!
The chunks of a PNG file, and what they say before the image data: the header,
the palette, the transparent color, and the numbers of animation frames. A chunk
that a reader can do without may be damaged; the others may not.

A file carries two checksums: the cyclic redundancy check of a chunk and the Adler sum of
its compressed data.
-/

namespace PixelRecord.Png

/-! ## Checksums -/

def crcStep (c : UInt32) : UInt32 := if c &&& 1 = 1 then (c >>> 1) ^^^ 0xEDB88320 else c >>> 1

def crcByte (c : UInt32) (b : UInt8) : UInt32 :=
  let c := c ^^^ b.toUInt32
  crcStep (crcStep (crcStep (crcStep (crcStep (crcStep (crcStep (crcStep c)))))))

def crc (bytes : Bytes) : UInt32 := ~~~(bytes.foldl crcByte (~~~0))

def adler (bytes : Bytes) : Nat :=
  let (a, b) := bytes.foldl (fun (a, b) v =>
    let a := (a + v.toNat) % 65521
    (a, (b + a) % 65521)) (1, 0)
  65536 * b + a

/-! ## Chunks -/

def signature : Bytes := #[137, 80, 78, 71, 13, 10, 26, 10]

/-- The number of two bytes, the high one first. -/
def word16 (bytes : Bytes) (i : Nat) : Nat :=
  (bytes.getD i 0).toNat * 256 + (bytes.getD (i + 1) 0).toNat

/-- The number of four bytes, the high one first. -/
def word32 (bytes : Bytes) (i : Nat) : Nat := word16 bytes i * 65536 + word16 bytes (i + 2)

inductive Condition where
  | intact
  /-- Its check does not fit it. -/
  | damaged
  /-- The file ends before it does. -/
  | cut
  deriving DecidableEq, Repr

/-- A part of a file, with the four letters that say what it is. -/
structure Chunk where
  name : String
  data : Bytes
  condition : Condition

/-- Whether an image cannot be understood without a chunk: its name opens with a
capital letter. -/
def Chunk.isCritical (c : Chunk) : Bool :=
  match c.name.toList with
  | letter :: _ => letter.toNat / 32 % 2 = 0
  | [] => true

/-- The chunks from byte `i` on. The last one may be cut, but not before its
data begin. -/
def chunksFrom (bytes : Bytes) : Nat → Nat → List Chunk
  | 0, _ => []
  | fuel + 1, i =>
    let start := i + 8
    let stop := start + word32 bytes i
    let letters := (bytes.extract (i + 4) start).toList.map fun b => Char.ofNat b.toNat
    let chunk := Chunk.mk (String.ofList letters) (bytes.extract start stop)
    if bytes.size < start then []
    else if bytes.size < stop + 4 then [chunk .cut]
    else
      let check := (crc (bytes.extract (i + 4) stop)).toNat
      chunk (if check = word32 bytes stop then .intact else .damaged) ::
        chunksFrom bytes fuel (stop + 4)

def chunks? (bytes : Bytes) : Option (List Chunk) :=
  if bytes.extract 0 8 = signature then some (chunksFrom bytes bytes.size 8) else none

/-! ## Header -/

inductive Coding where
  | gray
  | rgb
  | palette
  | grayAlpha
  | rgba
  deriving DecidableEq, Repr

def Coding.channels : Coding → Nat
  | .gray | .palette => 1
  | .grayAlpha => 2
  | .rgb => 3
  | .rgba => 4

/-- The coding with a given number, if samples of `bits` bits may have it. -/
def coding? (number bits : Nat) : Option Coding :=
  let oneOf (widths : List Nat) (c : Coding) : Option Coding :=
    if widths.contains bits then some c else none
  match number with
  | 0 => oneOf [1, 2, 4, 8, 16] .gray
  | 2 => oneOf [8, 16] .rgb
  | 3 => oneOf [1, 2, 4, 8] .palette
  | 4 => oneOf [8, 16] .grayAlpha
  | 6 => oneOf [8, 16] .rgba
  | _ => none

structure Header where
  width : Nat
  height : Nat
  bits : Nat
  coding : Coding
  interlaced : Bool

/-- The header in a chunk; bytes after the last fact are not looked at. -/
def header? (c : Chunk) : Option Header := do
  let byte (i : Nat) : Nat := (c.data.getD i 0).toNat
  let width := word32 c.data 0
  let height := word32 c.data 4
  let coding ← coding? (byte 9) (byte 8)
  if c.name = "IHDR" ∧ c.condition = .intact ∧ 13 ≤ c.data.size ∧ 0 < width ∧ 0 < height ∧
      byte 10 = 0 ∧ byte 11 = 0 ∧ byte 12 ≤ 1 then
    return ⟨width, height, byte 8, coding, byte 12 = 1⟩
  else none

/-! ## Before the image data -/

/-- What the chunks between the header and the image data say. -/
structure Preamble where
  /-- Colors of three bytes. -/
  palette : Option Bytes := none
  /-- The transparent color, or the alphas of the palette. -/
  transparency : Option Bytes := none
  /-- The number of the last part of an animation. -/
  frame : Option Nat := none

def maxColors : Nat := 256

/-- The preamble with a palette, which must be the only one and hold some whole
colors. -/
def Preamble.withPalette? (p : Preamble) (data : Bytes) : Option Preamble :=
  if p.palette.isNone ∧ 0 < data.size ∧ data.size % 3 = 0 ∧ data.size ≤ 3 * maxColors then
    some { p with palette := some data }
  else none

/-- The preamble with what a file says about transparency, if that is the first
word on it and fits the coding; alphas must come after their palette. -/
def Preamble.withTransparency (p : Preamble) (h : Header) (data : Bytes) : Preamble :=
  let fits : Bool := match h.coding with
    | .gray => 2 ≤ data.size
    | .rgb => 6 ≤ data.size
    | .palette => p.palette.isSome
    | .grayAlpha | .rgba => false
  if p.transparency.isNone ∧ fits then { p with transparency := some data } else p

/-- The number that the next part of an animation must have. -/
def Preamble.nextFrame (p : Preamble) : Nat :=
  match p.frame with
  | some n => n + 1
  | none => 0

/-- The preamble with the announcement of an animation frame. Before the image
data, a frame must be as large as the image. -/
def Preamble.withFrame? (p : Preamble) (h : Header) (data : Bytes) : Option Preamble :=
  let byte (i : Nat) : Nat := (data.getD i 0).toNat
  if 26 ≤ data.size ∧ word32 data 0 = p.nextFrame ∧ word32 data 4 = h.width ∧
      word32 data 8 = h.height ∧ word32 data 12 = 0 ∧ word32 data 16 = 0 ∧ byte 24 ≤ 2 ∧
      byte 25 ≤ 1 then
    some { p with frame := some p.nextFrame }
  else none

def Preamble.add? (h : Header) (p : Preamble) (c : Chunk) : Option Preamble :=
  match c.condition, c.name with
  | .cut, _ => none
  | .intact, "PLTE" => p.withPalette? c.data
  | .intact, "tRNS" => some (p.withTransparency h c.data)
  | .intact, "fcTL" => p.withFrame? h c.data
  | _, _ => if c.isCritical then none else some p

/-- The preamble, and the chunks from the image data on. -/
def preamble? (h : Header) (p : Preamble) : List Chunk → Option (Preamble × List Chunk)
  | [] => none
  | c :: rest =>
    if c.name = "IDAT" ∨ c.name = "fdAT" then some (p, c :: rest)
    else
      match p.add? h c with
      | some p => preamble? h p rest
      | none => none

/-! ## Image data -/

/-- The data of the image chunks that come first. The chunk after them must have
begun. -/
def imageData? : List Chunk → Option Bytes
  | [] => none
  | c :: rest =>
    if c.name ≠ "IDAT" then some #[]
    else if c.condition = .intact then (imageData? rest).map (c.data ++ ·)
    else none

/-- The data of the frame chunks that come first and are numbered from `number`
on. The chunk after them must have begun. -/
def frameData? (number : Nat) : List Chunk → Option Bytes
  | [] => none
  | c :: rest =>
    if c.name ≠ "fdAT" then some #[]
    else if c.condition ≠ .cut ∧ 4 ≤ c.data.size ∧ word32 c.data 0 = number then
      (frameData? (number + 1) rest).map (c.data.extract 4 c.data.size ++ ·)
    else none

/-- The compressed data of the first picture of a file: the image, or a frame
that comes before it, if one was announced. -/
def pictureData? (p : Preamble) (chunks : List Chunk) : Option Bytes :=
  match chunks, p.frame with
  | ⟨"fdAT", _, _⟩ :: _, none => none
  | ⟨"fdAT", _, _⟩ :: _, some n => frameData? (n + 1) chunks
  | _, _ => imageData? chunks

end PixelRecord.Png
