import PixelRecord.Depth

/-!
Decompression of data in the DEFLATE format: blocks that are stored as they are,
or that are written with prefix codes for literal bytes and for references to
bytes that came before.

Data can stop short, or break the format; what came out of them up to there is
kept, together with how they ended. A format that is broken only by what is
missing counts as data that stop short.

Bytes are read bit by bit, the low bit of each byte first. Past the last byte there are
only zeros; a reader that has taken any of those has run over the end. A prefix code is
given by the lengths of its symbols' codes: codes of one length are consecutive numbers,
in the order of the symbols. A code is complete if every sequence of bits starts with the
code of a symbol.
-/

namespace PixelRecord.Png

/-! ## Bits -/

structure Bits where
  bytes : Bytes
  pos : Nat

namespace Bits

def left (s : Bits) : Nat := 8 * s.bytes.size - s.pos

/-- Whether no bit was taken that is not there. -/
def isWithin (s : Bits) : Bool := s.pos ≤ 8 * s.bytes.size

def bit (s : Bits) : Nat × Bits :=
  (((s.bytes.getD (s.pos / 8) 0).toNat >>> (s.pos % 8)) % 2, { s with pos := s.pos + 1 })

/-- The number that the next `n` bits spell, the low bit first. -/
def take (s : Bits) : Nat → Nat × Bits
  | 0 => (0, s)
  | n + 1 =>
    let (low, s) := s.bit
    let (high, s) := s.take n
    (low + 2 * high, s)

def align (s : Bits) : Bits := { s with pos := (s.pos + 7) / 8 * 8 }

end Bits

/-! ## Canonical prefix codes -/

/-- A canonical prefix code: the symbols with codes of one bit, of two bits, and
so on. -/
abbrev PrefixCode := List (Array Nat)

namespace PrefixCode

def maxLength : Nat := 15

/-- The number of sequences of `maxLength` bits. -/
def sequences : Nat := 32768

/-- How many sequences of `maxLength` bits start with the code of a symbol, for
some symbols with codes of the given lengths. -/
def covered (lengths : List Nat) : Nat :=
  lengths.foldl (fun count length => if length = 0 then count else count + (sequences >>> length)) 0

def isComplete (lengths : List Nat) : Bool := covered lengths = sequences

/-- The code whose symbols have the given lengths; symbols of length zero are
not used. -/
def ofLengths (lengths : List Nat) : PrefixCode :=
  let symbols := lengths.zipIdx
  (List.range maxLength).map fun l =>
    ((symbols.filter fun (length, _) => length = l + 1).map (·.2)).toArray

/-- The symbol of the next code, after some bits of it that spell `code`; the
codes of that many bits end below `first`. -/
def symbolFrom? (code first : Nat) (s : Bits) : PrefixCode → Option (Nat × Bits)
  | [] => none
  | symbols :: longer =>
    let (bit, s) := s.bit
    let code := 2 * code + bit
    let first := 2 * first
    match if first ≤ code then symbols[code - first]? else none with
    | some symbol => some (symbol, s)
    | none => symbolFrom? code (first + symbols.size) s longer

/-- The symbol of the next code, if the next bits start with one. -/
def symbol? (c : PrefixCode) (s : Bits) : Option (Nat × Bits) := symbolFrom? 0 0 s c

end PrefixCode

/-! ## Data and how they end -/

inductive Ending where
  /-- The last block was read to its end. -/
  | complete
  /-- The data stop before their last block does. -/
  | cut
  /-- The data break the format. -/
  | damaged
  deriving DecidableEq, Repr

/-- What compressed data stand for, as far as they can be read. -/
structure Inflated where
  output : Bytes
  ending : Ending

/-- The output up to some place, and the bits after it unless the data end
there. -/
abbrev Progress := Bytes × Except Ending Bits

/-! ## Codes -/

def endOfBlock : Nat := 256

/-- The code of literals with the given lengths. It must be complete and able to
end the block. -/
def literalCode (lengths : List Nat) : Except Ending PrefixCode :=
  if lengths.getD endOfBlock 0 ≠ 0 ∧ PrefixCode.isComplete lengths then .ok (.ofLengths lengths)
  else .error .damaged

/-- The code of distances with the given lengths. It must be complete, or have
no symbol, or one whose code is a single bit. -/
def distanceCode (lengths : List Nat) : Except Ending PrefixCode :=
  let used := lengths.filter (· ≠ 0)
  if used = [] ∨ used = [1] ∨ PrefixCode.isComplete lengths then .ok (.ofLengths lengths)
  else .error .damaged

def fixedLiterals : PrefixCode :=
  .ofLengths (List.replicate 144 8 ++ List.replicate 112 9 ++ List.replicate 24 7 ++
    List.replicate 8 8)

def fixedDistances : PrefixCode := .ofLengths (List.replicate 30 5)

/-- The order in which the lengths of the codes for lengths are given. -/
def lengthOrder : List Nat := [16, 17, 18, 0, 8, 7, 9, 6, 10, 5, 11, 4, 12, 3, 13, 2, 14, 1, 15]

def triples (s : Bits) : Nat → Except Ending (List Nat × Bits)
  | 0 => .ok ([], s)
  | n + 1 =>
    if s.left < 3 then .error .cut
    else do
      let (v, s) := s.take 3
      let (vs, s) ← triples s n
      return (v :: vs, s)

/-- The length that a symbol repeats, the least count, and the number of bits
that are added to it. -/
def repetition (symbol : Nat) (last : Option Nat) : Option Nat × Nat × Nat :=
  if symbol = 16 then (last, 3, 2) else if symbol = 17 then (some 0, 3, 3) else (some 0, 11, 7)

/-- Code lengths up to `count` of them, after those in `found`. Symbols from 16
on repeat a length. Each symbol takes one unit of fuel; seven bits have to be
there for it, even if its code has fewer. -/
def codeLengths (code : PrefixCode) (count : Nat) :
    Nat → Bits → Array Nat → Except Ending (Array Nat × Bits)
  | 0, _, _ => .error .damaged
  | fuel + 1, s, found =>
    if found.size = count then .ok (found, s)
    else if s.left < 7 then .error .cut
    else
      match code.symbol? s with
      | none => .error .damaged
      | some (symbol, s) =>
        if symbol < 16 then codeLengths code count fuel s (found.push symbol)
        else
          let (length, least, bits) := repetition symbol found.back?
          let (more, s) := s.take bits
          if !s.isWithin then .error .cut
          else
            match length with
            | some length =>
              if found.size + least + more ≤ count then
                codeLengths code count fuel s (found ++ Array.replicate (least + more) length)
              else .error .damaged
            | none => .error .damaged

/-- The most symbols for literals and for distances that a block can describe. -/
def symbolLimits : Nat × Nat := (286, 30)

/-- The two codes that a block describes before it uses them. -/
def describedCodes (s : Bits) : Except Ending ((PrefixCode × PrefixCode) × Bits) := do
  if s.left < 14 then throw .cut
  let (literals, s) := s.take 5
  let (distances, s) := s.take 5
  let (lengths, s) := s.take 4
  let literals := literals + 257
  let distances := distances + 1
  if symbolLimits.1 < literals ∨ symbolLimits.2 < distances then throw .damaged
  let (given, s) ← triples s (lengths + 4)
  let order := lengthOrder.zip given
  let lengths := (List.range 19).map fun i => (order.lookup i).getD 0
  if !PrefixCode.isComplete lengths then throw .damaged
  let count := literals + distances
  let (found, s) ← codeLengths (.ofLengths lengths) count (count + 1) s #[]
  return ((← literalCode (found.toList.take literals),
    ← distanceCode (found.toList.drop literals)), s)

/-! ## Blocks -/

/-- Lengths of references: for each symbol from 257 on, the least length and the
number of bits that are added to it. -/
def lengthTable : Array (Nat × Nat) :=
  #[(3, 0), (4, 0), (5, 0), (6, 0), (7, 0), (8, 0), (9, 0), (10, 0), (11, 1), (13, 1), (15, 1),
    (17, 1), (19, 2), (23, 2), (27, 2), (31, 2), (35, 3), (43, 3), (51, 3), (59, 3), (67, 4),
    (83, 4), (99, 4), (115, 4), (131, 5), (163, 5), (195, 5), (227, 5), (258, 0)]

/-- Distances of references: the least distance, and the number of bits that are
added to it. -/
def distanceTable : Array (Nat × Nat) :=
  #[(1, 0), (2, 0), (3, 0), (4, 0), (5, 1), (7, 1), (9, 2), (13, 2), (17, 3), (25, 3), (33, 4),
    (49, 4), (65, 5), (97, 5), (129, 6), (193, 6), (257, 7), (385, 7), (513, 8), (769, 8),
    (1025, 9), (1537, 9), (2049, 10), (3073, 10), (4097, 11), (6145, 11), (8193, 12), (12289, 12),
    (16385, 13), (24577, 13)]

inductive Meaning where
  | literal (byte : UInt8)
  /-- A reference with a least length and a number of bits that are added. -/
  | reference (least extra : Nat)
  | stop

/-- The meaning of a symbol. The symbols after the last length stand in no
described code; like the one before the first length, they end the block. -/
def meaning (symbol : Nat) : Meaning :=
  if symbol < endOfBlock then .literal symbol.toUInt8
  else if symbol = endOfBlock then .stop
  else
    match lengthTable[symbol - (endOfBlock + 1)]? with
    | some (least, extra) => .reference least extra
    | none => .stop

def distance? (distances : PrefixCode) (s : Bits) : Option (Nat × Bits) := do
  let (symbol, s) ← distances.symbol? s
  let (least, extra) ← distanceTable[symbol]?
  let (more, s) := s.take extra
  return (least + more, s)

/-- Appends `count` bytes, each a copy of the one `distance` bytes before it. -/
def copyBack (distance : Nat) : Nat → Bytes → Bytes
  | 0, out => out
  | count + 1, out => copyBack distance count (out.push (out.getD (out.size - distance) 0))

/-- The output after a block written with codes. Each symbol takes one unit of
fuel and at least one bit; a symbol counts only if all its bits are there. -/
def codedBlock (literals distances : PrefixCode) : Nat → Bits → Bytes → Progress
  | 0, _, out => (out, .error .damaged)
  | fuel + 1, s, out =>
    match literals.symbol? s with
    | none => (out, .error .damaged)
    | some (symbol, s) =>
      match meaning symbol with
      | .literal byte =>
        if s.isWithin then codedBlock literals distances fuel s (out.push byte)
        else (out, .error .cut)
      | .stop => (out, if s.isWithin then .ok s else .error .cut)
      | .reference least extra =>
        let (more, s) := s.take extra
        match distance? distances s with
        | none => (out, .error .damaged)
        | some (distance, s) =>
          if !s.isWithin then (out, .error .cut)
          else if out.size < distance then (out, .error .damaged)
          else codedBlock literals distances fuel s (copyBack distance (least + more) out)

/-- The output after a block of bytes stored as they are; of a block that is cut,
after the bytes that are there. -/
def storedBlock (s : Bits) (out : Bytes) : Progress :=
  let s := s.align
  if s.left < 32 then (out, .error .cut)
  else
    let (count, s) := s.take 16
    let (complement, s) := s.take 16
    let start := s.pos / 8
    if count + complement ≠ 65535 then (out, .error .damaged)
    else
      (out ++ s.bytes.extract start (start + count),
        if start + count ≤ s.bytes.size then .ok { s with pos := s.pos + 8 * count }
        else .error .cut)

def block (kind : Nat) (s : Bits) (out : Bytes) : Progress :=
  match kind with
  | 0 => storedBlock s out
  | 1 => codedBlock fixedLiterals fixedDistances (s.left + 1) s out
  | 2 =>
    match describedCodes s with
    | .error ending => (out, .error ending)
    | .ok ((literals, distances), s) => codedBlock literals distances (s.left + 1) s out
  | _ => (out, .error .damaged)

/-- The output after all blocks. The shortest block has ten bits, and fewer are
not looked at. -/
def blocks : Nat → Bits → Bytes → Inflated
  | 0, _, out => ⟨out, .damaged⟩
  | fuel + 1, s, out =>
    if s.left < 10 then ⟨out, .cut⟩
    else
      let (final, s) := s.bit
      let (kind, s) := s.take 2
      match block kind s out with
      | (out, .error ending) => ⟨out, ending⟩
      | (out, .ok s) => if final = 1 then ⟨out, .complete⟩ else blocks fuel s out

/-- Whether two bytes announce compressed data of this format: they name the
method and a window of at most 32768 bytes, ask for no dictionary, and are, as
one number, a multiple of 31. -/
def announcesDeflate (first second : Nat) : Bool :=
  first % 16 = 8 && first / 16 ≤ 7 && second / 32 % 2 = 0 && (256 * first + second) % 31 = 0

/-- What compressed data stand for that open with two bytes of announcement. The
checksum that may follow the blocks is not looked at. -/
def inflate (data : Bytes) : Inflated :=
  if data.size < 2 then ⟨#[], .cut⟩
  else if announcesDeflate (data.getD 0 0).toNat (data.getD 1 0).toNat then
    blocks (8 * data.size + 1) ⟨data, 16⟩ #[]
  else ⟨#[], .damaged⟩

end PixelRecord.Png
