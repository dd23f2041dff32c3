/-!
Why a call stops. A call is *refused* when its caller broke a contract that the
call checks first; the cause is an `Error`, its wording is `Error.message`. A
call runs into a `Fault` when a step that nothing guards cannot be taken: bytes
outside a buffer, a division by zero, a count that no word holds, or more digits
than a number is written with. The two are kept apart because a refused call has
touched nothing, and no such promise is made for a fault.

A text that names nothing is one of the causes, so names are read here as well: without
the white space around them, which is white space as the Unicode property `White_Space`
has it, and without regard to the case of ASCII letters.
-/

namespace PixelRecord

/-- A step that cannot be taken and that no contract check stands in front of. -/
inductive Fault where
  /-- Bytes were addressed that the buffer, or the channel, does not have. -/
  | outOfRange
  /-- A quotient was taken with divisor zero. -/
  | divisionByZero
  /-- A count was worked out that 64 bits do not hold. -/
  | overflow
  /-- A number was asked for with more digits after its point than can be worked
  out. -/
  | tooManyPlaces
  deriving DecidableEq, Repr

inductive ErrorKind where
  | validation
  | buffer
  | channel
  | serialization
  | other
  deriving DecidableEq, Repr

/-- The words that open every message of a family. -/
def ErrorKind.label : ErrorKind → String
  | .validation => "validation error: "
  | .buffer => "buffer error: "
  | .channel => "channel error: "
  | .serialization => "serialization error: "
  | .other => ""

/-- The cause of a refusal. Where a cause can arise in several calls, `what`
names the buffer that was too small. -/
inductive Error where
  | emptyLayout
  | brokenRecord (start stop cursor : Nat)
  | twoAlphas
  | noAlpha
  | unknownOp (text : String)
  | unknownSpace (text : String)
  | spaceTaken (name : String)
  | spaceMissing (name : String)
  | nothingToMix
  | weightCount (records weights : Nat)
  | zeroRowsPerTask
  | zeroThreads
  | countOverflow (what : String) (count : Nat)
  | shortBuffer (what : String) (size count needed : Nat)
  | rowOverflow
  | narrowStride (what : String) (stride rowBytes : Nat)
  | rectangleOverflow (what : String)
  | shortRectangle (what : String) (size rows needed : Nat)
  | pictureOverflow (width height : Nat)
  | shortPicture (size count needed : Nat)
  | shortSource (size count needed : Nat)
  | noSuchChannel (index count : Nat)
  | malformedSettings
  | unreadableSettings (path : String)
  deriving DecidableEq, Repr

def Error.kind : Error → ErrorKind
  | .emptyLayout | .brokenRecord .. | .twoAlphas | .noAlpha | .unknownOp _ | .unknownSpace _
  | .spaceTaken _ | .spaceMissing _ | .nothingToMix | .weightCount .. | .zeroRowsPerTask
  | .zeroThreads => .validation
  | .countOverflow .. | .shortBuffer .. | .rowOverflow | .narrowStride .. | .rectangleOverflow _
  | .shortRectangle .. | .pictureOverflow .. | .shortPicture .. | .shortSource .. => .buffer
  | .noSuchChannel .. => .channel
  | .malformedSettings => .serialization
  | .unreadableSettings _ => .other

/-- What the message of a cause says after its family's opening words. -/
def Error.detail : Error → String
  | .emptyLayout => "pixel layout needs at least one channel"
  | .brokenRecord start stop cursor =>
    s!"channel bytes {start}..{stop} do not continue the record at offset {cursor}"
  | .twoAlphas => "pixel layout declares two alpha channels"
  | .noAlpha => "set_alpha on a layout without alpha"
  | .unknownOp text => s!"unknown composite op '{text}'"
  | .unknownSpace text => s!"unknown color space '{text}'"
  | .spaceTaken name => s!"color space '{name}' is already registered"
  | .spaceMissing name => s!"color space '{name}' is not registered"
  | .nothingToMix => "mix_colors needs at least one pixel"
  | .weightCount records weights => s!"mix_colors got {records} pixels but {weights} weights"
  | .zeroRowsPerTask => "display threading 'rows_per_task' must be >= 1"
  | .zeroThreads => "display threading 'threads' must be >= 1 when set"
  | .countOverflow what count => s!"{what}: pixel count {count} overflows the address space"
  | .shortBuffer what size count needed =>
    s!"{what}: buffer holds {size} bytes, {count} pixels need {needed}"
  | .rowOverflow => "composite row width overflows"
  | .narrowStride what stride rowBytes =>
    s!"{what}: stride {stride} is smaller than a row of {rowBytes} bytes"
  | .rectangleOverflow what => s!"{what}: rectangle size overflows"
  | .shortRectangle what size rows needed =>
    s!"{what}: buffer holds {size} bytes, {rows} rows need {needed}"
  | .pictureOverflow width height => s!"display size {width}x{height} overflows"
  | .shortPicture size count needed =>
    s!"display output holds {size} bytes, {count} pixels need {needed}"
  | .shortSource size count needed =>
    s!"display source holds {size} bytes, {count} pixels need {needed}"
  | .noSuchChannel index count =>
    s!"channel index {index} out of range (layout has {count} channels)"
  | .malformedSettings => "the settings are not well formed"
  | .unreadableSettings path => s!"read settings '{path}'"

def Error.message (e : Error) : String := e.kind.label ++ e.detail

/-- How a call can end without an answer. -/
inductive Failure where
  | refused (error : Error)
  | fault (fault : Fault)
  deriving DecidableEq, Repr

/-! ### Names -/

namespace Text

/-- The ranges of code points with the property `White_Space`. -/
def blankRanges : List (Nat × Nat) :=
  [(0x9, 0xD), (0x20, 0x20), (0x85, 0x85), (0xA0, 0xA0), (0x1680, 0x1680), (0x2000, 0x200A),
    (0x2028, 0x2029), (0x202F, 0x202F), (0x205F, 0x205F), (0x3000, 0x3000)]

def isBlank (c : Char) : Bool := blankRanges.any fun (lo, hi) => lo ≤ c.toNat && c.toNat ≤ hi

/-- The characters without the white space at both ends. -/
def trim (cs : List Char) : List Char :=
  ((cs.dropWhile isBlank).reverse.dropWhile isBlank).reverse

/-- Whether two texts differ at most in the case of ASCII letters. -/
def sameIgnoringCase (a b : List Char) : Bool := a.map Char.toLower == b.map Char.toLower

/-- The first of some named values whose name is the trimmed text, letter case
aside; the trimmed text itself if there is none. -/
def byName {α : Type} (all : List α) (name : α → String) (text : String) : Except String α :=
  let trimmed := trim text.toList
  match all.find? fun a => sameIgnoringCase (name a).toList trimmed with
  | some a => .ok a
  | none => .error (String.ofList trimmed)

end Text

end PixelRecord
