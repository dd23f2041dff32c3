import PixelRecord.CommandLine.Arguments
import PixelRecord.Composite.Rectangle
import PixelRecord.Image
import PixelRecord.Settings
import PixelRecord.Space

/-!
The commands. They see files and threads only through a `Machine`, so that the
same command works on a tree of files kept in memory and on the machine at hand.
A command answers with what it prints, or with the first thing that went wrong;
nothing is written before everything has been read and checked.

Paths are texts with slashes between their components. Empty components and,
after the first, single dots do not count.
-/

namespace PixelRecord.CommandLine

/-! ### Paths -/

/-- A reversed path without the slashes and single dots that end the path. -/
def withoutTail : List Char → List Char
  | '/' :: rest => withoutTail rest
  | '.' :: '/' :: rest => withoutTail rest
  | reversed => reversed

/-- The directory that a path lies in: empty for a path of one component, and
none for a path without components. -/
def parent? (path : String) : Option String :=
  let reversed := withoutTail path.toList.reverse
  let above := reversed.dropWhile (· ≠ '/')
  if reversed.isEmpty then none
  else if above.isEmpty then some ""
  else
    let above := withoutTail above
    some (if above.isEmpty then "/" else String.ofList above.reverse)

/-- The parts of a text that lie between separators. -/
def split (separator : Char) : List Char → List (List Char)
  | [] => [[]]
  | c :: rest =>
    if c = separator then [] :: split separator rest
    else
      match split separator rest with
      | [] => [[c]]
      | first :: others => (c :: first) :: others

def splitText (separator : Char) (text : String) : List String :=
  (split separator text.toList).map String.ofList

def components (path : String) : List String := splitText '/' path

/-- The last component of a path that can name a file: it is neither empty nor
made of dots alone. -/
def fileName? (path : String) : Option String :=
  match (components path).getLast? with
  | some last => if ["", ".", ".."].contains last then none else some last
  | none => none

/-- The ending of a file name, in lower case: what follows its last point, unless
the name starts with that point. -/
def ending (name : String) : String :=
  match (splitText '.' name).reverse with
  | [_, ""] => ""
  | last :: _ :: _ => String.ofList (last.toList.map Char.toLower)
  | _ => ""

/-- Whether a path says that its file holds an image of the one kind that is
read. -/
def namesImage (path : String) : Bool :=
  match fileName? path with
  | some name => ["png", "apng"].contains (ending name)
  | none => false

/-! ### Commands -/

structure Machine (m : Type → Type) where
  /-- The text of a file, if there is such a file and it holds text. -/
  readText : String → m (Option String)
  /-- The image in a file, if there is one that can be read. -/
  openImage : String → m (Option Image)
  /-- Creates a directory with all that are above it; whether it is there then. -/
  createDirectory : String → m Bool
  /-- Writes a picture into a file; whether it was written. -/
  writePicture : String → Picture → m Bool
  /-- The order in which so many tasks come to their end. -/
  taskOrder : Nat → List Nat

inductive CommandError where
  | failed (failure : Failure)
  | noImage (path : String)
  | sourceSize (source destination : Nat × Nat)
  | maskSize (mask destination : Nat × Nat)
  | noDirectory (path : String)
  | notWritten (path : String)
  deriving DecidableEq, Repr

/-- What a command prints: its output, and notes that are not part of it. -/
structure Report where
  output : String := ""
  notes : String := ""
  deriving DecidableEq, Repr

def writtenNote (path : String) : String := s!"wrote {path}\n"

def sizeText (size : Nat × Nat) : String :=
  let (width, height) := size
  s!"{width}x{height}"

def CommandError.message : CommandError → String
  | .failed (.refused e) => e.message
  | .failed (.fault _) => "internal fault"
  | .noImage path => s!"open image '{path}'"
  | .sourceSize source destination =>
    "source is " ++ sizeText source ++ ", destination is " ++ sizeText destination
  | .maskSize mask destination =>
    "mask is " ++ sizeText mask ++ ", destination is " ++ sizeText destination
  | .noDirectory path => s!"create output dir '{path}'"
  | .notWritten path => s!"write png '{path}'"

def CommandError.line (e : CommandError) : String := "Error: " ++ e.message

section

variable {m : Type → Type} [Monad m]

/-- A step that may fail, with the error for the case that it does. -/
def orError {α : Type} (e : CommandError) (step : m (Option α)) : ExceptT CommandError m α := do
  match ← step with
  | some a => return a
  | none => throw e

def liftFailure {α : Type} (r : Except Failure α) : ExceptT CommandError m α :=
  match r with
  | .ok a => return a
  | .error e => throw (.failed e)

def loadSettings (machine : Machine m) : Option String → ExceptT CommandError m Settings
  | none => return Settings.default
  | some path => do
    let text ← orError (.failed (.refused (.unreadableSettings path))) (machine.readText path)
    match Settings.ofText text with
    | .ok settings => return settings
    | .error e => throw (.failed (.refused e))

def openImage (machine : Machine m) (path : String) : ExceptT CommandError m Image :=
  orError (.noImage path) (machine.openImage path)

/-- The mask in a file, which must have the size of the destination. -/
def openMask (machine : Machine m) (size : Nat × Nat) :
    Option String → ExceptT CommandError m (Option Mask)
  | none => return none
  | some path => do
    let image ← openImage machine path
    if (image.width, image.height) = size then return some ⟨image.luminance8, image.width⟩
    else throw (.maskSize (image.width, image.height) size)

/-- Writes a picture into a file, after creating the directory that it lies in. -/
def savePicture (machine : Machine m) (path : String) (picture : Picture) :
    ExceptT CommandError m Unit := do
  match parent? path with
  | some parent => unless ← machine.createDirectory parent do throw (.noDirectory parent)
  | none => pure ()
  unless ← machine.writePicture path picture do throw (.notWritten path)

/-- The channel table of a space, with the names of fields in alphabetical order. -/
def infoJson (s : Space) : Json :=
  .ofMembers
    [("bit_depth", .ofNat s.id.bitDepth),
      ("channels", .array (s.layout.channels.map fun ch =>
        .ofMembers [("kind", ch.kind.toJson), ("name", .ofText ch.name),
          ("position", .ofNat ch.position), ("size", .ofNat ch.size)])),
      ("has_alpha", .bool s.layout.hasAlpha),
      ("id", s.id.toJson),
      ("pixel_size", .ofNat s.recordSize)]

/-- What compositing with a request makes of the images, up to the picture. -/
def compositeImages (taskOrder : Nat → List Nat) (s : Space) (op : Op) (opacity : UInt8)
    (threading : Threading) (destination source : Image) (mask : Option Mask) :
    Except Failure Picture :=
  let width := destination.width
  let height := destination.height
  let stride := width * s.recordSize
  let surface : Surface := ⟨source.records s.id.depth, stride⟩
  match (s.composite stride surface mask ⟨height, width, opacity, op⟩).on
      (destination.records s.id.depth) with
  | (.error e, _) => .error e
  | (.ok (), records) =>
    Format.Checked.toPictureWith s.toFormat taskOrder threading records width height

def runComposite (machine : Machine m) (catalog : Catalog) (request : CompositeRequest) :
    ExceptT CommandError m Unit := do
  let settings ← loadSettings machine request.settings
  let op := request.op.getD settings.op
  let space ← liftFailure ((catalog.get (request.space.getD settings.space)).mapError .refused)
  let destination ← openImage machine request.destination
  let source ← openImage machine request.source
  let size := (destination.width, destination.height)
  unless (source.width, source.height) = size do
    throw (.sourceSize (source.width, source.height) size)
  let mask ← openMask machine size request.mask
  let picture ← liftFailure
    (compositeImages machine.taskOrder space op request.opacity settings.threading destination
      source mask)
  savePicture machine request.output picture

def runPreview (machine : Machine m) (catalog : Catalog) (input : String) (space : SpaceId)
    (output : String) : ExceptT CommandError m Unit := do
  let space ← liftFailure ((catalog.get space).mapError .refused)
  let image ← openImage machine input
  let picture ← liftFailure
    (space.toPicture (image.records space.id.depth) image.width image.height 0 0)
  savePicture machine output picture

def Command.run (machine : Machine m) (catalog : Catalog) :
    Command → ExceptT CommandError m Report
  | .info space => do
    let space ← liftFailure ((catalog.get space).mapError .refused)
    return { output := String.ofList (infoJson space).pretty ++ "\n" }
  | .composite request => do
    runComposite machine catalog request
    return { notes := writtenNote request.output }
  | .preview input space output => do
    runPreview machine catalog input space output
    return { notes := writtenNote output }

/-- How the program ends: its exit status, and what it has printed by then. -/
structure Ending where
  status : UInt32
  report : Report
  deriving DecidableEq, Repr

def Ending.ofResult : Except CommandError Report → Ending
  | .ok report => ⟨0, report⟩
  | .error (.failed (.fault f)) => ⟨101, { notes := (CommandError.failed (.fault f)).line ++ "\n" }⟩
  | .error e => ⟨1, { notes := e.line ++ "\n" }⟩

/-- Does what a line asks for. A line that is not understood ends with status 2, a
command that went wrong with status 1. -/
def Invocation.perform (machine : Machine m) (catalog : Catalog) : Invocation → m Ending
  | .version => return ⟨0, { output := versionText }⟩
  | .help => return ⟨0, { output := helpText }⟩
  | .misuse => return ⟨2, { notes := helpText }⟩
  | .run command => return .ofResult (← (command.run machine catalog).run)

end

end PixelRecord.CommandLine
