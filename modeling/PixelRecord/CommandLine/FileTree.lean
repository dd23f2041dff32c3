import PixelRecord.CommandLine.Commands
import PixelRecord.Png

/-!
A tree of files kept in memory, as commands see it: files and directories under
their places, and the place that relative paths start from. A path is followed
component by component, and each component but the last must lead to a directory
that is there: also one that is left again at once by two dots.
-/

namespace PixelRecord.CommandLine

inductive Content where
  | image (image : Image)
  | bytes (bytes : Bytes)
  deriving DecidableEq, Repr

/-- The image that a file holds, whatever the file is called. One with too many
samples is not read. -/
def Content.image? : Content → Option Image
  | .image m =>
    if Png.maxImageBytes < m.width * m.height * m.model.channels * m.depth.bytes then none
    else some m
  | .bytes data => Png.decode? data

inductive Node where
  | file (content : Content)
  | directory
  deriving DecidableEq, Repr

/-- A place: the names that lead to it from the root. -/
abbrev Place := List String

structure FileTree where
  nodes : List (Place × Node)
  /-- The directory that relative paths start from. -/
  home : Place
  deriving DecidableEq, Repr

namespace FileTree

/-- The tree with nothing but the directories on the way home. -/
def empty (home : Place) : FileTree := ⟨[], home⟩

/-- What there is at a place. The directories on the way home are always there. -/
def node? (t : FileTree) (place : Place) : Option Node :=
  if place.isPrefixOf t.home then some .directory else t.nodes.lookup place

/-- The tree with a node more, or with another node at a place. -/
def put (t : FileTree) (place : Place) (node : Node) : FileTree :=
  { t with nodes := (place, node) :: t.nodes.filter fun (other, _) => other ≠ place }

@[simp] theorem node?_put_self {t : FileTree} {place : Place} (node : Node)
    (h : place.isPrefixOf t.home = false) : (t.put place node).node? place = some node := by
  simp [node?, put, h, List.lookup_cons_self]

/-! ## Following paths -/

/-- Where a component leads to from a directory. -/
def step (place : Place) (name : String) : Place :=
  if name = "" ∨ name = "." then place
  else if name = ".." then place.dropLast
  else place ++ [name]

def start (t : FileTree) (path : String) : Place := if path.startsWith "/" then [] else t.home

/-- Where some components lead to from a place: each must start from a directory.
There need not be anything at the place that they lead to. -/
def follow? (t : FileTree) (place : Place) : List String → Option Place
  | [] => some place
  | name :: rest =>
    match t.node? place with
    | some .directory => t.follow? (step place name) rest
    | _ => none

def maxPath : Nat := 4095

def maxName : Nat := 255

def place? (t : FileTree) (path : String) : Option Place :=
  if path.isEmpty ∨ maxPath < path.utf8ByteSize then none
  else t.follow? (t.start path) (components path)

/-- Whether a file or directory can be created at a place, as far as its name
goes. -/
def admitsName (place : Place) : Bool :=
  match place.getLast? with
  | some name => name.utf8ByteSize ≤ maxName
  | none => false

/-! ## Reading -/

def file? (t : FileTree) (path : String) : Option Content :=
  match (t.place? path).bind t.node? with
  | some (.file content) => some content
  | _ => none

def text? (t : FileTree) (path : String) : Option String :=
  match t.file? path with
  | some (.bytes bytes) => String.fromUTF8? ⟨bytes⟩
  | _ => none

/-- The image of a file whose name says that it holds one. -/
def image? (t : FileTree) (path : String) : Option Image :=
  if namesImage path then (t.file? path).bind Content.image? else none

/-! ## Writing -/

/-- The tree after a file is written, if it can be: there must not be a directory
at its place. -/
def write? (t : FileTree) (path : String) (content : Content) : Option FileTree :=
  match t.place? path with
  | some place =>
    match t.node? place with
    | some .directory => none
    | some (.file _) => some (t.put place (.file content))
    | none => if admitsName place then some (t.put place (.file content)) else none
  | none => none

/-- The tree after directories are created along some components, as far as no
file is in the way, and whether none was. -/
def createAlong (t : FileTree) (place : Place) : List String → FileTree × Bool
  | [] => (t, true)
  | name :: rest =>
    let next := step place name
    match t.node? next with
    | some .directory => t.createAlong next rest
    | some (.file _) => (t, false)
    | none =>
      if admitsName next then (t.put next .directory).createAlong next rest else (t, false)

/-- The tree after the directory at a path is created with all that are above it,
and whether it is there then. The empty path stands for the directory that
relative paths start from. -/
def createDirectory (t : FileTree) (path : String) : FileTree × Bool :=
  if maxPath < path.utf8ByteSize then (t, false)
  else t.createAlong (t.start path) (components path)

def imageOf (p : Picture) : Image := ⟨p.width, p.height, .rgba, .eight, p.data.map UInt8.toNat⟩

/-- The machine whose files are the tree, and which runs tasks in the given order. -/
def machine (taskOrder : Nat → List Nat) : Machine (StateM FileTree) where
  readText path := return (← get).text? path
  openImage path := return (← get).image? path
  createDirectory path := do
    let (t, created) := (← get).createDirectory path
    set t
    return created
  writePicture path picture := do
    match (← get).write? path (.image (imageOf picture)) with
    | some t =>
      set t
      return true
    | none => return false
  taskOrder := taskOrder

def access : Machine (StateM FileTree) := machine List.range

end FileTree

end PixelRecord.CommandLine
