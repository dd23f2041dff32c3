import PixelRecord.DeviceColor

/-!
Color spaces: a pixel format under an id. The built-in spaces have red, green,
blue and alpha, stored blue first, at either depth.

A catalog has at most one space under each id. Registering under an id that is taken
is refused and leaves the catalog as it was, and looking for a space never changes it,
so what a catalog answers for an id never changes once it answers at all.
-/

namespace PixelRecord

inductive SpaceId where
  | rgba8
  | rgba16
  deriving DecidableEq, Repr

namespace SpaceId

/-- Every id, in ascending order. -/
def all : List SpaceId := [.rgba8, .rgba16]

def name : SpaceId → String
  | .rgba8 => "RGBA"
  | .rgba16 => "RGBA16"

def bitDepth : SpaceId → Nat
  | .rgba8 => 8
  | .rgba16 => 16

/-- The depth that the built-in space of an id stores its channels in. -/
def depth : SpaceId → Depth
  | .rgba8 => .eight
  | .rgba16 => .sixteen

/-- The place of an id in the ascending order. -/
def rank : SpaceId → Nat
  | .rgba8 => 0
  | .rgba16 => 1

theorem rank_injective {a b : SpaceId} (h : a.rank = b.rank) : a = b := by
  cases a <;> cases b <;> simp_all [rank]

def ofText (text : String) : Except Error SpaceId :=
  (Text.byName all name text).mapError .unknownSpace

end SpaceId

/-- A pixel format under an id. -/
structure Space extends Format where
  id : SpaceId
  deriving DecidableEq

namespace Space

def builtin (id : SpaceId) : Space := ⟨⟨id.depth, Layout.bgra id.depth⟩, id⟩

/-- The record for fresh pixels: every byte is zero. -/
def defaultPixel (s : Space) : Bytes := Array.replicate s.recordSize 0

end Space

/-! ### Catalogs -/

/-- Spaces in ascending order of their ids. -/
structure Catalog where
  spaces : List Space
  deriving DecidableEq

namespace Catalog

def empty : Catalog := ⟨[]⟩

def builtin : Catalog := ⟨SpaceId.all.map Space.builtin⟩

def ids (c : Catalog) : List SpaceId := c.spaces.map (·.id)

def size (c : Catalog) : Nat := c.spaces.length

def isEmpty (c : Catalog) : Bool := c.spaces.isEmpty

def find? (c : Catalog) (id : SpaceId) : Option Space := c.spaces.find? fun s => s.id = id

def get (c : Catalog) (id : SpaceId) : Except Error Space :=
  match c.find? id with
  | some s => .ok s
  | none => .error (.spaceMissing id.name)

def getByName (c : Catalog) (text : String) : Except Error Space := do c.get (← SpaceId.ofText text)

/-- The list with a space before the first one whose id is not lower. -/
def insertOrdered (s : Space) : List Space → List Space
  | [] => [s]
  | t :: rest => if s.id.rank ≤ t.id.rank then s :: t :: rest else t :: insertOrdered s rest

def register (c : Catalog) (s : Space) : Except Error Catalog :=
  if (c.find? s.id).isSome then .error (.spaceTaken s.id.name)
  else .ok ⟨insertOrdered s c.spaces⟩

/-! ### Calls on one catalog, one after the other -/

inductive Call where
  | register (space : Space)
  | get (id : SpaceId)
  | getByName (text : String)
  deriving DecidableEq

/-- The answer of a call, a space if it was asked for one, and the catalog after it. -/
def perform (c : Catalog) : Call → Except Error (Option Space) × Catalog
  | .register s =>
    match c.register s with
    | .ok after => (.ok none, after)
    | .error e => (.error e, c)
  | .get id => ((c.get id).map some, c)
  | .getByName text => ((c.getByName text).map some, c)

/-- The catalog after some calls. -/
def run (c : Catalog) : List Call → Catalog
  | [] => c
  | call :: rest => (c.perform call).2.run rest

/-- The answers of some calls. -/
def answers (c : Catalog) : List Call → List (Except Error (Option Space))
  | [] => []
  | call :: rest => (c.perform call).1 :: (c.perform call).2.answers rest

end Catalog

end PixelRecord
