import PixelRecord.Composite.Op
import PixelRecord.Json.Decode
import PixelRecord.Picture
import PixelRecord.Space

/-!
Settings: the space, the operation and the threading that commands work with
unless told otherwise. They are read from JSON, where every field may be left
out and no other field may be given, and checked after reading. In JSON the single
values, which are ids, operations and channel kinds, are their names; colors and
threading are objects.
-/

namespace PixelRecord

/-! ### Single values -/

def SpaceId.toJson (id : SpaceId) : Json := .ofText id.name

def SpaceId.ofJson? : Json → Option SpaceId := Json.named? all name

def Op.toJson (op : Op) : Json := .ofText op.name

def Op.ofJson? : Json → Option Op := Json.named? all name

def ChannelKind.toJson (kind : ChannelKind) : Json := .ofText kind.name

def ChannelKind.ofJson? : Json → Option ChannelKind := Json.named? all name

def Json.byte? (j : Json) : Option UInt8 := (j.nat? UInt8.size).map Nat.toUInt8

def Json.word? (j : Json) : Option UInt64 := (j.nat? UInt64.size).map Nat.toUInt64

namespace DeviceColor

def toJson (c : DeviceColor) : Json :=
  .ofMembers [("r", .ofNat c.r.toNat), ("g", .ofNat c.g.toNat), ("b", .ofNat c.b.toNat)]

/-- All three components must be given. -/
def ofJson? (j : Json) : Option DeviceColor :=
  match j.fields? false ["r", "g", "b"] with
  | some [some r, some g, some b] => do
    return ⟨← r.byte?, ← g.byte?, ← b.byte?⟩
  | _ => none

end DeviceColor

/-- The JSON form of an integer that may be absent. -/
def Json.ofNat? : Option UInt64 → Json
  | none => .null
  | some n => .ofNat n.toNat

namespace Threading

def toJson (t : Threading) : Json :=
  .ofMembers [("parallel", .bool t.parallel), ("rows_per_task", .ofNat t.rowsPerTask.toNat),
    ("threads", .ofNat? t.threads)]

/-- A field that is left out has its default value. -/
def ofJson? (j : Json) : Option Threading :=
  match j.fields? false ["parallel", "rows_per_task", "threads"] with
  | some [parallel, rowsPerTask, threads] => do
    return ⟨← Json.orElse default.parallel Json.bool? parallel,
      ← Json.orElse default.rowsPerTask Json.word? rowsPerTask,
      ← Json.orElse default.threads (Json.nullable? Json.word?) threads⟩
  | _ => none

end Threading

/-! ### Settings -/

structure Settings where
  space : SpaceId
  op : Op
  threading : Threading
  deriving DecidableEq, Repr

namespace Settings

def default : Settings := ⟨.rgba16, Op.default, Threading.default⟩

def check (s : Settings) : Except Error Unit := s.threading.check

def toJson (s : Settings) : Json :=
  .ofMembers [("color_space", s.space.toJson), ("composite_op", s.op.toJson),
    ("display", s.threading.toJson)]

/-- A field that is left out has its default value; no other fields are allowed. -/
def ofJson? (j : Json) : Option Settings :=
  match j.fields? true ["color_space", "composite_op", "display"] with
  | some [space, op, threading] => do
    return ⟨← Json.orElse default.space SpaceId.ofJson? space,
      ← Json.orElse default.op Op.ofJson? op,
      ← Json.orElse default.threading Threading.ofJson? threading⟩
  | _ => none

def ofText (text : String) : Except Error Settings :=
  match (Json.read? text.toList).bind ofJson? with
  | none => .error .malformedSettings
  | some s =>
    match s.check with
    | .ok () => .ok s
    | .error e => .error e

/-- The text of settings, one field a line. -/
def text (s : Settings) : String := String.ofList s.toJson.pretty

end Settings

end PixelRecord
