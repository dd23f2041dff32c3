import PixelRecord.Depth
import PixelRecord.Failure

/-!
Channels, and the channel table of a pixel record. A table is accepted only if
its channels, taken in the order of their positions, follow one another from
byte 0 on without gap or overlap, none is empty, and at most one is an alpha
channel. The order of declaration is free; it is the order in which colors are
numbered, not the order in memory.
-/

namespace PixelRecord

inductive ChannelKind where
  | color
  | alpha
  deriving DecidableEq, Repr

def ChannelKind.name : ChannelKind → String
  | .color => "color"
  | .alpha => "alpha"

def ChannelKind.all : List ChannelKind := [.color, .alpha]

/-- One channel of a record: its bytes are `position`, …, `position + size - 1`. -/
structure Channel where
  name : String
  position : Nat
  size : Nat
  kind : ChannelKind
  deriving DecidableEq, Repr

def Channel.stop (ch : Channel) : Nat := ch.position + ch.size

def Channel.isAlpha (ch : Channel) : Bool := ch.kind = .alpha

namespace Layout

/-- The number of bytes that 64 bits can address. -/
def addressSpace : Nat := 18446744073709551616

/-- Where a run of channels ends that starts at `cursor` and has each channel
begin where the one before it ends. -/
def runEnd (cursor : Nat) : List Channel → Except Error Nat
  | [] => .ok cursor
  | ch :: rest =>
    if ch.position = cursor ∧ 0 < ch.size then runEnd ch.stop rest
    else .error (.brokenRecord ch.position ch.stop cursor)

def byPosition (channels : List Channel) : List Channel :=
  channels.mergeSort fun a b => decide (a.position ≤ b.position)

/-- The size of the record that a channel table describes, if it describes one. -/
def extent (channels : List Channel) : Except Error Nat :=
  if channels.isEmpty then .error .emptyLayout
  else
    match runEnd 0 (byPosition channels) with
    | .error e => .error e
    | .ok size => if 1 < channels.countP Channel.isAlpha then .error .twoAlphas else .ok size

end Layout

/-- An accepted channel table: channels in the order of declaration, and the
bytes of a record. -/
structure Layout where
  channels : List Channel
  recordSize : Nat
  accepted : Layout.extent channels = .ok recordSize
  deriving DecidableEq

namespace Layout

def ofChannels (channels : List Channel) : Except Error Layout :=
  match h : extent channels with
  | .ok size => .ok ⟨channels, size, h⟩
  | .error e => .error e

/-- The table of a layout describes that layout. -/
theorem ofChannels_channels (l : Layout) : ofChannels l.channels = .ok l := by
  have h := l.accepted
  unfold ofChannels
  split
  · next size hs =>
    rw [h] at hs
    cases hs
    rfl
  · next e he =>
    rw [h] at he
    cases he

/-- Color channels, in the order of declaration. -/
def colors (l : Layout) : List Channel := l.channels.filter fun ch => !ch.isAlpha

/-- The alpha channel, if the record has one. -/
def alpha? (l : Layout) : Option Channel := l.channels.find? Channel.isAlpha

def hasAlpha (l : Layout) : Bool := l.alpha?.isSome

def channel (l : Layout) (index : Nat) : Except Error Channel :=
  match l.channels[index]? with
  | some ch => .ok ch
  | none => .error (.noSuchChannel index l.channels.length)

/-- Refuses a buffer of `size` bytes that holds fewer than `count` records.
The name `what` stands for the buffer in the message. -/
def checkRecords (l : Layout) (size count : Nat) (what : String) : Except Error Unit :=
  let needed := count * l.recordSize
  if addressSpace ≤ needed then .error (.countOverflow what count)
  else if size < needed then .error (.shortBuffer what size count needed)
  else .ok ()

/-- The four channels of a record with `s` bytes a channel: declared red, green,
blue, alpha, and stored blue, green, red, alpha. -/
def bgraChannels (s : Nat) : List Channel :=
  [⟨"red", 2 * s, s, .color⟩, ⟨"green", s, s, .color⟩, ⟨"blue", 0, s, .color⟩,
    ⟨"alpha", 3 * s, s, .alpha⟩]

theorem extent_bgraChannels {s : Nat} (h : 0 < s) : extent (bgraChannels s) = .ok (4 * s) := by
  have h0 : s ≠ 0 := by omega
  have h1 : s ≤ 3 * s := by omega
  have h2 : 2 * s ≤ 3 * s := by omega
  have h3 : s + s = 2 * s := by omega
  have h4 : 2 * s + s = 3 * s := by omega
  have h5 : 3 * s + s = 4 * s := by omega
  simp [extent, bgraChannels, byPosition, runEnd, Channel.stop, Channel.isAlpha, List.mergeSort,
    h, h0, h1, h2, h3, h4, h5]

def bgra (d : Depth) : Layout :=
  ⟨bgraChannels d.bytes, 4 * d.bytes, extent_bgraChannels d.bytes_pos⟩

end Layout

end PixelRecord
