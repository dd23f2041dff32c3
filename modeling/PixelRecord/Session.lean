import PixelRecord.DeviceColor
import PixelRecord.Composite.Rectangle
import PixelRecord.Mix
import PixelRecord.Picture

/-!
Sessions: calls on one buffer, one after the other. A call that is refused does
not end the session, the next one finds the buffer as it was left. Only a fault
does.
-/

namespace PixelRecord

/-- A call on a buffer of records, or, for `writePicture`, of pixels. The last
four only read the buffer. -/
inductive Call where
  | encode (color : DeviceColor) (opacity : Option UInt8)
  | setAlpha (opacity : UInt8) (count : Nat)
  | mix (inputs : List Bytes) (weights : List UInt8)
  | composite (stride : Nat) (src : Surface) (mask : Option Mask) (what : Composition)
  | writePicture (src : Bytes) (width height : Nat)
  | decode
  | channelText (index : Nat)
  | normalizedChannelText (index : Nat)
  | toPicture (width height : Nat) (x y : Int)
  deriving DecidableEq

inductive Answer where
  | done
  | device (color : DeviceColor) (opacity : UInt8)
  | text (text : String)
  | picture (picture : Picture)
  deriving DecidableEq

/-- A call that was made: the buffer before it, its answer, the buffer after it. -/
structure Outcome where
  before : Bytes
  answer : Except Failure Answer
  after : Bytes

/-- The outcomes of calls that are made one after the other as `perform` makes them, up to
the first fault. -/
def outcomes (perform : Call → Edit Answer) (buf : Bytes) : List Call → List Outcome
  | [] => []
  | call :: rest =>
    let (answer, after) := (perform call).on buf
    ⟨buf, answer, after⟩ ::
      match answer with
      | .error (.fault _) => []
      | _ => outcomes perform after rest

namespace Format

def perform (f : Format) : Call → Edit Answer
  | .encode color opacity => do
    f.encode color opacity
    return .done
  | .setAlpha opacity count => do
    f.setAlpha opacity count
    return .done
  | .mix inputs weights => do
    f.mix inputs weights
    return .done
  | .composite stride src mask what => do
    f.composite stride src mask what
    return .done
  | .writePicture src width height => do
    f.writePicture src width height
    return .done
  | .decode => do
    let (color, opacity) ← f.decode (← get)
    return .device color opacity
  | .channelText index => do
    let text ← f.channelText (← get) index
    return .text text
  | .normalizedChannelText index => do
    let text ← f.normalizedChannelText (← get) index
    return .text text
  | .toPicture width height x y => do
    let picture ← f.toPicture (← get) width height x y
    return .picture picture

/-- The outcomes of the calls that a session makes, up to the first fault. -/
def session (f : Format) : Bytes → List Call → List Outcome := outcomes f.perform

end Format

end PixelRecord
