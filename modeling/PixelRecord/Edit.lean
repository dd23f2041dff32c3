import PixelRecord.Layout

/-!
Calls that work on a buffer in place. An `Edit` takes the buffer as it is and
gives an answer, or the failure that ended the call, together with the buffer
as the call left it. A failure does not undo what was written before it, so
that a refused call has left its buffer alone is something to prove and not
something the type promises.
-/

namespace PixelRecord

/-- A call on a buffer with answer in `α`. -/
abbrev Edit (α : Type) := ExceptT Failure (StateM Bytes) α

namespace Edit

/-- The answer of a call on `buf`, and the buffer after it. -/
def on {α : Type} (e : Edit α) (buf : Bytes) : Except Failure α × Bytes := e buf

/-- The call that is refused for a cause. -/
def refuse {α : Type} (e : Error) : Edit α := throw (.refused e)

@[simp] theorem on_pure {α : Type} (a : α) (buf : Bytes) :
    (pure a : Edit α).on buf = (.ok a, buf) := rfl

@[simp] theorem on_throw {α : Type} (e : Failure) (buf : Bytes) :
    (throw e : Edit α).on buf = (.error e, buf) := rfl

@[simp] theorem on_refuse {α : Type} (e : Error) (buf : Bytes) :
    (refuse e : Edit α).on buf = (.error (.refused e), buf) := rfl

@[simp] theorem on_modify (g : Bytes → Bytes) (buf : Bytes) :
    (modify g : Edit Unit).on buf = (.ok (), g buf) := rfl

/-- A failure ends a call where it stands, with the buffer as it is by then. -/
theorem on_bind {α β : Type} (e : Edit α) (k : α → Edit β) (buf : Bytes) :
    (e >>= k).on buf =
      match e.on buf with
      | (.ok a, after) => (k a).on after
      | (.error f, after) => (.error f, after) := by
  show (match e buf with | (r, after) => ExceptT.bindCont k r after) = _
  simp only [on]
  rcases e buf with ⟨_ | _, _⟩ <;> rfl

@[simp] theorem on_forM_nil {α : Type} (k : α → Edit Unit) (buf : Bytes) :
    (([] : List α).forM k).on buf = (.ok (), buf) := rfl

/-- A loop runs its first step and, unless that fails, the others. -/
theorem on_forM_cons {α : Type} (a : α) (rest : List α) (k : α → Edit Unit) (buf : Bytes) :
    ((a :: rest).forM k).on buf =
      match (k a).on buf with
      | (.ok _, after) => (rest.forM k).on after
      | (.error f, after) => (.error f, after) := by
  show (k a >>= fun _ => rest.forM k : Edit Unit).on buf = _
  rw [on_bind]
  rcases (k a).on buf with ⟨_ | _, _⟩ <;> rfl

/-- Goes on only if a contract check let it. -/
def require (check : Except Error Unit) : Edit Unit :=
  match check with
  | .ok () => pure ()
  | .error e => refuse e

theorem on_require (check : Except Error Unit) (buf : Bytes) :
    (require check).on buf =
      match check with
      | .ok () => (.ok (), buf)
      | .error e => (.error (.refused e), buf) := by
  rcases check with e | ⟨⟩ <;> rfl

def size : Edit Nat := return (← get).size

@[simp] theorem on_size (buf : Bytes) : size.on buf = (.ok buf.size, buf) := rfl

/-- The buffer with `bytes` over its own from byte `start` on. -/
def overwrite (buf : Bytes) (start : Nat) : List UInt8 → Bytes
  | [] => buf
  | b :: rest => overwrite (buf.setIfInBounds start b) (start + 1) rest

@[simp] theorem size_overwrite (buf : Bytes) (start : Nat) (bytes : List UInt8) :
    (overwrite buf start bytes).size = buf.size := by
  induction bytes generalizing buf start with
  | nil => rfl
  | cons b rest ih => simp [overwrite, ih]

/-- Writes `bytes` from byte `start` on. -/
def write (start : Nat) (bytes : List UInt8) : Edit Unit := do
  if start + bytes.length ≤ (← size) then modify fun buf => overwrite buf start bytes
  else throw (.fault .outOfRange)

theorem on_write (start : Nat) (bytes : List UInt8) (buf : Bytes) :
    (write start bytes).on buf =
      if start + bytes.length ≤ buf.size then (.ok (), overwrite buf start bytes)
      else (.error (.fault .outOfRange), buf) := by
  unfold write
  rw [on_bind]
  simp only [on_size]
  split <;> rfl

/-- A call that sees the bytes from `start` up to `stop` as its whole buffer. -/
def within {α : Type} (start stop : Nat) (e : Edit α) : Edit α := fun buf =>
  let (answer, part) := e (buf.extract start stop)
  (answer, buf.extract 0 start ++ part ++ buf.extract stop buf.size)

/-- A call that sees the bytes from `start` on as its whole buffer. -/
def beyond {α : Type} (start : Nat) (e : Edit α) : Edit α := fun buf =>
  let (answer, part) := e (buf.extract start buf.size)
  (answer, buf.extract 0 start ++ part)

end Edit

namespace Channel

/-- Whether the bytes of the channel, in the record that starts at byte `start`
of a buffer of `size` bytes, lie in the buffer and can hold a value of the depth. -/
def Holds (ch : Channel) (d : Depth) (size start : Nat) : Prop :=
  d.bytes ≤ ch.size ∧ start + ch.stop ≤ size

instance (ch : Channel) (d : Depth) (size start : Nat) : Decidable (ch.Holds d size start) :=
  inferInstanceAs (Decidable (_ ∧ _))

/-- The value of the channel in the record that starts at byte `start`. It is
kept in the first bytes of the channel. -/
def load (ch : Channel) (d : Depth) (buf : Bytes) (start : Nat) : Except Failure Nat :=
  if ch.Holds d buf.size start then .ok (d.load buf (start + ch.position))
  else .error (.fault .outOfRange)

/-- Stores `v`, or the greatest value if `v` is greater still, in the channel of
the record that starts at byte `start`. -/
def store (ch : Channel) (d : Depth) (start v : Nat) : Edit Unit := do
  if ch.Holds d (← Edit.size) start then
    modify fun buf => d.store buf (start + ch.position) (d.saturate v)
  else
    throw (.fault .outOfRange)

theorem on_store (ch : Channel) (d : Depth) (start v : Nat) (buf : Bytes) :
    (ch.store d start v).on buf =
      if ch.Holds d buf.size start then
        (.ok (), d.store buf (start + ch.position) (d.saturate v))
      else (.error (.fault .outOfRange), buf) := by
  unfold store
  rw [Edit.on_bind]
  simp only [Edit.on_size]
  split <;> rfl

end Channel

end PixelRecord
