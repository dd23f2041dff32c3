import PixelRecord.Proofs.Composite.Geometry
import PixelRecord.Proofs.DeviceColor.Alpha
import PixelRecord.Proofs.Mix.Strict
import PixelRecord.Proofs.Picture.Pointwise
import PixelRecord.Strict

/-!
What a session may rely on.

Every call is orderly: it does not run into a fault, it leaves as many bytes as
there were, and if it is refused it leaves every byte as it was. A session is
then safe by induction, and needs nothing from the buffer it starts on: an
orderly call asks nothing of its buffer, so whatever one call leaves, the next
can be made on. The same session in strict arithmetic, on slices, has the same outcomes.
-/

namespace PixelRecord

open Edit

/-! ### Calls that only read -/

/-- The computation has an answer or is refused. -/
def Faultless {α : Type} (x : Except Failure α) : Prop := ∀ flt, x ≠ .error (.fault flt)

section Faultless

variable {α β : Type} {x : Except Failure α}

theorem faultless_ok (a : α) : Faultless (.ok a : Except Failure α) := nofun

theorem faultless_refused (e : Error) : Faultless (.error (.refused e) : Except Failure α) := by
  intro flt h
  cases h

theorem Faultless.map (h : Faultless x) (g : α → β) : Faultless (g <$> x) := by
  cases x with
  | ok a => exact faultless_ok (g a)
  | error e =>
    intro flt hflt
    cases hflt
    exact h flt rfl

/-- A call that only reads leaves the buffer alone. -/
theorem Faultless.orderly (h : Faultless x) (buf : Bytes) : (liftM x : Edit α).Orderly buf := by
  rw [Orderly, on_liftM]
  rcases x with (e | flt) | a
  · rfl
  · exact absurd rfl (h flt)
  · rfl

end Faultless

namespace Format

variable {f : Format} {buf : Bytes}

theorem decode_faultless (hw : f.Wide) (buf : Bytes) : Faultless (f.decode buf) := by
  rw [decode]
  cases hcheck : f.layout.checkRecords buf.size 1 "to_device" with
  | error e => exact faultless_refused e
  | ok u =>
    have hrecord := (Layout.checkRecords_eq_ok_iff.mp hcheck).2
    rw [Nat.one_mul] at hrecord
    dsimp only
    rw [decodeAt_eq_ok hw ((Nat.zero_add _).trans_le hrecord)]
    exact faultless_ok _

theorem channelValue_faultless (hw : f.Wide) (buf : Bytes) (index : Nat) (what : String) :
    Faultless (f.channelValue buf index what) := by
  unfold channelValue Layout.channel
  cases hch : f.layout.channels[index]? with
  | none => exact faultless_refused _
  | some ch =>
    dsimp only
    cases hcheck : f.layout.checkRecords buf.size 1 what with
    | error e => exact faultless_refused e
    | ok u =>
      have hrecord := (Layout.checkRecords_eq_ok_iff.mp hcheck).2
      rw [Nat.one_mul] at hrecord
      dsimp only
      rw [Channel.load_eq_ok (hw.holds (List.mem_of_getElem? hch)
        ((Nat.zero_add _).trans_le hrecord))]
      exact faultless_ok _

theorem channelText_faultless (hw : f.Wide) (buf : Bytes) (index : Nat) :
    Faultless (f.channelText buf index) :=
  (channelValue_faultless hw buf index _).map _

theorem normalizedChannelText_faultless (hw : f.Wide) (buf : Bytes) (index : Nat) :
    Faultless (f.normalizedChannelText buf index) :=
  (channelValue_faultless hw buf index _).map _

theorem toPicture_faultless (hw : f.Wide) (src : Bytes) (width height : Nat) (x y : Int) :
    Faultless (f.toPicture src width height x y) := by
  cases hcheck : f.checkSource src.size width height with
  | error e =>
    simp only [toPicture, hcheck]
    exact faultless_refused e
  | ok u =>
    obtain ⟨data, hdata, _⟩ := toPicture_of_check hw x y hcheck
    rw [hdata]
    exact faultless_ok _

/-! ### Every call -/

/-- **The step.** Every call is orderly, on every buffer. -/
theorem perform_orderly (hw : f.Wide) (call : Call) (buf : Bytes) :
    (f.perform call).Orderly buf := by
  cases call with
  | encode color opacity => exact (encode_obeys hw color opacity buf.size).orderly.map _
  | setAlpha opacity count => exact (setAlpha_obeys hw opacity count buf.size).orderly.map _
  | mix inputs weights => exact (mix_orderly hw inputs weights buf).map _
  | composite stride src mask what =>
    exact (composite_obeys hw buf.size stride src mask what).orderly.map _
  | writePicture src width height => exact (writePicture_orderly hw src width height buf).map _
  | decode => exact orderly_get_bind (((decode_faultless hw buf).orderly buf).map _)
  | channelText index =>
    exact orderly_get_bind (((channelText_faultless hw buf index).orderly buf).map _)
  | normalizedChannelText index =>
    exact orderly_get_bind (((normalizedChannelText_faultless hw buf index).orderly buf).map _)
  | toPicture width height x y =>
    exact orderly_get_bind (((toPicture_faultless hw buf width height x y).orderly buf).map _)

end Format

/-! ### Sessions -/

/-- The caller of a call on a buffer of `size` bytes got what was promised. -/
structure Outcome.Kept (o : Outcome) (size : Nat) : Prop where
  faultless : Faultless o.answer
  before : o.before.size = size
  after : o.after.size = size
  refused : ∀ e, o.answer = .error (.refused e) → o.after = o.before

section Outcomes

variable {perform perform' : Call → Edit Answer} {call : Call} {calls rest : List Call}
  {buf : Bytes}

theorem kept_of_orderly (h : (perform call).Orderly buf) :
    Outcome.Kept ⟨buf, ((perform call).on buf).1, ((perform call).on buf).2⟩ buf.size := by
  rw [Orderly] at h
  rcases hon : (perform call).on buf with ⟨(e | flt) | a, out⟩
  · rw [hon] at h
    exact ⟨faultless_refused e, rfl, congrArg Array.size h, fun _ _ => h⟩
  · rw [hon] at h
    exact h.elim
  · rw [hon] at h
    exact ⟨faultless_ok a, rfl, h, fun e he => by cases he⟩

/-- A session goes on after an orderly call. -/
theorem outcomes_cons (h : (perform call).Orderly buf) :
    outcomes perform buf (call :: rest) =
      ⟨buf, ((perform call).on buf).1, ((perform call).on buf).2⟩ ::
        outcomes perform ((perform call).on buf).2 rest := by
  rw [Orderly] at h
  rw [outcomes]
  rcases hon : (perform call).on buf with ⟨(e | flt) | a, out⟩
  · rfl
  · rw [hon] at h
    exact h.elim
  · rfl

/-- Orderly calls are all made, and every one of them keeps what it promises. -/
theorem outcomes_kept (h : ∀ call ∈ calls, ∀ buf, (perform call).Orderly buf) (buf : Bytes) :
    (outcomes perform buf calls).length = calls.length ∧
      ∀ o ∈ outcomes perform buf calls, o.Kept buf.size := by
  -- The size of the buffer is all that one call hands on to the next.
  induction calls generalizing buf with
  | nil => exact ⟨rfl, fun o ho => by cases ho⟩
  | cons call rest ih =>
      obtain ⟨hcall, hothers⟩ := List.forall_mem_cons.mp h
      have horderly := hcall buf
      have hkept := kept_of_orderly horderly
      obtain ⟨hlength, hrest⟩ := ih hothers ((perform call).on buf).2
      rw [outcomes_cons horderly]
      refine ⟨congrArg (· + 1) hlength, fun o ho => ?_⟩
      rcases List.mem_cons.mp ho with rfl | ho
      · exact hkept
      · have hsize : ((perform call).on buf).2.size = buf.size := hkept.after
        rw [← hsize]
        exact hrest o ho

/-- Calls that are the same on every buffer have the same outcomes one after the other. -/
theorem outcomes_congr (h : ∀ call ∈ calls, ∀ buf, (perform call).on buf = (perform' call).on buf)
    (buf : Bytes) : outcomes perform buf calls = outcomes perform' buf calls := by
  induction calls generalizing buf with
  | nil => rfl
  | cons call rest ih =>
      obtain ⟨hcall, hothers⟩ := List.forall_mem_cons.mp h
      simp only [outcomes, hcall buf, ih hothers]

end Outcomes

namespace Format

variable {f : Format}

/-- **The run.** A session makes all its calls, and every one of them keeps what it
promises. -/
theorem session_keeps_promises (hw : f.Wide) (buf : Bytes) (calls : List Call) :
    (f.session buf calls).length = calls.length ∧
      ∀ o ∈ f.session buf calls, o.Kept buf.size :=
  outcomes_kept (fun call _ => perform_orderly hw call) buf

theorem session_keeps_promises_refused :
    Wide ⟨.eight, .bgra .eight⟩ ∧
      (session ⟨.eight, .bgra .eight⟩ #[1, 2, 3, 4, 5]
        [.encode ⟨9, 8, 7⟩ none, .setAlpha 0 2, .mix [] [1], .decode]).map Outcome.after =
          [#[7, 8, 9, 4, 5], #[7, 8, 9, 4, 5], #[7, 8, 9, 4, 5], #[7, 8, 9, 4, 5]] ∧
      ∀ o ∈ session ⟨.eight, .bgra .eight⟩ #[1, 2, 3, 4, 5]
        [.encode ⟨9, 8, 7⟩ none, .setAlpha 0 2, .mix [] [1], .decode], o.Kept 5 :=
  ⟨by decide, by decide, (session_keeps_promises (by decide) _ _).2⟩

/-! ### Sessions in strict arithmetic -/

theorem toPictureByChunks_eq (hw : f.Wide) (src : Bytes) (width height : Nat) (x y : Int) :
    f.toPictureByChunks src width height = f.toPicture src width height x y := by
  unfold toPictureByChunks toPicture
  cases f.checkSource src.size width height with
  | error e => rfl
  | ok u =>
    have hon := writePictureByChunks_on hw src width height
      (Array.replicate (4 * (width * height)) 0)
    rcases hpicture : (f.writePicture src width height).on
      (Array.replicate (4 * (width * height)) 0) with ⟨e | ⟨⟩, data⟩ <;>
      simp only [hon, hpicture]

namespace Strict

/-- The calls of a strict session are the calls of a session. -/
theorem perform_on (hw : f.Wide) {call : Call} (h : call.Bounded) (buf : Bytes) :
    (perform f call).on buf = (f.perform call).on buf := by
  cases call with
  | setAlpha opacity count => exact on_map_congr (setAlphaByChunks_on hw opacity count buf) _
  | mix inputs weights => exact on_map_congr (congrArg (·.on buf) (mix_eq h)) _
  | composite stride src mask what =>
    refine on_map_congr ?_ _
    rw [composite_eq]
    exact compositeBySlices_on hw stride src mask what buf
  | writePicture src width height =>
    exact on_map_congr (writePictureByChunks_on hw src width height buf) _
  | toPicture width height x y =>
    simp only [perform, Format.perform, toPictureByChunks_eq hw _ width height x y]
  | encode color opacity => rfl
  | decode => rfl
  | channelText index => rfl
  | normalizedChannelText index => rfl

/-- **No allowance in a session.** In strict arithmetic, and with every record, row and pixel
cut out of its buffer, a session has the same outcomes. So there too it makes all its calls:
no product or sum is too large, nothing is clamped, and nothing is cut out that a buffer does
not have. -/
theorem session_eq (hw : f.Wide) (buf : Bytes) {calls : List Call}
    (h : ∀ call ∈ calls, call.Bounded) :
    session f buf calls = f.session buf calls ∧
      (session f buf calls).length = calls.length ∧ ∀ o ∈ session f buf calls, o.Kept buf.size := by
  have hsame : session f buf calls = f.session buf calls :=
    outcomes_congr (fun call hcall => perform_on hw (h call hcall)) buf
  refine ⟨hsame, ?_⟩
  rw [hsame]
  exact outcomes_kept (fun call _ => perform_orderly hw call) buf

end Strict

end Format

end PixelRecord
