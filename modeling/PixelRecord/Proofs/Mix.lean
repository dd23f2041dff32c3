import PixelRecord.Mix
import PixelRecord.Proofs.Record

/-!
What mixing leaves in the record.

A channel of the result is a function of the values that the channel has in the
inputs, and of the weights; for colors, alpha has gone into the weights before.
So the mixed record can be said without a buffer, as `Format.mixed`. The two
shortcuts write whole records byte by byte. Where channels are wider than
values, they write bytes that belong to no value; then only the promises to the
caller are of interest, and these are stated for every wide format.
-/

namespace PixelRecord.Format

open Edit

variable {f : Format} {size start : Nat} {inputs : List Bytes} {weights : List Nat}

/-! ### The values of a channel in the inputs -/

/-- The values of a channel in the first records of some buffers. -/
def column (f : Format) (ch : Channel) (inputs : List Bytes) : List Nat :=
  inputs.map fun input => f.depth.load input ch.position

theorem channelValues_eq_ok (hw : f.Wide) (h : ∀ input ∈ inputs, f.recordSize ≤ input.size)
    {ch : Channel} (hch : ch ∈ f.layout.channels) :
    f.channelValues ch inputs = .ok (f.column ch inputs) := by
  apply mapM_eq_ok
  intro input hinput
  have hholds : ch.Holds f.depth input.size 0 :=
    hw.holds hch ((Nat.zero_add _).trans_le (h input hinput))
  rw [Channel.load_eq_ok hholds, Nat.zero_add]

/-- The mean of values under weights that do not sum to zero. -/
def mean (values weights : List Nat) : Nat :=
  FixedPoint.divRound (weightedSum values weights) (total weights)

theorem weightedMean_eq_ok (values : List Nat) (h : total weights ≠ 0) :
    weightedMean values weights = .ok (mean values weights) := by
  rw [weightedMean, FixedPoint.Checked.divRound,
    FixedPoint.Checked.nonzero_of_pos (Nat.pos_of_ne_zero h)]
  rfl

/-! ### Averages -/

/-- The value of a color channel in the average of some records. -/
def averagedColor (f : Format) (inputs : List Bytes) (weights : List Nat) (ch : Channel) : Nat :=
  f.depth.saturate (if total weights = 0 then 0 else mean (f.column ch inputs) weights)

theorem mixColors_turns (hw : f.Wide) (hin : ∀ input ∈ inputs, f.recordSize ≤ input.size)
    (weights : List Nat) (hsize : f.recordSize ≤ size) :
    f.Turns (f.mixColors inputs weights) size 0 fun v =>
      ⟨f.layout.colors.map fun ch => (f.averagedColor inputs weights ch : Int), v.alpha⟩ := by
  have hstep : ∀ ch ∈ f.layout.colors, ch.Turns f.depth (do
      if total weights = 0 then ch.store f.depth 0 0
      else
        let values ← f.channelValues ch inputs
        ch.store f.depth 0 (← weightedMean values weights)) size 0
      fun _ => (f.averagedColor inputs weights ch : Int) := by
    intro ch hch
    have hmem := Layout.mem_of_mem_colors hch
    have hholds : ch.Holds f.depth size 0 := hw.holds hmem ((Nat.zero_add _).trans_le hsize)
    rw [averagedColor]
    split
    · exact Channel.store_saturated_turns hholds 0
    · next hzero =>
      exact Acts.of_ok (channelValues_eq_ok hw hin hmem) (Acts.of_ok (weightedMean_eq_ok _ hzero)
        (Channel.store_saturated_turns hholds _))
  apply (hw.turns_colors hstep).congr
  intro a
  rw [colors_valuesAt, List.zipWith_map_right, List.zipWith_self]

/-- What the average counts an input for: its weight, times its alpha if the
records have one. -/
def coverage (f : Format) (inputs : List Bytes) (weights : List Nat) : List Nat :=
  match f.layout.alpha? with
  | none => weights
  | some alpha => List.zipWith (· * ·) (f.column alpha inputs) weights

def averaged (f : Format) (inputs : List Bytes) (weights : List Nat) : PixelValues where
  colors := f.layout.colors.map fun ch =>
    (f.averagedColor inputs (f.coverage inputs weights) ch : Int)
  alpha := f.layout.alpha?.map fun ch =>
    (f.depth.saturate (mean (f.column ch inputs) weights) : Int)

theorem average_turns (hw : f.Wide) (hin : ∀ input ∈ inputs, f.recordSize ≤ input.size)
    (hweights : total weights ≠ 0) (hsize : f.recordSize ≤ size) :
    f.Turns (f.average inputs weights) size 0 fun _ => f.averaged inputs weights := by
  rw [average]
  cases halpha : f.layout.alpha? with
  | none =>
    apply (mixColors_turns hw hin weights hsize).congr
    intro a
    rw [averaged, coverage, alpha_valuesAt, halpha]
    rfl
  | some alpha =>
    have hmem := Layout.mem_of_alpha? halpha
    have hholds : alpha.Holds f.depth size 0 := hw.holds hmem ((Nat.zero_add _).trans_le hsize)
    have hstore : alpha.Turns f.depth (do
        alpha.store f.depth 0 (← weightedMean (f.column alpha inputs) weights)) size 0
        fun _ => (f.depth.saturate (mean (f.column alpha inputs) weights) : Nat) :=
      Acts.of_ok (weightedMean_eq_ok _ hweights) (Channel.store_saturated_turns hholds _)
    -- The alphas were read before the first color was stored, so the order of the two
    -- stores does not show in the result.
    have hboth := (mixColors_turns hw hin (f.coverage inputs weights) hsize).seq
      (hw.turns_alpha halpha hstore)
    have haverage : f.Turns (do
        f.mixColors inputs (f.coverage inputs weights)
        alpha.store f.depth 0 (← weightedMean (f.column alpha inputs) weights)) size 0
        fun _ => f.averaged inputs weights := by
      apply hboth.congr
      intro a
      rw [averaged, halpha, Function.comp, alpha_valuesAt, halpha]
      rfl
    rw [coverage, halpha] at haverage
    exact Acts.of_ok (channelValues_eq_ok hw hin hmem) haverage

/-! ### The shortcuts -/

/-- Writing a whole record, where no byte of it is without a value. -/
theorem writeRecord_turns (he : f.Exact) {bytes : List UInt8}
    (hlength : bytes.length = f.recordSize) (h : start + f.recordSize ≤ size) :
    f.Turns (Edit.write start bytes) size start fun _ => f.valuesAt bytes.toArray 0 := by
  refine turns_of_acts (acts_write (hlength ▸ h)) (fun j hj => ?_) fun a b _ hpost => ?_
  · rw [hlength] at hj
    exact he.keeps_iff.mpr hj
  · apply he.wide.valuesAt_shift
    intro t ht
    rw [hpost t (hlength ▸ ht), Nat.zero_add, List.getElem?_toArray]

def mixed (f : Format) (inputs : List Bytes) (weights : List Nat) : PixelValues :=
  match inputs with
  | [only] => f.valuesAt only 0
  | _ => if total weights = 0 then f.valuesAt (Array.replicate f.recordSize 0) 0
    else f.averaged inputs weights

theorem mixed_of_many (h : ∀ only, inputs ≠ [only]) :
    f.mixed inputs weights =
      if total weights = 0 then f.valuesAt (Array.replicate f.recordSize 0) 0
      else f.averaged inputs weights := by
  unfold mixed
  split
  · next only => exact absurd rfl (h only)
  · rfl

theorem mixRecord_turns (he : f.Exact) (hin : ∀ input ∈ inputs, f.recordSize ≤ input.size)
    (weights : List Nat) (hsize : f.recordSize ≤ size) :
    f.Turns (f.mixRecord inputs weights) size 0 fun _ => f.mixed inputs weights := by
  have hfit : 0 + f.recordSize ≤ size := (Nat.zero_add _).trans_le hsize
  unfold mixRecord
  split
  · next only =>
    have hrecord := hin only List.mem_cons_self
    have hlength : (only.extract 0 f.recordSize).toList.length = f.recordSize := by
      rw [Array.length_toList, Array.size_extract]
      omega
    apply (writeRecord_turns he hlength hfit).congr
    intro a
    apply he.wide.valuesAt_shift
    intro t ht
    rw [Array.toArray_toList, Nat.zero_add, getElem?_extract_of_lt (by omega), Nat.zero_add]
  · next hmany =>
    rw [mixed_of_many hmany]
    split
    · apply (writeRecord_turns he List.length_replicate hfit).congr
      intro a
      rw [List.toArray_replicate]
    · next hzero => exact average_turns he.wide hin hzero hsize

/-! ### The whole call -/

theorem accepts_of_checkMix {weights : List UInt8} (h : f.checkMix size inputs weights = .ok ()) :
    f.recordSize ≤ size ∧ ∀ input ∈ inputs, f.recordSize ≤ input.size := by
  rw [checkMix] at h
  dsimp only at h
  split at h
  · cases h
  · split at h
    · cases h
    · obtain ⟨⟨⟩, hout, hin⟩ := bind_eq_ok h
      refine ⟨?_, fun input hinput => ?_⟩
      · simpa using (Layout.checkRecords_eq_ok_iff.mp hout).2
      · simpa using (Layout.checkRecords_eq_ok_iff.mp (forM_eq_ok hin input hinput)).2

theorem mix_obeys (he : f.Exact) (inputs : List Bytes) (weights : List UInt8) (size : Nat) :
    f.Obeys (f.mix inputs weights) size (f.checkMix size inputs weights) [0] id
      fun _ _ => f.mixed inputs (weights.map UInt8.toNat) := by
  apply obeys_of_check (fun n => f.checkMix n inputs weights)
  intro h
  obtain ⟨hsize, hin⟩ := accepts_of_checkMix h
  exact (mixRecord_turns he hin _ hsize).each

theorem mix_orderly (hw : f.Wide) (inputs : List Bytes) (weights : List UInt8) (buf : Bytes) :
    (f.mix inputs weights).Orderly buf := by
  apply orderly_require_bind
  intro h
  obtain ⟨hsize, hin⟩ := accepts_of_checkMix h
  -- `mixRecord_turns` needs exact channels: the shortcuts write every byte of the record.
  unfold mixRecord
  split
  · next only =>
    have hlength : (only.extract 0 f.recordSize).toList.length ≤ f.recordSize := by
      rw [Array.length_toList, Array.size_extract]
      omega
    exact (acts_write (by omega)).orderly
  · split
    · exact (acts_write (by rw [List.length_replicate]; omega)).orderly
    · next hzero => exact Acts.orderly (average_turns hw hin hzero hsize)

end PixelRecord.Format
