import Mathlib.Data.List.Forall2
import PixelRecord.Proofs.Mix.Collection

/-!
Inputs that do not count leave no trace.

An input counts for its weight times its alpha. Two mixes whose inputs have the same
weights and alphas, and the same colors wherever an input counts, are given the same
moments: a color that is hidden, because its input is transparent or of weight zero, is
multiplied by zero before it is added. So the two leave the same record, byte for byte.
Where no input counts there is nothing to average, and the record is zero.
-/

namespace PixelRecord

open Edit

namespace Weighted

/-- Moments are equal where they are so term by term. -/
theorem moment_congr {value value' : Bytes → Nat} {inputs inputs' : Weighted}
    (h : List.Forall₂ (fun i i' => value i.1 * i.2.toNat = value' i'.1 * i'.2.toNat)
      inputs inputs') : moment value inputs = moment value' inputs' := by
  induction h with
  | nil => rfl
  | cons hfirst _ ih => rw [moment_cons, moment_cons, hfirst, ih]

end Weighted

namespace Format

open Weighted

variable {f : Format} {inputs inputs' : Weighted} {buf buf' : Bytes}

/-- The inputs have one weight and one alpha, and one color if that can be seen. -/
@[mk_iff]
structure SeenAlike (f : Format) (i i' : Bytes × UInt8) : Prop where
  weight : i.2 = i'.2
  worth : f.worth i.1 = f.worth i'.1
  colors : 0 < f.worth i.1 * i.2.toNat → ∀ ch ∈ f.layout.colors,
    f.depth.load i.1 ch.position = f.depth.load i'.1 ch.position

instance (f : Format) (i i' : Bytes × UInt8) : Decidable (f.SeenAlike i i') :=
  decidable_of_iff' _ (seenAlike_iff f i i')

/-- What a color adds to its moment is the same, seen or not. -/
theorem SeenAlike.color_term {i i' : Bytes × UInt8} (h : f.SeenAlike i i') {ch : Channel}
    (hch : ch ∈ f.layout.colors) :
    f.depth.load i.1 ch.position * f.worth i.1 * i.2.toNat =
      f.depth.load i'.1 ch.position * f.worth i'.1 * i'.2.toNat := by
  rw [← h.worth, ← h.weight, Nat.mul_assoc, Nat.mul_assoc]
  rcases Nat.eq_zero_or_pos (f.worth i.1 * i.2.toNat) with hzero | hpos
  · rw [hzero, Nat.mul_zero, Nat.mul_zero]
  · rw [h.colors hpos ch hch]

/-- The alpha of a record is its worth. -/
theorem load_alpha_eq_worth {ch : Channel} (hch : f.layout.alpha? = some ch) (p : Bytes) :
    f.depth.load p ch.position = f.worth p := by
  rw [worth, hch]

theorem averaged_seenAlike (h : List.Forall₂ f.SeenAlike inputs inputs') :
    f.averaged inputs.records (inputs.weights.map UInt8.toNat) =
      f.averaged inputs'.records (inputs'.weights.map UInt8.toNat) := by
  have hone : moment (fun _ => 1) inputs = moment (fun _ => 1) inputs' :=
    moment_congr (h.imp fun _ _ hi => by rw [hi.weight])
  have hworth : moment f.worth inputs = moment f.worth inputs' :=
    moment_congr (h.imp fun _ _ hi => by rw [hi.worth, hi.weight])
  refine PixelValues.ext ?_ ?_
  · refine List.map_congr_left fun ch hch => ?_
    have hcolor : moment (fun p => f.depth.load p ch.position * f.worth p) inputs =
        moment (fun p => f.depth.load p ch.position * f.worth p) inputs' :=
      moment_congr (h.imp fun _ _ hi => hi.color_term hch)
    simp only [averagedColor, total_coverage, mean_column_coverage, hworth, hcolor]
  · cases hsome : f.layout.alpha? with
    | none => simp [averaged, hsome]
    | some ch => simp [averaged, hsome, mean_column, load_alpha_eq_worth hsome, hworth, hone]

/-- Where nothing counts, every mean is zero. -/
theorem averaged_of_worthless (h : moment f.worth inputs = 0)
    (hone : moment (fun _ => 1) inputs ≠ 0) :
    f.averaged inputs.records (inputs.weights.map UInt8.toNat) =
      f.valuesAt (Array.replicate f.recordSize 0) 0 := by
  have hzero : f.depth.saturate 0 = 0 := Nat.zero_min _
  refine PixelValues.ext ?_ ?_
  · refine List.map_congr_left fun ch hch => ?_
    rw [averagedColor, total_coverage, if_pos h, hzero, f.depth.load_replicate_zero]
  · cases hsome : f.layout.alpha? with
    | none => simp [averaged, hsome]
    | some ch =>
      have hmean : FixedPoint.divRound 0 (moment (fun _ => 1) inputs) = 0 :=
        Nat.le_zero.mp (FixedPoint.divRound_le (Nat.pos_of_ne_zero hone) (Nat.zero_le _))
      simp [averaged, hsome, mean_column, load_alpha_eq_worth hsome, h, hmean, hzero,
        f.depth.load_replicate_zero]

theorem mixed_seenAlike (h : List.Forall₂ f.SeenAlike inputs inputs') (hmany : 2 ≤ inputs.length) :
    f.mixed inputs.records (inputs.weights.map UInt8.toNat) =
      f.mixed inputs'.records (inputs'.weights.map UInt8.toNat) := by
  have hone : moment (fun _ => 1) inputs = moment (fun _ => 1) inputs' :=
    moment_congr (h.imp fun _ _ hi => by rw [hi.weight])
  rw [mixed_of_many (records_ne_singleton hmany),
    mixed_of_many (records_ne_singleton (h.length_eq ▸ hmany)), total_weights, total_weights,
    hone, averaged_seenAlike h]

theorem mixed_of_worthless (h : moment f.worth inputs = 0) (hmany : 2 ≤ inputs.length) :
    f.mixed inputs.records (inputs.weights.map UInt8.toNat) =
      f.valuesAt (Array.replicate f.recordSize 0) 0 := by
  rw [mixed_of_many (records_ne_singleton hmany), total_weights]
  split
  · rfl
  · next hone => exact averaged_of_worthless h hone

/-- **No tint.** Two mixes of at least two inputs each leave the same record, if their
inputs have the same weights and alphas one by one, and the same colors where an input
counts for something. If none does, the record that they leave is zero. -/
theorem mix_untinted (he : f.Exact) (hmany : 2 ≤ inputs.length)
    (halike : List.Forall₂ f.SeenAlike inputs inputs')
    (hcheck : f.checkMix buf.size inputs.records inputs.weights = .ok ())
    (hcheck' : f.checkMix buf'.size inputs'.records inputs'.weights = .ok ()) :
    ∃ out out', (f.mix inputs.records inputs.weights).on buf = (.ok (), out) ∧
      (f.mix inputs'.records inputs'.weights).on buf' = (.ok (), out') ∧
      out.extract 0 f.recordSize = out'.extract 0 f.recordSize ∧
      ((∀ i ∈ inputs, f.worth i.1 * i.2.toNat = 0) →
        out.extract 0 f.recordSize = Array.replicate f.recordSize 0) := by
  obtain ⟨⟨⟩, out, hon, hsize, -, hvalues⟩ := Acts.ends (mix_turnsEach he hcheck) buf rfl
  obtain ⟨⟨⟩, out', hon', hsize', -, hvalues'⟩ := Acts.ends (mix_turnsEach he hcheck') buf' rfl
  have hmixed : f.valuesAt out 0 = _ := hvalues 0 List.mem_cons_self
  have hmixed' : f.valuesAt out' 0 = _ := hvalues' 0 List.mem_cons_self
  have hfit : f.recordSize ≤ out.size := hsize ▸ (accepts_of_checkMix hcheck).1
  have hfit' : f.recordSize ≤ out'.size := hsize' ▸ (accepts_of_checkMix hcheck').1
  refine ⟨out, out', hon, hon', he.extract_eq hfit hfit' ?_, fun hnone => ?_⟩
  · rw [hmixed, hmixed', mixed_seenAlike halike hmany]
  · have hworth : moment f.worth inputs = 0 := moment_eq_zero_iff.mpr hnone
    have hzero := he.extract_eq hfit (b := Array.replicate f.recordSize 0) (by simp)
      (hmixed.trans (mixed_of_worthless hworth hmany))
    simpa using hzero

/-- The second input is transparent and the third of weight zero, so that their colors
do not show; of inputs that are all so nothing is left. -/
theorem mix_untinted_hidden_colors :
    (∃ out out',
      (mix ⟨.eight, .bgra .eight⟩ [#[10, 200, 30, 90], #[60, 70, 80, 0], #[1, 2, 3, 255]]
        [3, 100, 0]).on #[1, 2, 3, 4, 5] = (.ok (), out) ∧
      (mix ⟨.eight, .bgra .eight⟩ [#[10, 200, 30, 90], #[0, 0, 0, 0], #[9, 8, 7, 255]]
        [3, 100, 0]).on #[6, 7, 8, 9] = (.ok (), out') ∧
      out.extract 0 4 = out'.extract 0 4) ∧
    ∃ out,
      (mix ⟨.eight, .bgra .eight⟩ [#[60, 70, 80, 0], #[1, 2, 3, 255]] [100, 0]).on
        #[1, 2, 3, 4, 5] = (.ok (), out) ∧
      out.extract 0 4 = #[0, 0, 0, 0] := by
  have hhidden := @mix_untinted ⟨.eight, .bgra .eight⟩
    [(#[10, 200, 30, 90], 3), (#[60, 70, 80, 0], 100), (#[1, 2, 3, 255], 0)]
    [(#[10, 200, 30, 90], 3), (#[0, 0, 0, 0], 100), (#[9, 8, 7, 255], 0)]
    #[1, 2, 3, 4, 5] #[6, 7, 8, 9] (by decide) (by decide)
    (.cons (by decide) (.cons (by decide) (.cons (by decide) .nil))) (by decide) (by decide)
  have hnone := @mix_untinted ⟨.eight, .bgra .eight⟩
    [(#[60, 70, 80, 0], 100), (#[1, 2, 3, 255], 0)] [(#[60, 70, 80, 0], 100), (#[1, 2, 3, 255], 0)]
    #[1, 2, 3, 4, 5] #[1, 2, 3, 4, 5] (by decide) (by decide)
    (.cons (by decide) (.cons (by decide) .nil)) (by decide) (by decide)
  obtain ⟨out, out', hon, hon', hsame, -⟩ := hhidden
  obtain ⟨blank, -, hon'', -, -, hzero⟩ := hnone
  exact ⟨⟨out, out', hon, hon', hsame⟩, blank, hon'', hzero (by decide)⟩

end Format

end PixelRecord
