import Mathlib.Algebra.Order.Round
import Mathlib.Data.Rat.Floor
import Mathlib.Tactic.FieldSimp
import PixelRecord.Proofs.Mix.Strict

/-!
A mix is made of exact means.

What is stored in a channel is the exact mean of the inputs, a rational number, rounded
once, with halves up. Every input counts for a share: for alpha its weight, for a color
its weight times its alpha. As rounding does not pass an integer, a rounded mean stays
among the values of the inputs that count. No number on the way is too large for 64 bits,
which is why there is one rounding only and nothing else to say.
-/

namespace PixelRecord

open Edit

namespace FixedPoint

/-- Halves are rounded up. -/
theorem divRound_eq_round {num den : Nat} (hden : 0 < den) :
    (divRound num den : Int) = round ((num : ℚ) / den) := by
  have hpos : (0 : ℚ) < den := by exact_mod_cast hden
  have hhalf : (num : ℚ) / den + 1 / 2 = ((2 * num + den : Int) : ℚ) / ((2 * den : Nat) : ℚ) := by
    push_cast
    field_simp
  rw [divRound_eq_nearest hden, round_eq, hhalf, Rat.floor_intCast_div_natCast, Formula.nearest]
  push_cast
  rfl

theorem le_divRound {num den m : Nat} (hden : 0 < den) (h : m * den ≤ num) :
    m ≤ divRound num den := by
  have hle : m ≤ Formula.nearest num den :=
    Formula.le_nearest (by exact_mod_cast hden) (by exact_mod_cast h)
  rw [← divRound_eq_nearest hden] at hle
  exact_mod_cast hle

end FixedPoint

namespace Weighted

variable {value share : Bytes → Nat} {inputs : Weighted}

/-- The mean of a value of the records, each counting for its share times its weight. -/
def exactMean (value share : Bytes → Nat) (inputs : Weighted) : ℚ :=
  (moment (fun p => value p * share p) inputs : ℚ) / moment share inputs

/-- `v` is the rounded mean, and among the inputs that count one has no greater value and
one no lesser. -/
structure IsMean (value share : Bytes → Nat) (inputs : Weighted) (v : Nat) : Prop where
  rounded : (v : Int) = round (exactMean value share inputs)
  least : ∃ i ∈ inputs, 0 < share i.1 * i.2.toNat ∧ value i.1 ≤ v
  greatest : ∃ i ∈ inputs, 0 < share i.1 * i.2.toNat ∧ v ≤ value i.1

/-- Values count only where the share and the weight are positive. -/
theorem moment_mono {value' : Bytes → Nat}
    (h : ∀ i ∈ inputs, 0 < share i.1 * i.2.toNat → value i.1 ≤ value' i.1) :
    moment (fun p => value p * share p) inputs ≤ moment (fun p => value' p * share p) inputs := by
  refine List.sum_le_sum fun i hi => ?_
  rw [Nat.mul_assoc, Nat.mul_assoc]
  rcases Nat.eq_zero_or_pos (share i.1 * i.2.toNat) with hzero | hpos
  · rw [hzero]
    exact le_rfl
  · exact Nat.mul_le_mul_right _ (h i hi hpos)

theorem le_moment_mul {m : Nat} (h : ∀ i ∈ inputs, 0 < share i.1 * i.2.toNat → m ≤ value i.1) :
    m * moment share inputs ≤ moment (fun p => value p * share p) inputs := by
  have hmono := @moment_mono (fun _ => m) share inputs value h
  rwa [moment_mul_of_forall fun _ _ => rfl] at hmono

theorem moment_mul_le {m : Nat} (h : ∀ i ∈ inputs, 0 < share i.1 * i.2.toNat → value i.1 ≤ m) :
    moment (fun p => value p * share p) inputs ≤ m * moment share inputs := by
  have hmono := @moment_mono value share inputs (fun _ => m) h
  rwa [@moment_mul_of_forall _ (fun _ => m) share m fun _ _ => rfl] at hmono

/-- **One mean.** A rounded quotient of moments is a mean of the values that count. -/
theorem isMean_divRound (value : Bytes → Nat) (h : moment share inputs ≠ 0) :
    IsMean value share inputs
      (FixedPoint.divRound (moment (fun p => value p * share p) inputs)
        (moment share inputs)) := by
  have hpos := Nat.pos_of_ne_zero h
  refine ⟨FixedPoint.divRound_eq_round hpos, ?_, ?_⟩
  · by_contra hnone
    push Not at hnone
    -- If all that count were greater, the rounded mean would be at least one more than it is.
    have hle := FixedPoint.le_divRound hpos (le_moment_mul hnone)
    omega
  · by_contra hnone
    push Not at hnone
    obtain ⟨i, hi, hcounts⟩ : ∃ i ∈ inputs, share i.1 * i.2.toNat ≠ 0 := by
      simpa using moment_eq_zero_iff.not.mp h
    have hlt := hnone i hi (Nat.pos_of_ne_zero hcounts)
    have hle := FixedPoint.divRound_le hpos
      (moment_mul_le fun i hi hcounts => Nat.le_sub_one_of_lt (hnone i hi hcounts))
    omega

end Weighted

namespace Format

open Weighted

variable {f : Format} {inputs : Weighted} {buf : Bytes}

/-- What the means of some inputs make of the first record of a buffer. -/
structure Averages (f : Format) (inputs : Weighted) (before after : Bytes) : Prop where
  /-- The buffer keeps its size. -/
  size : after.size = before.size
  /-- Bytes behind the record are as they were. -/
  frame : ∀ j, f.recordSize ≤ j → after[j]? = before[j]?
  /-- The alphas are averaged by weight. -/
  alpha : ∀ ch, f.layout.alpha? = some ch →
    IsMean (fun p => f.depth.load p ch.position) (fun _ => 1) inputs
      (f.depth.load after ch.position)
  /-- Colors are averaged by weight times alpha, and are zero where nothing counts. -/
  colors : ∀ ch ∈ f.layout.colors,
    if ∀ i ∈ inputs, f.worth i.1 * i.2.toNat = 0 then f.depth.load after ch.position = 0
    else IsMean (fun p => f.depth.load p ch.position) f.worth inputs
      (f.depth.load after ch.position)

/-- What is averaged need not be saturated. -/
theorem saturate_mean_column (f : Format) (ch : Channel) (records : List Bytes)
    {weights : List Nat} (h : total weights ≠ 0) :
    f.depth.saturate (mean (f.column ch records) weights) = mean (f.column ch records) weights :=
  f.depth.saturate_of_le
    (mean_le (List.forall_mem_map.mpr fun p _ => f.depth.load_le_max p ch.position) h)

/-- **Exact means.** A mix of two to `2 ^ 24` inputs that are not all of weight zero
succeeds, never needs more than 64 bits and never cuts off a value that it stores. It
leaves the exact means of its inputs in the record, each rounded once, and nothing else. -/
theorem mix_rounds_means (he : f.Exact) (hmany : 2 ≤ inputs.length)
    (hcount : inputs.length ≤ 2 ^ 24) (hweights : ∃ i ∈ inputs, i.2 ≠ 0)
    (hcheck : f.checkMix buf.size inputs.records inputs.weights = .ok ()) :
    ∃ out, (f.mix inputs.records inputs.weights).on buf = (.ok (), out) ∧
      (Strict.mix f inputs.records inputs.weights).on buf = (.ok (), out) ∧
      f.Averages inputs buf out := by
  have hone := moment_one_ne_zero hweights
  obtain ⟨⟨⟩, out, hon, hsize, hframe, hvalues⟩ := Acts.ends (mix_turnsEach he hcheck) buf rfl
  have hmixed := hvalues 0 List.mem_cons_self
  rw [mixed_of_many (records_ne_singleton hmany), total_weights, if_neg hone] at hmixed
  refine ⟨out, hon, ?_, hsize, fun j hj => hframe j ?_, fun ch hch => ?_, fun ch hch => ?_⟩
  · rw [Strict.mix_eq (by rwa [weights, List.length_map]), hon]
  · rintro ⟨i, hi, hkeeps⟩
    obtain rfl := List.mem_singleton.mp hi
    have hrecord := he.keeps_iff.mp hkeeps
    dsimp only [id] at hrecord
    omega
  · have halpha := congrArg PixelValues.alpha hmixed
    rw [alpha_valuesAt, averaged, hch, Option.map_some, Option.map_some, Option.some_inj,
      saturate_mean_column f ch _ (by rwa [total_weights]), mean_column] at halpha
    have hmean := isMean_divRound (fun p => f.depth.load p ch.position) hone
    simp only [Nat.mul_one, id, Nat.zero_add, Int.natCast_inj] at hmean halpha
    rwa [← halpha] at hmean
  · have hcolors := congrArg PixelValues.colors hmixed
    rw [colors_valuesAt, averaged, List.map_inj_left] at hcolors
    have hload : f.depth.load out ch.position = f.averagedColor inputs.records
        (f.coverage inputs.records (inputs.weights.map UInt8.toNat)) ch := by
      simpa using hcolors ch hch
    rw [hload, averagedColor, total_coverage]
    by_cases hzero : moment f.worth inputs = 0
    · rw [if_pos (moment_eq_zero_iff.mp hzero), if_pos hzero]
      exact Nat.zero_min _
    · rw [if_neg (moment_eq_zero_iff.not.mp hzero), if_neg hzero,
        saturate_mean_column f ch _ (by rwa [total_coverage]), mean_column_coverage]
      exact isMean_divRound _ hzero

theorem mix_rounds_means_three :
    Averages ⟨.sixteen, .bgra .sixteen⟩
        [(#[10, 200, 30, 90, 1, 2, 255, 255], 3), (#[60, 70, 80, 255, 200, 100, 255, 127], 1),
          (#[1, 2, 3, 0, 1, 1, 0, 0], 9)]
        #[1, 2, 3, 4, 5, 6, 7, 8, 9] #[127, 181, 183, 113, 29, 16, 236, 68, 9] ∧
      (Strict.mix ⟨.sixteen, .bgra .sixteen⟩
        [#[10, 200, 30, 90, 1, 2, 255, 255], #[60, 70, 80, 255, 200, 100, 255, 127],
          #[1, 2, 3, 0, 1, 1, 0, 0]] [3, 1, 9]).on #[1, 2, 3, 4, 5, 6, 7, 8, 9] =
        (.ok (), #[127, 181, 183, 113, 29, 16, 236, 68, 9]) := by
  have hon : (Strict.mix ⟨.sixteen, .bgra .sixteen⟩
      [#[10, 200, 30, 90, 1, 2, 255, 255], #[60, 70, 80, 255, 200, 100, 255, 127],
        #[1, 2, 3, 0, 1, 1, 0, 0]] [3, 1, 9]).on #[1, 2, 3, 4, 5, 6, 7, 8, 9] =
      (.ok (), #[127, 181, 183, 113, 29, 16, 236, 68, 9]) := by decide +kernel
  obtain ⟨out, -, hstrict, haverages⟩ := @mix_rounds_means ⟨.sixteen, .bgra .sixteen⟩
    [(#[10, 200, 30, 90, 1, 2, 255, 255], 3), (#[60, 70, 80, 255, 200, 100, 255, 127], 1),
      (#[1, 2, 3, 0, 1, 1, 0, 0], 9)] #[1, 2, 3, 4, 5, 6, 7, 8, 9]
    (by decide) (by decide) (by decide) (by decide) (by decide)
  obtain rfl : out = #[127, 181, 183, 113, 29, 16, 236, 68, 9] :=
    (Prod.mk.inj (hstrict.symm.trans hon)).2
  exact ⟨haverages, hon⟩

end Format

end PixelRecord
