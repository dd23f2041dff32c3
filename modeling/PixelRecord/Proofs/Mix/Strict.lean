import Mathlib.Algebra.Order.BigOperators.Group.List
import PixelRecord.Strict
import PixelRecord.Proofs.Composite.Strict
import PixelRecord.Proofs.Mix.Collection

/-!
The sums of a mix do not overflow.

Mixing in strict arithmetic is mixing, for up to `2 ^ 24` inputs: the two are the same
call, on every buffer. The greatest number on the way is a sum of products of a color,
an alpha and a weight, and so many of them, with half a divisor added, just fit into
64 bits. A mean is not greater than all of its values, so nothing is clamped either.
-/

namespace PixelRecord

open Edit FixedPoint FixedPoint.Strict

namespace FixedPoint.Strict

variable {values weights terms : List Nat}

theorem fitNat_eq_ok {bits n : Nat} (h : n < 2 ^ bits) : fitNat bits n = .ok n := if_pos h

/-- No sum on the way is greater than the last one. -/
theorem foldlM_add_eq_ok {sofar : Nat} (h : sofar + terms.sum < 2 ^ 64) :
    terms.foldlM (fun sofar term => fitNat 64 (sofar + term)) sofar =
      .ok (sofar + terms.sum) := by
  induction terms generalizing sofar with
  | nil => rfl
  | cons term rest ih =>
      rw [List.sum_cons] at h
      rw [List.foldlM_cons, fitNat_eq_ok (by omega), ok_bind, ih (by omega), List.sum_cons,
        Nat.add_assoc]

theorem sum_eq_ok (h : terms.sum < 2 ^ 64) : sum terms = .ok terms.sum := by
  rw [sum, foldlM_add_eq_ok (by omega), Nat.zero_add]

theorem products_eq_ok {v w : Nat} (hvw : v * w < 2 ^ 64) (hvalues : ∀ a ∈ values, a ≤ v)
    (hweights : ∀ b ∈ weights, b ≤ w) :
    products values weights = .ok (List.zipWith (· * ·) values weights) := by
  have hall : ∀ p ∈ values.zip weights, fitNat 64 (p.1 * p.2) = .ok (p.1 * p.2) := by
    intro p hp
    have hmem := List.of_mem_zip hp
    have hle := Nat.mul_le_mul (hvalues _ hmem.1) (hweights _ hmem.2)
    exact fitNat_eq_ok (by omega)
  rw [products, mapM_eq_ok hall, List.zip, List.map_zipWith]

theorem mem_zipWith_mul_le {v w : Nat} (hvalues : ∀ a ∈ values, a ≤ v)
    (hweights : ∀ b ∈ weights, b ≤ w) : ∀ p ∈ List.zipWith (· * ·) values weights, p ≤ v * w := by
  intro p hp
  rw [← List.map_uncurry_zip_eq_zipWith] at hp
  obtain ⟨⟨a, b⟩, hab, rfl⟩ := List.mem_map.mp hp
  have hmem := List.of_mem_zip hab
  exact Nat.mul_le_mul (hvalues a hmem.1) (hweights b hmem.2)

theorem sum_le_of_count {b : Nat} (h : ∀ t ∈ terms, t ≤ b) (hcount : terms.length ≤ 2 ^ 24) :
    terms.sum ≤ 2 ^ 24 * b :=
  (List.sum_le_card_nsmul terms b h).trans (Nat.mul_le_mul_right b hcount)

end FixedPoint.Strict

namespace Format

variable {f : Format} {inputs : List Bytes} {values weights : List Nat} {m : Nat}

theorem weightedSum_le (h : ∀ a ∈ values, a ≤ m) :
    weightedSum values weights ≤ m * total weights := by
  induction values generalizing weights with
  | nil => exact Nat.zero_le _
  | cons a rest ih =>
      cases weights with
      | nil => exact Nat.zero_le _
      | cons b weights =>
        have hfirst : a * b ≤ m * b := Nat.mul_le_mul_right b (h a List.mem_cons_self)
        have hrest := @ih weights fun a ha => h a (List.mem_cons_of_mem _ ha)
        simp only [weightedSum, total_eq_sum, List.zipWith_cons_cons, List.sum_cons,
          Nat.mul_add] at hrest ⊢
        omega

/-- A mean does not pass the greatest value. -/
theorem mean_le (h : ∀ a ∈ values, a ≤ m) (hweights : total weights ≠ 0) :
    mean values weights ≤ m :=
  divRound_le (Nat.pos_of_ne_zero hweights) (weightedSum_le h)

theorem answers_channelValues (f : Format) (ch : Channel) (inputs : List Bytes) :
    (liftM (f.channelValues ch inputs) : Edit (List Nat)).Answers
      fun values => ∀ a ∈ values, a ≤ f.depth.max := by
  apply answers_liftM
  intro values h
  induction inputs generalizing values with
  | nil =>
      cases h
      simp
  | cons input rest ih =>
      rw [channelValues, List.mapM_cons] at h
      obtain ⟨a, ha, h⟩ := bind_eq_ok h
      obtain ⟨values, hvalues, ⟨⟩⟩ := bind_eq_ok h
      rw [Channel.load] at ha
      split at ha
      · cases ha
        exact List.forall_mem_cons.mpr ⟨f.depth.load_le_max .., ih values hvalues⟩
      · cases ha

/-! ### The same call -/

namespace Strict

/-- A mean of values of a record, where an input counts for an alpha times a weight at the
most. -/
theorem weightedMean_eq (hvalues : ∀ a ∈ values, a ≤ 65535)
    (hweights : ∀ b ∈ weights, b ≤ 65535 * 255) (hcount : weights.length ≤ 2 ^ 24) :
    weightedMean values weights = Format.weightedMean values weights := by
  have hproducts := products_eq_ok (by decide) hvalues hweights
  have hnum : (List.zipWith (· * ·) values weights).sum ≤ 2 ^ 24 * (65535 * (65535 * 255)) := by
    refine sum_le_of_count (mem_zipWith_mul_le hvalues hweights) ?_
    rw [List.length_zipWith]
    exact (Nat.min_le_right ..).trans hcount
  have hden := sum_le_of_count hweights hcount
  rw [weightedMean, hproducts, ok_bind, sum_eq_ok (by omega), ok_bind, sum_eq_ok (by omega),
    ok_bind, fitNat_eq_ok (by omega), Format.weightedMean, Checked.divRound, Checked.nonzero,
    total_eq_sum, weightedSum, total_eq_sum]
  split <;> rfl

theorem mixColors_eq (hweights : ∀ b ∈ weights, b ≤ 65535 * 255)
    (hcount : weights.length ≤ 2 ^ 24) :
    mixColors f inputs weights = f.mixColors inputs weights := by
  have hmax := f.depth.max_lt
  have hsum := sum_le_of_count hweights hcount
  rw [mixColors, Format.mixColors, sum_eq_ok (by omega), liftM_ok_bind]
  refine forM_congr fun ch _ => ?_
  rw [total_eq_sum]
  split
  · exact store_eq (Nat.zero_le _)
  · next hzero =>
    refine (f.answers_channelValues ch inputs).bind_congr fun values hvalues => ?_
    have hvalues' : ∀ a ∈ values, a ≤ 65535 := fun a ha => (hvalues a ha).trans (by omega)
    rw [weightedMean_eq hvalues' hweights hcount, weightedMean_eq_ok values hzero,
      liftM_ok_bind, liftM_ok_bind, store_eq (mean_le hvalues hzero)]

theorem average_eq (hweights : ∀ b ∈ weights, b ≤ 255) (hcount : weights.length ≤ 2 ^ 24)
    (hzero : total weights ≠ 0) : average f inputs weights = f.average inputs weights := by
  have hmax := f.depth.max_lt
  have hsmall : ∀ b ∈ weights, b ≤ 65535 * 255 := fun b hb => (hweights b hb).trans (by decide)
  rw [average, Format.average]
  cases f.layout.alpha? with
  | none => exact mixColors_eq hsmall hcount
  | some alpha =>
    refine (f.answers_channelValues alpha inputs).bind_congr fun alphas halphas => ?_
    have halphas' : ∀ a ∈ alphas, a ≤ 65535 := fun a ha => (halphas a ha).trans (by omega)
    have hcover : (List.zipWith (· * ·) alphas weights).length ≤ 2 ^ 24 := by
      rw [List.length_zipWith]
      exact (Nat.min_le_right ..).trans hcount
    rw [products_eq_ok (by decide) halphas' hweights, liftM_ok_bind,
      mixColors_eq (mem_zipWith_mul_le halphas' hweights) hcover,
      weightedMean_eq halphas' hsmall hcount, weightedMean_eq_ok alphas hzero,
      liftM_ok_bind, liftM_ok_bind, store_eq (mean_le halphas hzero)]

theorem mixRecord_eq (hweights : ∀ b ∈ weights, b ≤ 255) (hcount : weights.length ≤ 2 ^ 24) :
    mixRecord f inputs weights = f.mixRecord inputs weights := by
  have hsum := sum_le_of_count hweights hcount
  unfold mixRecord
  split
  · rfl
  · next hmany =>
    unfold Format.mixRecord
    split
    · next only => exact absurd rfl (hmany only)
    · rw [sum_eq_ok (by omega), liftM_ok_bind, total_eq_sum]
      split
      · rfl
      · next hzero => exact average_eq hweights hcount hzero

/-- **The same call.** In strict arithmetic records are mixed as ever, whatever is in the
buffers. -/
theorem mix_eq {weights : List UInt8} (hcount : weights.length ≤ 2 ^ 24) :
    mix f inputs weights = f.mix inputs weights := by
  have hweights : ∀ b ∈ weights.map UInt8.toNat, b ≤ 255 :=
    List.forall_mem_map.mpr fun w _ => Nat.le_of_lt_succ w.toNat_lt
  rw [mix, Format.mix, mixRecord_eq hweights (by rwa [List.length_map])]

end Strict

end Format

end PixelRecord
