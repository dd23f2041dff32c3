import Mathlib.Data.Int.Log
import Mathlib.Data.Rat.Floor
import Mathlib.Tactic.FieldSimp
import Mathlib.Tactic.Linarith
import Mathlib.Tactic.Positivity
import PixelRecord.Number

/-!
Rounded fractions as rational numbers.

Fractions are rounded with numerators and denominators. What comes out is said here of the
numbers that they are: `roundEven` is the integer at most a half away, and the even one
where two are, and `roundTo` rounds a number to the grid of its last significant digit.
The exponent is found after rounding, which may carry into a new digit. The number is then
a power of the base, and since that power lies on the coarser grid too, rounding once more
to the grid of the new exponent finds the same number.
-/

namespace PixelRecord

/-! ### The nearest integer -/

/-- The nearest integer; of two that are equally near, the even one. -/
def roundEven (x : ℚ) : ℤ :=
  if 2 * Int.fract x < 1 then ⌊x⌋ else if 1 < 2 * Int.fract x then ⌊x⌋ + 1 else ⌊x⌋ + ⌊x⌋ % 2

section RoundEven

variable {x : ℚ} {n m : ℤ}

/-- The integer is at most a half away, and even where it is exactly a half away. -/
def IsNearest (x : ℚ) (n : ℤ) : Prop := |x - n| ≤ 1 / 2 ∧ (|x - n| = 1 / 2 → Even n)

theorem isNearest_roundEven (x : ℚ) : IsNearest x (roundEven x) := by
  have hx : x = ⌊x⌋ + Int.fract x := (Int.floor_add_fract x).symm
  have hnonneg := Int.fract_nonneg x
  have hlt := Int.fract_lt_one x
  unfold roundEven
  generalize ⌊x⌋ = k at hx ⊢
  generalize Int.fract x = f at hx hnonneg hlt ⊢
  subst hx
  split
  · next hlow =>
    have hdist : |(k : ℚ) + f - k| < 1 / 2 := by
      rw [add_sub_cancel_left, abs_of_nonneg hnonneg]
      linarith
    exact ⟨hdist.le, fun heq => absurd heq hdist.ne⟩
  · split
    · next hhigh =>
      have hdist : |(k : ℚ) + f - (k + 1 : ℤ)| < 1 / 2 := by
        rw [abs_lt]
        push_cast
        constructor <;> linarith
      exact ⟨hdist.le, fun heq => absurd heq hdist.ne⟩
    · next hlow hhigh =>
      obtain rfl : f = 1 / 2 := by linarith
      refine ⟨?_, fun _ => ⟨(k + 1) / 2, by omega⟩⟩
      obtain hk | hk : k % 2 = 0 ∨ k % 2 = 1 := by omega
      · rw [hk, add_zero, add_sub_cancel_left, abs_of_pos one_half_pos]
      · rw [hk, abs_le]
        push_cast
        constructor <;> linarith

/-- Two integers that are both nearest are a half away on both sides, and cannot both be
even. -/
theorem IsNearest.unique (hn : IsNearest x n) (hm : IsNearest x m) : n = m := by
  by_contra hne
  obtain ⟨hn, heven⟩ := hn
  obtain ⟨hm, heven'⟩ := hm
  have hsub : |((n - m : ℤ) : ℚ)| ≤ |x - n| + |x - m| := by
    push_cast
    calc |(n : ℚ) - m| = |(x - m) - (x - n)| := by rw [sub_sub_sub_cancel_left]
      _ ≤ |x - m| + |x - n| := abs_sub _ _
      _ = |x - n| + |x - m| := add_comm _ _
  have hone : (1 : ℚ) ≤ |((n - m : ℤ) : ℚ)| := by
    exact_mod_cast Int.one_le_abs (sub_ne_zero.mpr hne)
  have hnm : |((n - m : ℤ) : ℚ)| ≤ 1 := by linarith
  obtain ⟨a, ha⟩ := heven (by linarith)
  obtain ⟨b, hb⟩ := heven' (by linarith)
  have hle : |n - m| ≤ 1 := by exact_mod_cast hnm
  rw [abs_le] at hle
  omega

theorem roundEven_eq_iff : roundEven x = n ↔ IsNearest x n :=
  ⟨fun h => h ▸ isNearest_roundEven x, (isNearest_roundEven x).unique⟩

theorem abs_sub_roundEven_le (x : ℚ) : |x - roundEven x| ≤ 1 / 2 := (isNearest_roundEven x).1

theorem roundEven_eq_of_abs_sub_lt (h : |x - n| < 1 / 2) : roundEven x = n :=
  roundEven_eq_iff.mpr ⟨h.le, fun heq => absurd heq h.ne⟩

theorem roundEven_neg (x : ℚ) : roundEven (-x) = -roundEven x := by
  rw [roundEven_eq_iff]
  obtain ⟨hdist, heven⟩ := isNearest_roundEven x
  have hneg : |-x - (-roundEven x : ℤ)| = |x - roundEven x| := by
    rw [← abs_neg (x - roundEven x)]
    push_cast
    ring_nf
  rw [IsNearest, hneg]
  exact ⟨hdist, fun heq => (heven heq).neg⟩

theorem le_roundEven (h : (n : ℚ) ≤ x) : n ≤ roundEven x := by
  have hdist := (abs_le.mp (abs_sub_roundEven_le x)).2
  have hlt : (n : ℚ) < roundEven x + 1 := by linarith
  exact Int.lt_add_one_iff.mp (by exact_mod_cast hlt)

theorem roundEven_le (h : x ≤ n) : roundEven x ≤ n := by
  have hdist := (abs_le.mp (abs_sub_roundEven_le x)).1
  have hlt : (roundEven x : ℚ) < n + 1 := by linarith
  exact Int.lt_add_one_iff.mp (by exact_mod_cast hlt)

end RoundEven

/-! ### Significant digits -/

/-- The place value of the last of `digits` significant digits of `v`. -/
def lastPlace (base digits : ℕ) (v : ℚ) : ℚ := (base : ℚ) ^ (Int.log base |v| + 1 - digits)

/-- The number rounded to `digits` significant digits in a base; a tie goes to the even
digit. -/
def roundTo (base digits : ℕ) (v : ℚ) : ℚ :=
  roundEven (v / lastPlace base digits v) * lastPlace base digits v

section RoundTo

variable {base digits : ℕ} {v : ℚ}

theorem lastPlace_pos (hb : 1 < base) (digits : ℕ) (v : ℚ) : 0 < lastPlace base digits v :=
  zpow_pos (by exact_mod_cast zero_lt_one.trans hb) _

@[simp] theorem lastPlace_neg (base digits : ℕ) (v : ℚ) :
    lastPlace base digits (-v) = lastPlace base digits v := by
  rw [lastPlace, abs_neg, lastPlace]

@[simp] theorem roundTo_neg (base digits : ℕ) (v : ℚ) :
    roundTo base digits (-v) = -roundTo base digits v := by
  rw [roundTo, lastPlace_neg, neg_div, roundEven_neg, Int.cast_neg, neg_mul, roundTo]

theorem abs_roundTo_sub_le (hb : 1 < base) (digits : ℕ) (v : ℚ) :
    |roundTo base digits v - v| ≤ lastPlace base digits v / 2 := by
  have hpos := lastPlace_pos hb digits v
  rw [roundTo]
  generalize lastPlace base digits v = u at hpos
  have hscaled : roundEven (v / u) * u - v = -((v / u - roundEven (v / u)) * u) := by
    rw [sub_mul, div_mul_cancel₀ _ hpos.ne', neg_sub]
  rw [hscaled, abs_neg, abs_mul, abs_of_pos hpos]
  calc |v / u - roundEven (v / u)| * u ≤ 1 / 2 * u :=
        mul_le_mul_of_nonneg_right (abs_sub_roundEven_le _) hpos.le
    _ = u / 2 := by ring

/-- A half in the last digit is a small part of the number. -/
theorem abs_roundTo_sub_le_mul (hb : 1 < base) (digits : ℕ) (hv : v ≠ 0) :
    |roundTo base digits v - v| ≤ |v| * ((base : ℚ) ^ (1 - digits : ℤ) / 2) := by
  have hbase : (0 : ℚ) < base := by exact_mod_cast zero_lt_one.trans hb
  have hplace : lastPlace base digits v ≤ |v| * (base : ℚ) ^ (1 - digits : ℤ) := by
    rw [lastPlace, add_sub_assoc, zpow_add₀ hbase.ne']
    exact mul_le_mul_of_nonneg_right (Int.zpow_log_le_self hb (abs_pos.mpr hv))
      (zpow_nonneg hbase.le _)
  have herror := abs_roundTo_sub_le hb digits v
  linarith

theorem natCast_pow_mul_zpow (hb : 0 < base) (n : ℕ) (k : ℤ) :
    ((base ^ n : ℕ) : ℚ) * (base : ℚ) ^ k = (base : ℚ) ^ (n + k : ℤ) := by
  have hbase : (base : ℚ) ≠ 0 := by exact_mod_cast hb.ne'
  rw [Nat.cast_pow, ← zpow_natCast, ← zpow_add₀ hbase]

/-- In units of its last significant digit a number has that many digits before the point. -/
theorem div_lastPlace_mem (hb : 1 < base) (hd : 0 < digits) (hv : 0 < v) :
    ((base ^ (digits - 1) : ℕ) : ℚ) ≤ v / lastPlace base digits v ∧
      v / lastPlace base digits v < (base ^ digits : ℕ) := by
  have hpos := zero_lt_one.trans hb
  have hbase : (0 : ℚ) < base := by exact_mod_cast hpos
  rw [lastPlace, abs_of_pos hv, le_div_iff₀ (zpow_pos hbase _), div_lt_iff₀ (zpow_pos hbase _),
    natCast_pow_mul_zpow hpos, natCast_pow_mul_zpow hpos]
  constructor
  · convert Int.zpow_log_le_self hb hv using 2
    omega
  · convert Int.lt_zpow_succ_log_self hb v using 2
    omega

/-- A positive number is not rounded to zero, as its first digit is kept. -/
theorem roundTo_pos (hb : 1 < base) (hd : 0 < digits) (hv : 0 < v) : 0 < roundTo base digits v := by
  have hle := le_roundEven (n := (base ^ (digits - 1) : ℕ))
    (by exact_mod_cast (div_lastPlace_mem hb hd hv).1)
  have hone : 0 < base ^ (digits - 1) := Nat.pow_pos (zero_lt_one.trans hb)
  refine mul_pos ?_ (lastPlace_pos hb digits v)
  exact_mod_cast (by exact_mod_cast hone : (0 : ℤ) < (base ^ (digits - 1) : ℕ)).trans_le hle

end RoundTo

/-! ### Signs -/

def signed (negative : Bool) (v : ℚ) : ℚ := if negative then -v else v

@[simp] theorem abs_signed (negative : Bool) (v : ℚ) : |signed negative v| = |v| := by
  cases negative
  · rfl
  · exact abs_neg v

theorem roundTo_signed (base digits : ℕ) (negative : Bool) (v : ℚ) :
    roundTo base digits (signed negative v) = signed negative (roundTo base digits v) := by
  cases negative
  · rfl
  · exact roundTo_neg base digits v

/-! ### Fractions -/

namespace Ratio

/-- The number that a fraction is. -/
def value (r : Ratio) : ℚ := r.num / r.den

@[mk_iff]
structure Positive (r : Ratio) : Prop where
  num : 0 < r.num
  den : 0 < r.den

variable {base digits : ℕ} {r : Ratio}

theorem Positive.value (h : r.Positive) : 0 < r.value :=
  div_pos (by exact_mod_cast h.num) (by exact_mod_cast h.den)

theorem Positive.shift (h : r.Positive) (hb : 0 < base) (k : ℤ) : (r.shift base k).Positive := by
  unfold Ratio.shift
  split
  · exact ⟨Nat.mul_pos h.num (Nat.pow_pos hb), h.den⟩
  · exact ⟨h.num, Nat.mul_pos h.den (Nat.pow_pos hb)⟩

theorem value_shift (hb : 0 < base) (k : ℤ) (r : Ratio) :
    (r.shift base k).value = r.value * (base : ℚ) ^ k := by
  have hbase : (base : ℚ) ≠ 0 := by exact_mod_cast hb.ne'
  unfold Ratio.shift Ratio.value
  split
  · next hk =>
    obtain ⟨n, rfl⟩ := Int.eq_ofNat_of_zero_le hk
    simp [div_mul_eq_mul_div]
  · next hk =>
    obtain ⟨n, hn⟩ := Int.eq_ofNat_of_zero_le (a := -k) (by omega)
    obtain rfl : k = -n := by omega
    simp [zpow_neg, div_mul_eq_div_div, ← div_eq_mul_inv]

theorem round_eq (hden : 0 < r.den) : (r.round : ℤ) = roundEven r.value := by
  have hfloor : ⌊r.value⌋ = ((r.num / r.den : ℕ) : ℤ) := Rat.floor_natCast_div_natCast r.num r.den
  have hfract : Int.fract r.value = (r.num % r.den : ℕ) / r.den :=
    Int.fract_div_natCast_eq_div_natCast_mod
  have hpos : (0 : ℚ) < r.den := by exact_mod_cast hden
  have hlow : 2 * Int.fract r.value < 1 ↔ 2 * (r.num % r.den) < r.den := by
    rw [hfract, ← mul_div_assoc, div_lt_one hpos]
    exact_mod_cast Iff.rfl
  have hhigh : 1 < 2 * Int.fract r.value ↔ r.den < 2 * (r.num % r.den) := by
    rw [hfract, ← mul_div_assoc, one_lt_div hpos]
    exact_mod_cast Iff.rfl
  simp only [Ratio.round, roundEven, hlow, hhigh, hfloor]
  split
  · rfl
  · split <;> push_cast <;> rfl

/-- A number lies between the powers of the base that its count of digits names. -/
theorem exists_length_toDigits (hb : 1 < base) {n : ℕ} (hn : 0 < n) :
    ∃ k : ℕ, (Nat.toDigits base n).length = k + 1 ∧ (base : ℚ) ^ (k : ℤ) ≤ n ∧
      (n : ℚ) < (base : ℚ) ^ (k + 1 : ℤ) := by
  obtain ⟨k, hk⟩ := Nat.exists_eq_add_of_le' (Nat.length_toDigits_pos (b := base) (n := n))
  have hupper : n < base ^ (k + 1) := (Nat.length_toDigits_le_iff hb k.succ_pos).mp hk.le
  have hlower : base ^ k ≤ n := by
    cases k with
    | zero => rwa [pow_zero]
    | succ k =>
      by_contra hlt
      have hle := (Nat.length_toDigits_le_iff hb k.succ_pos).mpr (not_le.mp hlt)
      omega
  refine ⟨k, hk, ?_, by exact_mod_cast hupper⟩
  rw [zpow_natCast]
  exact_mod_cast hlower

/-- The counts of digits of a fraction leave two candidates for its logarithm. -/
theorem log_value_mem (hb : 1 < base) (h : r.Positive) {a b : ℕ}
    (hnum : (base : ℚ) ^ (a : ℤ) ≤ r.num) (hnum' : (r.num : ℚ) < (base : ℚ) ^ (a + 1 : ℤ))
    (hden : (base : ℚ) ^ (b : ℤ) ≤ r.den) (hden' : (r.den : ℚ) < (base : ℚ) ^ (b + 1 : ℤ)) :
    (a : ℤ) - b - 1 ≤ Int.log base r.value ∧ Int.log base r.value ≤ a - b := by
  have hbase : (0 : ℚ) < base := by exact_mod_cast zero_lt_one.trans hb
  have hdenpos : (0 : ℚ) < r.den := by exact_mod_cast h.den
  constructor
  · apply (Int.zpow_le_iff_le_log hb h.value).mp
    rw [Ratio.value, le_div_iff₀ hdenpos]
    calc (base : ℚ) ^ ((a : ℤ) - b - 1) * r.den
        ≤ (base : ℚ) ^ ((a : ℤ) - b - 1) * (base : ℚ) ^ (b + 1 : ℤ) :=
          mul_le_mul_of_nonneg_left hden'.le (zpow_nonneg hbase.le _)
      _ = (base : ℚ) ^ (a : ℤ) := by
          rw [← zpow_add₀ hbase.ne']
          ring_nf
      _ ≤ r.num := hnum
  · apply Int.lt_add_one_iff.mp
    apply (Int.lt_zpow_iff_log_lt hb h.value).mp
    rw [Ratio.value, div_lt_iff₀ hdenpos]
    calc (r.num : ℚ) < (base : ℚ) ^ (a + 1 : ℤ) := hnum'
      _ = (base : ℚ) ^ ((a : ℤ) - b + 1) * (base : ℚ) ^ (b : ℤ) := by
          rw [← zpow_add₀ hbase.ne']
          ring_nf
      _ ≤ (base : ℚ) ^ ((a : ℤ) - b + 1) * r.den :=
          mul_le_mul_of_nonneg_left hden (zpow_nonneg hbase.le _)

/-- An exponent is not too great if the fraction without it is at least one. -/
theorem den_le_num_shift_iff (hb : 1 < base) (h : r.Positive) (e : ℤ) :
    (r.shift base (-e)).den ≤ (r.shift base (-e)).num ↔ e ≤ Int.log base r.value := by
  have hbase : (0 : ℚ) < base := by exact_mod_cast zero_lt_one.trans hb
  have hscaled := h.shift (zero_lt_one.trans hb) (-e)
  rw [← Int.zpow_le_iff_le_log hb h.value, ← mul_one ((base : ℚ) ^ e),
    ← le_div_iff₀' (zpow_pos hbase _), div_eq_mul_inv, ← zpow_neg,
    ← value_shift (zero_lt_one.trans hb), Ratio.value, one_le_div (by exact_mod_cast hscaled.den)]
  exact Nat.cast_le.symm

/-- The leading digit's exponent is the logarithm. -/
theorem order_eq (hb : 1 < base) (h : r.Positive) : r.order base = Int.log base r.value := by
  obtain ⟨a, ha, hnum, hnum'⟩ := exists_length_toDigits hb h.num
  obtain ⟨b, hb', hden, hden'⟩ := exists_length_toDigits hb h.den
  obtain ⟨hge, hle⟩ := log_value_mem hb h hnum hnum' hden hden'
  have he : ((Nat.toDigits base r.num).length : ℤ) - (Nat.toDigits base r.den).length = a - b := by
    rw [ha, hb']
    push_cast
    ring
  simp only [Ratio.order, he, den_le_num_shift_iff hb h]
  split <;> omega

/-- `m` holds the digits of a rounded number, the first of which has the exponent `e`. -/
structure Rounded (base digits : ℕ) (v : ℚ) (m : ℕ) (e : ℤ) : Prop where
  le : base ^ (digits - 1) ≤ m
  lt : m < base ^ digits
  eq : (m : ℚ) * (base : ℚ) ^ (e + 1 - digits) = roundTo base digits v
  /-- Rounding to the place that the last digit has in the end gives the same digits. -/
  again : roundEven (v * (base : ℚ) ^ (digits - 1 - e)) = m

theorem rounded_of_lt (hb : 1 < base) (hd : 0 < digits) {v : ℚ} (hv : 0 < v) {m : ℕ}
    (hm : roundEven (v / lastPlace base digits v) = m) (hlt : m < base ^ digits) :
    Rounded base digits v m (Int.log base v) := by
  refine ⟨?_, hlt, ?_, ?_⟩
  · have hle := le_roundEven (n := (base ^ (digits - 1) : ℕ))
      (by exact_mod_cast (div_lastPlace_mem hb hd hv).1)
    rw [hm] at hle
    exact_mod_cast hle
  · rw [roundTo, hm, lastPlace, abs_of_pos hv, Int.cast_natCast]
  · rw [← hm, lastPlace, abs_of_pos hv, div_eq_mul_inv, ← zpow_neg]
    ring_nf

/-- A carry into a new digit leaves a power of the base. -/
theorem rounded_of_carry (hb : 1 < base) (hd : 0 < digits) {v : ℚ} (hv : 0 < v)
    (hm : roundEven (v / lastPlace base digits v) = (base ^ digits : ℕ)) :
    Rounded base digits v (base ^ (digits - 1)) (Int.log base v + 1) := by
  have hpos := zero_lt_one.trans hb
  have hbase : (1 : ℚ) < base := by exact_mod_cast hb
  refine ⟨le_rfl, Nat.pow_lt_pow_right hb (Nat.sub_lt hd one_pos), ?_, ?_⟩
  · rw [roundTo, hm, lastPlace, abs_of_pos hv, Int.cast_natCast, natCast_pow_mul_zpow hpos,
      natCast_pow_mul_zpow hpos]
    congr 1
    omega
  · -- The error of the first rounding counts for less on the coarser grid.
    apply roundEven_eq_of_abs_sub_lt
    have hdist := abs_sub_roundEven_le (v / lastPlace base digits v)
    rw [hm] at hdist
    have hpower : base ^ digits = base ^ (digits - 1) * base := (pow_sub_one_mul hd.ne' base).symm
    have hscaled : v * (base : ℚ) ^ (digits - 1 - (Int.log base v + 1)) =
        v / lastPlace base digits v / base := by
      rw [lastPlace, abs_of_pos hv, div_div, ← zpow_add_one₀ (by positivity), div_eq_mul_inv,
        ← zpow_neg]
      ring_nf
    have hcoarse : v * (base : ℚ) ^ (digits - 1 - (Int.log base v + 1)) -
        ((base ^ (digits - 1) : ℕ) : ℤ) =
          (v / lastPlace base digits v - ((base ^ digits : ℕ) : ℤ)) / base := by
      rw [hscaled, sub_div, hpower]
      push_cast
      rw [mul_div_cancel_right₀ _ (by positivity)]
    rw [hcoarse, abs_div, abs_of_pos (by positivity : (0 : ℚ) < base), div_lt_iff₀ (by positivity)]
    linarith

theorem rounded_significant (hb : 1 < base) (hd : 0 < digits) (h : r.Positive) :
    Rounded base digits r.value (r.significant base digits).1 (r.significant base digits).2 := by
  have hpos := zero_lt_one.trans hb
  have hm : roundEven (r.value / lastPlace base digits r.value) =
      ((r.shift base (digits - 1 - Int.log base r.value)).round : ℕ) := by
    rw [round_eq (h.shift hpos _).den, value_shift hpos, lastPlace, abs_of_pos h.value,
      div_eq_mul_inv, ← zpow_neg]
    ring_nf
  have hle := roundEven_le (n := (base ^ digits : ℕ))
    (by exact_mod_cast (div_lastPlace_mem hb hd h.value).2.le)
  unfold Ratio.significant
  dsimp only
  rw [order_eq hb h]
  generalize (r.shift base (digits - 1 - Int.log base r.value)).round = m at hm
  rw [hm] at hle
  split
  · next hcarry => exact rounded_of_carry hb hd h.value (hm.trans (by rw [hcarry]; rfl))
  · next hne =>
    exact rounded_of_lt hb hd h.value hm (lt_of_le_of_ne (by exact_mod_cast hle) hne)

/-- The exponent is that of the rounded number. -/
theorem Rounded.log_eq {v : ℚ} {m : ℕ} {e : ℤ} (hb : 1 < base) (hd : 0 < digits)
    (h : Rounded base digits v m e) : Int.log base (roundTo base digits v) = e := by
  have hpos := zero_lt_one.trans hb
  have hbase : (0 : ℚ) < base := by exact_mod_cast hpos
  have hm : (0 : ℚ) < m := by exact_mod_cast (Nat.pow_pos hpos).trans_le h.le
  have hplace : (0 : ℚ) < (base : ℚ) ^ (e + 1 - digits) := zpow_pos hbase _
  have hle : ((base ^ (digits - 1) : ℕ) : ℚ) ≤ m := by exact_mod_cast h.le
  have hlt : (m : ℚ) < (base ^ digits : ℕ) := by exact_mod_cast h.lt
  have hle' := mul_le_mul_of_nonneg_right hle hplace.le
  have hlt' := mul_lt_mul_of_pos_right hlt hplace
  rw [natCast_pow_mul_zpow hpos, h.eq] at hle' hlt'
  rw [show ((digits - 1 : ℕ) : ℤ) + (e + 1 - digits) = e by omega] at hle'
  rw [add_sub_cancel] at hlt'
  have hvalue : 0 < roundTo base digits v := h.eq ▸ mul_pos hm hplace
  exact le_antisymm (Int.lt_add_one_iff.mp ((Int.lt_zpow_iff_log_lt hb hvalue).mp hlt'))
    ((Int.zpow_le_iff_le_log hb hvalue).mp hle')

end Ratio

end PixelRecord
