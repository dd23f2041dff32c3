import Mathlib.Algebra.Order.Field.Basic
import Mathlib.Algebra.Order.Field.Rat
import Mathlib.Algebra.Order.Ring.Abs
import Mathlib.Data.Rat.Cast.Order
import Mathlib.Tactic.FieldSimp
import Mathlib.Tactic.Linarith
import Mathlib.Tactic.Ring
import PixelRecord.Composite.Formula

/-!
The arithmetic of compositing is exact rounding.

`Formula.nearest` is determined by two inequalities, and everything about it
follows from them. On a scale that is odd and far below the word size, each of
the three operations of `FixedPoint` is `nearest` of the exact result: nothing
is cut off by a word, the clamp of a quotient is never needed, and the signed
step of an interpolation, which rounds halves away from zero, meets no halves.
-/

namespace PixelRecord

/-! ### The nearest integer -/

namespace Formula

variable {num num' den q : Int}

theorem nearest_eq_iff (hden : 0 < den) :
    nearest num den = q ↔
      2 * (q * den) ≤ 2 * num + den ∧ 2 * num + den < 2 * (q * den) + 2 * den := by
  have hpos : 0 < 2 * den := by omega
  have hleft : q * (2 * den) = 2 * (q * den) := by ring
  have hright : (q + 1) * (2 * den) = 2 * (q * den) + 2 * den := by ring
  rw [nearest, ← hright, ← hleft, ← Int.le_ediv_iff_mul_le hpos, ← Int.ediv_lt_iff_lt_mul hpos]
  omega

@[simp] theorem nearest_mul_self (hden : 0 < den) : nearest (q * den) den = q := by
  rw [nearest_eq_iff hden]
  omega

@[simp] theorem nearest_zero (hden : 0 < den) : nearest 0 den = 0 := by
  rw [nearest_eq_iff hden]
  omega

theorem nearest_mono (hden : 0 < den) (h : num ≤ num') : nearest num den ≤ nearest num' den :=
  Int.ediv_le_ediv (by omega) (by omega)

theorem nearest_nonneg (hden : 0 < den) (h : 0 ≤ num) : 0 ≤ nearest num den := by
  rw [← nearest_zero hden]
  exact nearest_mono hden h

theorem nearest_le (hden : 0 < den) (h : num ≤ q * den) : nearest num den ≤ q := by
  rw [← nearest_mul_self (q := q) hden]
  exact nearest_mono hden h

theorem le_nearest (hden : 0 < den) (h : q * den ≤ num) : q ≤ nearest num den := by
  rw [← nearest_mul_self (q := q) hden]
  exact nearest_mono hden h

/-- A whole number that is added is not touched by rounding. -/
theorem nearest_add_mul (hden : 0 < den) : nearest (num + q * den) den = nearest num den + q := by
  have hnum := (nearest_eq_iff hden).mp (rfl : nearest num den = nearest num den)
  rw [nearest_eq_iff hden, Int.add_mul]
  constructor <;> linarith

/-- Fractions in order are rounded in order, whatever their denominators. -/
theorem nearest_le_nearest {den' : Int} (hden : 0 < den) (hden' : 0 < den')
    (h : num * den' ≤ num' * den) : nearest num den ≤ nearest num' den' := by
  have hnum := (nearest_eq_iff hden).mp (rfl : nearest num den = nearest num den)
  generalize nearest num den = q at hnum
  have hscaled : q * (2 * den') * den ≤ (2 * num' + den') * den :=
    calc q * (2 * den') * den = 2 * (q * den) * den' := by ring
      _ ≤ (2 * num + den) * den' := mul_le_mul_of_nonneg_right hnum.1 hden'.le
      _ = 2 * (num * den') + den' * den := by ring
      _ ≤ 2 * (num' * den) + den' * den := by linarith
      _ = (2 * num' + den') * den := by ring
  exact (Int.le_ediv_iff_mul_le (by omega)).mpr (le_of_mul_le_mul_right hscaled hden)

/-- What rounding adds to a fraction, in parts of its denominator. -/
def excess (num den : Int) : Int := nearest num den * den - num

theorem nearest_mul (num den : Int) : nearest num den * den = num + excess num den := by
  rw [excess, add_sub_cancel]

theorem two_mul_abs_excess_le (hden : 0 < den) : 2 * |excess num den| ≤ den := by
  have hnum := (nearest_eq_iff hden).mp (rfl : nearest num den = nearest num den)
  rw [excess]
  generalize nearest num den * den = p at hnum
  rcases abs_cases (p - num) with ⟨h, _⟩ | ⟨h, _⟩ <;> omega

/-- A step from `d` towards `s` by the part `k` leads to the mean of the two, weighted by the
part of the way that is gone and the part that is left. -/
theorem add_nearest_step {s d k : Int} (hden : 0 < den) :
    d + nearest ((s - d) * k) den = nearest (s * k + d * (den - k)) den := by
  have hmean : s * k + d * (den - k) = (s - d) * k + d * den := by ring
  rw [hmean, nearest_add_mul hden, Int.add_comm]

/-- Multiplied by its divisor again, a quotient is the dividend again: what rounding added to
the quotient counts for less than a half on a scale that is greater than the divisor, and on
the scale of the divisor itself nothing was added. -/
theorem nearest_mul_nearest {a b : Int} (hb : 0 < b) (h : b ≤ den) :
    nearest (b * nearest (a * den) b) den = a := by
  rcases h.eq_or_lt with rfl | hlt
  · rw [nearest_mul_self hb, Int.mul_comm, nearest_mul_self hb]
  · have hnum := (nearest_eq_iff hb).mp (rfl : nearest (a * den) b = nearest (a * den) b)
    rw [Int.mul_comm b, nearest_eq_iff (hb.trans hlt)]
    omega

/-! ### Odd divisors -/

section Odd

variable {max : Nat}

/-- Divided by an odd number, nothing is rounded by a half. -/
theorem abs_nearest_sub_lt (hodd : max % 2 = 1) :
    |(nearest num max : ℚ) - num / max| < 1 / 2 := by
  have hpos : (0 : Int) < max := by omega
  have hmax : (0 : ℚ) < max := by exact_mod_cast hpos
  have hnear := (nearest_eq_iff hpos).mp (rfl : nearest num max = nearest num max)
  generalize nearest num max = q at hnear
  -- A difference of exactly a half would make twice the numerator an odd multiple.
  have hlow : -(max : Int) < 2 * (q * max - num) := by omega
  have hhigh : 2 * (q * max - num) < max := by
    have hne : 2 * (q * max) ≠ 2 * num + max := by omega
    omega
  have hlow' : -(max : ℚ) < 2 * (q * max - num) := by exact_mod_cast hlow
  have hhigh' : 2 * (q * max - num) < (max : ℚ) := by exact_mod_cast hhigh
  have hsub : (q : ℚ) - num / max = (q * max - num) / max := by
    field_simp
  rw [hsub, abs_lt, lt_div_iff₀ hmax, div_lt_iff₀ hmax]
  constructor <;> linarith

/-- So every other integer is farther from the fraction. -/
theorem abs_nearest_sub_lt_of_ne (hodd : max % 2 = 1) (h : q ≠ nearest num max) :
    |(nearest num max : ℚ) - num / max| < |(q : ℚ) - num / max| := by
  have hnear := @abs_nearest_sub_lt num max hodd
  have hapart : (1 : ℚ) ≤ |(q : ℚ) - nearest num max| := by
    exact_mod_cast Int.one_le_abs (sub_ne_zero.mpr h)
  have hway := abs_sub_le (q : ℚ) (num / max) (nearest num max)
  rw [abs_sub_comm ((num : ℚ) / max)] at hway
  linarith

/-- And a fraction below zero is rounded as the same one above. -/
theorem nearest_neg (hodd : max % 2 = 1) : nearest (-num) max = -nearest num max := by
  have hmax : (0 : Int) < max := by omega
  have hnum := (nearest_eq_iff hmax).mp (rfl : nearest num max = nearest num max)
  rw [nearest_eq_iff hmax, Int.neg_mul]
  generalize nearest num max * max = p at hnum
  omega

/-- What is left of a whole number is rounded as the part that was taken away. -/
theorem nearest_mul_sub (hodd : max % 2 = 1) :
    nearest (q * max - num) max = q - nearest num max := by
  have hmax : (0 : Int) < max := by omega
  rw [show q * max - num = -num + q * max by ring, nearest_add_mul hmax, nearest_neg hodd]
  omega

end Odd

end Formula

namespace FixedPoint

open Formula

/-! ### Products and quotients -/

theorem divRound_eq_nearest {num den : Nat} (hden : 0 < den) :
    (divRound num den : Int) = nearest num den := by
  symm
  rw [nearest_eq_iff (by exact_mod_cast hden)]
  have hmod : divRound num den * den + (num + den / 2) % den = num + den / 2 :=
    Nat.div_add_mod' ..
  have hlt := Nat.mod_lt (num + den / 2) hden
  generalize (num + den / 2) % den = rest at hmod hlt
  zify at hmod hlt
  omega

theorem divRound_mul_self {q den : Nat} (hden : 0 < den) : divRound (q * den) den = q := by
  have hexact : nearest ((q : Int) * den) den = q :=
    nearest_mul_self (by exact_mod_cast hden)
  rw [← Nat.cast_mul, ← divRound_eq_nearest hden] at hexact
  exact_mod_cast hexact

theorem divRound_mono {num num' den : Nat} (h : num ≤ num') :
    divRound num den ≤ divRound num' den :=
  Nat.div_le_div_right (Nat.add_le_add_right h (den / 2))

theorem divRound_le {num den m : Nat} (hden : 0 < den) (h : num ≤ m * den) :
    divRound num den ≤ m := by
  have hle : nearest num den ≤ m := nearest_le (by exact_mod_cast hden) (by exact_mod_cast h)
  rw [← divRound_eq_nearest hden] at hle
  exact_mod_cast hle

theorem word_of_lt {n : Nat} (h : n < wordValues) : word n = n := Nat.mod_eq_of_lt h

/-- A scale on which every operation rounds exactly: a word holds its values,
and, as it is odd, no quotient by it is a half. -/
structure Scale (max : Nat) : Prop where
  odd : max % 2 = 1
  lt_wordValues : max < wordValues

theorem Scale.pos {max : Nat} (h : Scale max) : 0 < max := by
  have := h.odd
  omega

/-- The greatest value of a scale, as the formulas have it. -/
theorem Scale.cast_pos {max : Nat} (h : Scale max) : (0 : Int) < max :=
  Int.natCast_pos.mpr h.pos

theorem scale_max (d : Depth) : Scale d.max := by
  cases d <;> exact ⟨by decide, by decide⟩

section Scale

variable {max a b : Nat}

theorem mulDiv_le (hmax : 0 < max) (hb : b ≤ max) : mulDiv a b max ≤ a :=
  (Nat.mod_le _ _).trans (divRound_le hmax (Nat.mul_le_mul_left a hb))

/-- A full factor changes nothing. -/
theorem mulDiv_full (hmax : 0 < max) (hlt : max < wordValues) (hb : b ≤ max) :
    mulDiv max b max = b := by
  rw [mulDiv, Nat.mul_comm, divRound_mul_self hmax, word_of_lt (hb.trans_lt hlt)]

theorem mulDiv_eq_nearest_of_lt (hmax : 0 < max) (hlt : max < wordValues) (ha : a ≤ max)
    (hb : b ≤ max) : (mulDiv a b max : Int) = nearest (a * b) max := by
  have hle : divRound (a * b) max ≤ a := divRound_le hmax (Nat.mul_le_mul_left a hb)
  rw [mulDiv, word_of_lt (by omega), divRound_eq_nearest hmax, Nat.cast_mul]

theorem mulDiv_eq_nearest (hs : Scale max) (ha : a ≤ max) (hb : b ≤ max) :
    (mulDiv a b max : Int) = nearest (a * b) max :=
  mulDiv_eq_nearest_of_lt hs.pos hs.lt_wordValues ha hb

theorem divNorm_le : divNorm a b max ≤ max := by
  rw [divNorm]
  split
  · exact le_rfl
  · exact Nat.min_le_right ..

/-- The clamp of a quotient is not needed for a proper fraction. -/
theorem divNorm_eq_nearest_of_lt (hlt : max < wordValues) (hb : 0 < b) (hab : a ≤ b) :
    (divNorm a b max : Int) = nearest (a * max) b := by
  have hle : divRound (a * max) b ≤ max :=
    divRound_le hb (by rw [Nat.mul_comm max b]; exact Nat.mul_le_mul_right max hab)
  rw [divNorm, if_neg (by omega), word_of_lt (by omega), Nat.min_eq_left hle,
    divRound_eq_nearest hb, Nat.cast_mul]

theorem divNorm_eq_nearest (hs : Scale max) (hb : 0 < b) (hab : a ≤ b) :
    (divNorm a b max : Int) = nearest (a * max) b :=
  divNorm_eq_nearest_of_lt hs.lt_wordValues hb hab

/-- A product with a quotient by the same value takes the quotient back. The scale need not
be odd for it. -/
theorem mulDiv_divNorm (hlt : max < wordValues) (hb : 0 < b) (hab : a ≤ b) (hbmax : b ≤ max) :
    mulDiv b (divNorm a b max) max = a := by
  have hproduct : (mulDiv b (divNorm a b max) max : Int) = a := by
    rw [mulDiv_eq_nearest_of_lt (hb.trans_le hbmax) hlt hbmax divNorm_le,
      divNorm_eq_nearest_of_lt hlt hb hab]
    exact nearest_mul_nearest (Int.natCast_pos.mpr hb) (Int.ofNat_le.mpr hbmax)
  exact_mod_cast hproduct

/-! ### Interpolation -/

/-- On an odd scale no step is a half, so that rounding halves away from zero is
rounding to the nearest integer. -/
theorem blendStep_eq_nearest {src dst k : Nat} (hs : Scale max) :
    blendStep src dst k max = nearest (((src : Int) - dst) * k) max := by
  have hpos : (0 : Int) < max := by exact_mod_cast hs.pos
  have hodd : (max : Int) = 2 * (max / 2 : Nat) + 1 := by
    have := hs.odd
    omega
  symm
  unfold blendStep
  generalize ((src : Int) - dst) * k = delta
  generalize ((max / 2 : Nat) : Int) = half at hodd
  dsimp only
  split
  · have hdiv := Int.mul_ediv_add_emod (delta + half) max
    have hnonneg := Int.emod_nonneg (delta + half) hpos.ne'
    have hlt := Int.emod_lt_of_pos (delta + half) hpos
    rw [nearest_eq_iff hpos]
    constructor <;> linarith
  · have hdiv := Int.mul_ediv_add_emod (-delta + half) max
    have hnonneg := Int.emod_nonneg (-delta + half) hpos.ne'
    have hlt := Int.emod_lt_of_pos (-delta + half) hpos
    rw [nearest_eq_iff hpos]
    constructor <;> linarith

/-- An interpolation does not leave the interval between its ends. -/
theorem nearest_step_mem {src dst k : Int} (hmax : (0 : Int) < max) (hk : 0 ≤ k) (hk' : k ≤ max) :
    min src dst ≤ dst + nearest ((src - dst) * k) max ∧
      dst + nearest ((src - dst) * k) max ≤ Max.max src dst := by
  by_cases h : dst ≤ src
  · have hlow := nearest_nonneg hmax (mul_nonneg (sub_nonneg.mpr h) hk)
    have hhigh : nearest ((src - dst) * k) max ≤ src - dst :=
      nearest_le hmax (mul_le_mul_of_nonneg_left hk' (sub_nonneg.mpr h))
    omega
  · have hlow : src - dst ≤ nearest ((src - dst) * k) max :=
      le_nearest hmax (mul_le_mul_of_nonpos_left hk' (by omega))
    have hhigh : nearest ((src - dst) * k) max ≤ 0 :=
      nearest_le hmax (by rw [zero_mul]; exact mul_nonpos_of_nonpos_of_nonneg (by omega) hk)
    omega

theorem blend_eq_nearest {src dst k : Nat} (hs : Scale max) (hsrc : src ≤ max) (hdst : dst ≤ max)
    (hk : k ≤ max) :
    (blend src dst k max : Int) = dst + nearest (((src : Int) - dst) * k) max ∧
      blend src dst k max ≤ max := by
  have hlt := hs.lt_wordValues
  have hmem := @nearest_step_mem max src dst k (by exact_mod_cast hs.pos) (by omega)
    (by exact_mod_cast hk)
  -- A value between two values of the scale is not cut off by the word.
  rw [blend, blendStep_eq_nearest hs]
  generalize (dst : Int) + nearest (((src : Int) - dst) * k) max = v at hmem ⊢
  rw [Int.emod_eq_of_lt (by omega) (by omega)]
  omega

end Scale

end FixedPoint

end PixelRecord
