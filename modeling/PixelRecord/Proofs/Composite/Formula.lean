import PixelRecord.Proofs.FixedPoint

/-!
The formulas of a separable operation, as functions of the effective alpha.

The alpha goes to its union with the effective alpha `sa`, and every color goes the
same part of its way, the part that `sa` makes up in that union. Both depend on `sa`
alone once the destination is given, and both grow with it: the union by at most as
much as `sa` does, which is why the part of it does not shrink. What is said of colors
further on comes from the place of that part between nothing and the whole.
-/

namespace PixelRecord

namespace Formula

/-- A value of the scale from 0 to `max`. -/
structure OnScale (max v : Int) : Prop where
  nonneg : 0 ≤ v
  le : v ≤ max

theorem onScale_cast {v max : Nat} (h : v ≤ max) : OnScale max v :=
  ⟨Int.natCast_nonneg v, Int.ofNat_le.mpr h⟩

/-- The alpha of the source, as mask and opacity let it through. -/
def effective (max cover : Int) (src : PixelValues) : Int :=
  nearest (src.alpha.getD max * cover) max

/-! ### The union -/

/-- The alpha that an effective alpha `sa` makes of `da`. -/
def union (max sa da : Int) : Int := da + nearest ((max - da) * sa) max

section Union

variable {max sa sa' da : Int}

@[simp] theorem united_some (max sa da : Int) :
    united max sa (some da) = some (union max sa da) := rfl

theorem union_zero (hmax : 0 < max) : union max 0 da = da := by
  rw [union, Int.mul_zero, nearest_zero hmax, Int.add_zero]

/-- Over an opaque destination there is nothing left to cover. -/
theorem union_full (hmax : 0 < max) : union max sa max = max := by
  rw [union, Int.sub_self, Int.zero_mul, nearest_zero hmax, Int.add_zero]

theorem le_union (hmax : 0 < max) (hsa : 0 ≤ sa) (hda : da ≤ max) : da ≤ union max sa da := by
  have hadded : 0 ≤ nearest ((max - da) * sa) max :=
    nearest_nonneg hmax (mul_nonneg (sub_nonneg.mpr hda) hsa)
  rw [union]
  omega

theorem effective_le_union (hmax : 0 < max) (hsa : sa ≤ max) (hda : 0 ≤ da) :
    sa ≤ union max sa da := by
  have hadded : sa - da ≤ nearest ((max - da) * sa) max := by
    refine le_nearest hmax ?_
    have hprod : da * sa ≤ da * max := mul_le_mul_of_nonneg_left hsa hda
    linarith
  rw [union]
  omega

theorem union_le (hmax : 0 < max) (hsa : sa ≤ max) (hda : da ≤ max) :
    union max sa da ≤ max := by
  have hadded : nearest ((max - da) * sa) max ≤ max - da :=
    nearest_le hmax (mul_le_mul_of_nonneg_left hsa (sub_nonneg.mpr hda))
  rw [union]
  omega

theorem union_mono (hmax : 0 < max) (hda : da ≤ max) (h : sa ≤ sa') :
    union max sa da ≤ union max sa' da :=
  Int.add_le_add_left
    (nearest_mono hmax (mul_le_mul_of_nonneg_left h (sub_nonneg.mpr hda))) da

/-- The union grows by no more than the effective alpha does. -/
theorem union_le_add (hmax : 0 < max) (hda : 0 ≤ da) (h : sa ≤ sa') :
    union max sa' da ≤ union max sa da + (sa' - sa) := by
  have hprod : (max - da) * sa' ≤ (max - da) * sa + (sa' - sa) * max := by
    have hcovered : 0 ≤ da * (sa' - sa) := mul_nonneg hda (sub_nonneg.mpr h)
    linarith
  have hadded := nearest_mono hmax hprod
  rw [nearest_add_mul hmax] at hadded
  rw [union, union]
  omega

end Union

/-! ### The part of the way -/

/-- The part of its way that a color goes over a destination of some alpha. -/
def factor (max sa : Int) (alpha : Option Int) : Int := share max sa (united max sa alpha)

section Factor

variable {max sa sa' : Int} {alpha : Option Int}

theorem factor_some (max sa da : Int) :
    factor max sa (some da) = nearest (sa * max) (union max sa da) := rfl

theorem factor_zero (hmax : 0 < max) (halpha : ∀ da ∈ alpha, OnScale max da) :
    factor max 0 alpha = 0 := by
  cases alpha with
  | none => rfl
  | some da =>
    have hda := (halpha da rfl).nonneg
    rw [factor_some, Int.zero_mul, union_zero hmax]
    -- A transparent destination has no union to be a part of; a quotient by zero is zero.
    rcases hda.eq_or_lt with rfl | hpos
    · rfl
    · exact nearest_zero hpos

/-- Over an opaque destination, as without alpha, it is the effective alpha itself. -/
theorem factor_full (hmax : 0 < max) : factor max sa (some max) = sa := by
  rw [factor_some, union_full hmax, nearest_mul_self hmax]

/-- So a destination without alpha is like an opaque one. -/
theorem factor_getD (hmax : 0 < max) (alpha : Option Int) :
    factor max sa (some (alpha.getD max)) = factor max sa alpha := by
  cases alpha with
  | none => exact factor_full hmax
  | some da => rfl

theorem onScale_factor (hmax : 0 < max) (hsa : OnScale max sa)
    (halpha : ∀ da ∈ alpha, OnScale max da) : OnScale max (factor max sa alpha) := by
  cases alpha with
  | none => exact hsa
  | some da =>
    have hda := halpha da rfl
    rcases hsa.nonneg.eq_or_lt with rfl | hpos
    · rw [factor_zero hmax halpha]
      exact ⟨le_rfl, hmax.le⟩
    · have hle := effective_le_union hmax hsa.le hda.nonneg
      have hunion : 0 < union max sa da := hpos.trans_le hle
      rw [factor_some]
      constructor
      · exact nearest_nonneg hunion (mul_nonneg hsa.nonneg hmax.le)
      · refine nearest_le hunion ?_
        rw [Int.mul_comm max]
        exact mul_le_mul_of_nonneg_right hle hmax.le

theorem factor_mono (hmax : 0 < max) (hsa : OnScale max sa) (hsa' : OnScale max sa')
    (halpha : ∀ da ∈ alpha, OnScale max da) (h : sa ≤ sa') :
    factor max sa alpha ≤ factor max sa' alpha := by
  rcases hsa.nonneg.eq_or_lt with rfl | hpos
  · rw [factor_zero hmax halpha]
    exact (onScale_factor hmax hsa' halpha).nonneg
  · cases alpha with
    | none => exact h
    | some da =>
      have hda := halpha da rfl
      have hle := effective_le_union hmax hsa.le hda.nonneg
      have hle' := effective_le_union hmax hsa'.le hda.nonneg
      have hgrows := union_le_add hmax hda.nonneg h
      rw [factor_some, factor_some]
      refine nearest_le_nearest (hpos.trans_le hle) (by omega) ?_
      -- What the union grows by weighs less in it than in `sa'`.
      have hcross : sa * union max sa' da ≤ sa' * union max sa da :=
        calc sa * union max sa' da ≤ sa * (union max sa da + (sa' - sa)) :=
              mul_le_mul_of_nonneg_left hgrows hsa.nonneg
          _ = sa * union max sa da + sa * (sa' - sa) := by ring
          _ ≤ sa * union max sa da + union max sa da * (sa' - sa) := by
              have hpart := mul_le_mul_of_nonneg_right hle (sub_nonneg.mpr h)
              linarith
          _ = sa' * union max sa da := by ring
      calc sa * max * union max sa' da = sa * union max sa' da * max := by ring
        _ ≤ sa' * union max sa da * max := mul_le_mul_of_nonneg_right hcross hmax.le
        _ = sa' * max * union max sa da := by ring

end Factor

/-! ### Colors -/

section Moved

variable {max k k' s d : Int} {op : Op}

theorem moved_zero (hmax : 0 < max) : moved op max 0 s d = d := by
  rw [moved, Int.mul_zero, nearest_zero hmax, Int.add_zero]

/-- A color does not leave the way to its target. -/
theorem moved_mem (hmax : 0 < max) (hk : OnScale max k) :
    min (target op max s d) d ≤ moved op max k s d ∧
      moved op max k s d ≤ Max.max (target op max s d) d := by
  lift max to Nat using hmax.le
  exact FixedPoint.nearest_step_mem hmax hk.nonneg hk.le

/-- With a greater part of the way a color is nearer to its target. -/
theorem moved_mono (hmax : 0 < max) (hk : OnScale max k) (hk' : OnScale max k')
    (h : k ≤ k') :
    (d ≤ moved op max k s d ∧ moved op max k s d ≤ moved op max k' s d ∧
        moved op max k' s d ≤ target op max s d) ∨
      (target op max s d ≤ moved op max k' s d ∧ moved op max k' s d ≤ moved op max k s d ∧
        moved op max k s d ≤ d) := by
  have hmem := @moved_mem max k s d op hmax hk
  have hmem' := @moved_mem max k' s d op hmax hk'
  rcases le_total d (target op max s d) with hup | hdown
  · left
    have hsteps := nearest_mono hmax (mul_le_mul_of_nonneg_left h (sub_nonneg.mpr hup))
    rw [min_eq_right hup] at hmem
    rw [max_eq_left hup] at hmem'
    exact ⟨hmem.1, Int.add_le_add_left hsteps d, hmem'.2⟩
  · right
    have hsteps := nearest_mono hmax (mul_le_mul_of_nonpos_left h (sub_nonpos.mpr hdown))
    rw [max_eq_right hdown] at hmem
    rw [min_eq_left hdown] at hmem'
    exact ⟨hmem'.1, Int.add_le_add_left hsteps d, hmem.2⟩

end Moved

end Formula

end PixelRecord
