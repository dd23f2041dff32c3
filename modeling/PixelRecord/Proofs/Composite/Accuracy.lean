import Mathlib.Algebra.Order.Ring.Abs
import Mathlib.Tactic.LinearCombination
import PixelRecord.Proofs.Composite.Separable

/-!
How far a composited color is off.

Three roundings stand between a color and the exact result: that of the union, that of
the part of the way, and that of the step. A color by itself can be off by much where
alphas are small, as the part of the way is then a quotient of small numbers. But it
counts for little there: the color times its alpha, which is what is seen, is off by no
more than half a unit for each rounding. The error is written out as a sum in which
each rounding has its own weight, and none of the weights is above the scale. Over an
opaque destination the first two have nothing to round.
-/

namespace PixelRecord

namespace Formula

/-- How far a color `c` at alpha `a` is from the exact result of laying the color `t`
with effective alpha `sa` over a color `d` at alpha `da`. Colors count with their alphas
here, and the unit is one in `max ^ 2` of a color value. -/
def overError (max sa t d da c a : Int) : Int :=
  c * a * max - (t * sa * max + d * da * (max - sa))

section OverError

variable {max sa t d da : Int}

/-- The three roundings, each with its weight. -/
theorem overError_eq (max sa t d da : Int) :
    overError max sa t d da (d + nearest ((t - d) * factor max sa (some da)) max)
        (union max sa da) =
      d * excess ((max - da) * sa) max + (t - d) * excess (sa * max) (union max sa da) +
        union max sa da * excess ((t - d) * factor max sa (some da)) max := by
  have hunion : union max sa da * max = da * max + (max - da) * sa +
      excess ((max - da) * sa) max := by
    rw [union, Int.add_mul, nearest_mul, Int.add_assoc]
  have hfactor : factor max sa (some da) * union max sa da =
      sa * max + excess (sa * max) (union max sa da) := nearest_mul ..
  have hstep := nearest_mul ((t - d) * factor max sa (some da)) max
  rw [overError]
  linear_combination d * hunion + (t - d) * hfactor + union max sa da * hstep

/-- A rounding of at most a half, with a weight on the scale. -/
theorem two_mul_abs_weighted_le {w e : Int} (hw : |w| ≤ max) (he : 2 * |e| ≤ max) :
    2 * |w * e| ≤ max ^ 2 :=
  calc 2 * |w * e| = |w| * (2 * |e|) := by rw [abs_mul]; ring
    _ ≤ max * max := mul_le_mul hw he (by positivity) ((abs_nonneg w).trans hw)
    _ = max ^ 2 := (sq max).symm

theorem two_mul_abs_excess_union_le (hmax : 0 < max) (hsa : OnScale max sa)
    (hda : OnScale max da) : 2 * |excess (sa * max) (union max sa da)| ≤ max := by
  have hle := effective_le_union hmax hsa.le hda.nonneg
  rcases (hsa.nonneg.trans hle).eq_or_lt with hzero | hpos
  -- An empty union leaves nothing that could be rounded.
  · have hsa0 : sa = 0 := le_antisymm (hzero ▸ hle) hsa.nonneg
    rw [← hzero, hsa0, excess, Int.zero_mul, Int.mul_zero, sub_self, abs_zero]
    exact hmax.le
  · exact (two_mul_abs_excess_le hpos).trans (union_le hmax hsa.le hda.le)

theorem two_mul_abs_overError_le (hmax : 0 < max) (hsa : OnScale max sa)
    (hda : OnScale max da) (ht : OnScale max t) (hd : OnScale max d) :
    2 * |overError max sa t d da (d + nearest ((t - d) * factor max sa (some da)) max)
      (union max sa da)| ≤ 3 * max ^ 2 := by
  have hold : |d| ≤ max := abs_le.mpr ⟨by linarith [hd.nonneg], hd.le⟩
  have hway : |t - d| ≤ max :=
    abs_le.mpr ⟨by linarith [ht.nonneg, hd.le], by linarith [ht.le, hd.nonneg]⟩
  have halpha : |union max sa da| ≤ max := by
    rw [abs_of_nonneg (hsa.nonneg.trans (effective_le_union hmax hsa.le hda.nonneg))]
    exact union_le hmax hsa.le hda.le
  have hfirst : 2 * |d * excess ((max - da) * sa) max| ≤ max ^ 2 :=
    two_mul_abs_weighted_le hold (two_mul_abs_excess_le hmax)
  have hsecond : 2 * |(t - d) * excess (sa * max) (union max sa da)| ≤ max ^ 2 :=
    two_mul_abs_weighted_le hway (two_mul_abs_excess_union_le hmax hsa hda)
  have hthird : 2 * |union max sa da * excess ((t - d) * factor max sa (some da)) max| ≤ max ^ 2 :=
    two_mul_abs_weighted_le halpha (two_mul_abs_excess_le hmax)
  rw [overError_eq]
  linarith [abs_add_three (d * excess ((max - da) * sa) max)
    ((t - d) * excess (sa * max) (union max sa da))
    (union max sa da * excess ((t - d) * factor max sa (some da)) max)]

/-- Over an opaque destination only the step is rounded. -/
theorem two_mul_abs_overError_full_le (hmax : 0 < max) :
    2 * |overError max sa t d max (d + nearest ((t - d) * factor max sa (some max)) max)
      (union max sa max)| ≤ max ^ 2 := by
  have hfirst : excess ((max - max) * sa) max = 0 := by
    rw [sub_self, Int.zero_mul, excess, nearest_zero hmax, Int.zero_mul, sub_self]
  have hsecond : excess (sa * max) max = 0 := by
    rw [excess, nearest_mul_self hmax, sub_self]
  rw [overError_eq, union_full hmax, hfirst, hsecond, Int.mul_zero, Int.mul_zero, Int.zero_add,
    Int.zero_add]
  exact two_mul_abs_weighted_le (abs_of_pos hmax).le (two_mul_abs_excess_le hmax)

end OverError

end Formula

namespace Format

open Formula

variable {f : Format} {src buf : Bytes} {s p c : Nat} {op : Op}

/-- The colors of the record at byte `p`, times its alpha, are off by at most one and a
half units from the exact result for their targets, and by at most a half if the record
was opaque. A record without alpha is opaque, before and after. -/
def Accurate (f : Format) (op : Op) (c : Nat) (src : Bytes) (s : Nat) (before : Bytes) (p : Nat)
    (after : Bytes) : Prop :=
  ∀ ch ∈ f.layout.colors,
    let old := f.depth.load before (p + ch.position)
    let target := op.target (f.depth.load src (s + ch.position)) old f.depth.max
    let error := overError f.depth.max (effectiveAlpha f.depth (f.opaqueOr src s) c) target old
      (f.opaqueOr before p) (f.depth.load after (p + ch.position)) (f.opaqueOr after p)
    2 * |error| ≤ 3 * (f.depth.max : Int) ^ 2 ∧
      (f.opaqueOr before p = f.depth.max → 2 * |error| ≤ (f.depth.max : Int) ^ 2)

/-- **Accuracy.** Compositing a record with a separable operation succeeds, and what it
leaves is off by no more than its three roundings. -/
theorem compositeRecord_accurate (hw : f.Wide) (hsep : op.isSeparable = true)
    (hsrc : s + f.recordSize ≤ src.size) (hdst : p + f.recordSize ≤ buf.size)
    (hc : c ≤ f.depth.max) :
    ∃ out, (f.compositeRecord op c src s p).on buf = (.ok (), out) ∧
      f.Accurate op c src s buf p out := by
  obtain ⟨out, hon, hvalues⟩ := compositeRecord_ends hw op hsrc hdst hc
  refine ⟨out, hon, fun ch hch => ?_⟩
  have hscale := FixedPoint.scale_max f.depth
  have hmax := hscale.cast_pos
  have hs := f.depth.load_le_max src (s + ch.position)
  have hd := f.depth.load_le_max buf (p + ch.position)
  have hda := onScale_cast (f.opaqueOr_le buf p)
  have hsa := f.onScale_effective src s (onScale_cast hc)
  have hcolor := (channels_of_composited hsep hvalues).2 ch hch
  rw [← factor_getD hmax, ← opaqueOr_eq, moved, ← op.target_eq hscale hs hd] at hcolor
  have htarget := onScale_cast (op.target_le hscale.pos hs hd)
  dsimp only
  rw [hcolor, opaqueOr_of_composited hsep hvalues, effectiveAlpha_eq_effective src s hc]
  refine ⟨?_, fun hfull => ?_⟩
  · exact two_mul_abs_overError_le hmax hsa hda htarget (onScale_cast hd)
  · rw [hfull]
    exact two_mul_abs_overError_full_le hmax

theorem compositeRecord_accurate_screen :
    Accurate ⟨.eight, .bgra .eight⟩ .screen 100 #[0x34, 0xf2, 0x09, 77] 0
      #[7, 7, 7, 0x10, 0x80, 0x11, 5] 3 #[7, 7, 7, 59, 235, 24, 34] := by
  obtain ⟨out, hon, h⟩ := @compositeRecord_accurate ⟨.eight, .bgra .eight⟩
    #[0x34, 0xf2, 0x09, 77] #[7, 7, 7, 0x10, 0x80, 0x11, 5] 0 3 100 .screen
    (by decide) (by decide) (by decide) (by decide) (by decide)
  have hrun : (compositeRecord ⟨.eight, .bgra .eight⟩ .screen 100
      #[0x34, 0xf2, 0x09, 77] 0 3).on #[7, 7, 7, 0x10, 0x80, 0x11, 5] =
      (.ok (), #[7, 7, 7, 59, 235, 24, 34]) := by decide +kernel
  obtain rfl := congrArg Prod.snd (hon.symm.trans hrun)
  exact h

end Format

end PixelRecord
