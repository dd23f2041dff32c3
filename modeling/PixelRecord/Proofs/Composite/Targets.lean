import Mathlib.Data.List.Chain
import PixelRecord.Proofs.Composite.Formula

/-!
The targets of the separable operations, compared.

A color moves by the same part of the way whatever the operation is, so that colors
are ordered as their targets are. Targets are compared in three ways here: those of
different operations for the same two values, with each other and with the value that
is there already, and those of one operation for greater values. The last holds of the
destination value for every operation; of the source value it holds for six of them,
and for `divide` and `subtract` with the order turned around.
-/

namespace PixelRecord

namespace Op

/-- The operations whose targets are ordered whatever the pixels, the darkest first. -/
def byLightness : List Op := [.multiply, .darken, .over, .lighten, .screen, .add]

/-- The operations whose target is nowhere above the value that is there. -/
def lowering : List Op := [.multiply, .darken, .subtract]

/-- The operations whose target is nowhere below the value that is there. -/
def raising : List Op := [.lighten, .screen, .add, .divide]

/-- The operations whose target falls as the source value grows; that of the other
separable ones grows with it. -/
def inverse : List Op := [.divide, .subtract]

end Op

namespace Formula

section Target

variable {max s s' d d' : Int} {op op' : Op}

/-! ### Between operations -/

theorem product_le_min (hs : OnScale max s) (hd : OnScale max d) (hmax : 0 < max) :
    nearest (s * d) max ≤ min s d := by
  refine le_min (nearest_le hmax (mul_le_mul_of_nonneg_left hd.le hs.nonneg)) ?_
  rw [Int.mul_comm]
  exact nearest_le hmax (mul_le_mul_of_nonneg_left hs.le hd.nonneg)

/-- The screen of two values is what of their sum is not in their product. -/
theorem target_screen (hmax : 0 < max) : target .screen max s d = s + d - nearest (s * d) max := by
  have hparts : (max - s) * (max - d) = s * d + (max - s - d) * max := by ring
  rw [target, hparts, nearest_add_mul hmax]
  omega

theorem byLightness_target (hmax : 0 < max) (hs : OnScale max s) (hd : OnScale max d) :
    Op.byLightness.Pairwise fun op op' => target op max s d ≤ target op' max s d := by
  have hle := product_le_min hs hd hmax
  have hnonneg := nearest_nonneg hmax (mul_nonneg hs.nonneg hd.nonneg)
  have hrest := nearest_nonneg hmax (mul_nonneg (sub_nonneg.mpr hs.le) (sub_nonneg.mpr hd.le))
  have hscreen : target .screen max s d ≤ max := sub_le_self max hrest
  rw [target_screen hmax] at hscreen
  have hmultiply : target .multiply max s d ≤ target .darken max s d := hle
  have hdarken : target .darken max s d ≤ target .over max s d := min_le_left s d
  have hover : target .over max s d ≤ target .lighten max s d := le_max_left s d
  have hlighten : target .lighten max s d ≤ target .screen max s d := by
    rw [target_screen hmax, target]
    omega
  have hadd : target .screen max s d ≤ target .add max s d := by
    rw [target_screen hmax, target]
    omega
  rw [← List.pairwise_map (R := (· ≤ ·)), ← List.isChain_iff_pairwise]
  simp [Op.byLightness, hmultiply, hdarken, hover, hlighten, hadd]

/-! ### And the value that is there -/

theorem target_le_self (h : op ∈ Op.lowering) (hmax : 0 < max) (hs : OnScale max s)
    (hd : OnScale max d) : target op max s d ≤ d := by
  have hmultiply := (product_le_min hs hd hmax).trans (min_le_right s d)
  simp only [Op.lowering, List.mem_cons, List.not_mem_nil, or_false] at h
  obtain rfl | rfl | rfl := h
  · exact hmultiply
  · exact min_le_right s d
  · exact Int.max_le.mpr ⟨hd.nonneg, sub_le_self d hs.nonneg⟩

theorem self_le_target (h : op ∈ Op.raising) (hmax : 0 < max) (hs : OnScale max s)
    (hd : OnScale max d) : d ≤ target op max s d := by
  simp only [Op.raising, List.mem_cons, List.not_mem_nil, or_false] at h
  obtain rfl | rfl | rfl | rfl := h
  · exact le_max_right s d
  · have hle := product_le_min hs hd hmax
    rw [target_screen hmax]
    omega
  · exact le_min hd.le (le_add_of_nonneg_left hs.nonneg)
  · -- The divisor is at most what the value was multiplied by.
    refine le_min hd.le ((Int.le_ediv_iff_mul_le (by have := hs.nonneg; omega)).mpr ?_)
    have hscaled : d * (s + 1) ≤ d * (max + 1) :=
      mul_le_mul_of_nonneg_left (Int.add_le_add_right hs.le 1) hd.nonneg
    have hhalf : 0 ≤ s / 2 := Int.ediv_nonneg hs.nonneg (by decide)
    omega

/-! ### For greater values -/

/-- Of a greater destination value the target is not less. -/
theorem target_mono_dst (hmax : 0 < max) (hs : OnScale max s) (h : d ≤ d') :
    target op max s d ≤ target op max s d' := by
  cases op with
  | «over» => exact le_rfl
  | copy | erase => exact h
  | multiply => exact nearest_mono hmax (mul_le_mul_of_nonneg_left h hs.nonneg)
  | divide =>
      refine min_le_min_left max (Int.ediv_le_ediv (by have := hs.nonneg; omega) ?_)
      exact Int.add_le_add_right (mul_le_mul_of_nonneg_right h (by omega)) (s / 2)
  | screen =>
      refine Int.sub_le_sub_left (nearest_mono hmax ?_) max
      exact mul_le_mul_of_nonneg_left (Int.sub_le_sub_left h max) (sub_nonneg.mpr hs.le)
  | darken => exact min_le_min_left s h
  | lighten => exact max_le_max_left s h
  | add => exact min_le_min_left max (Int.add_le_add_left h s)
  | subtract => exact max_le_max_left 0 (Int.sub_le_sub_right h s)

/-- Of a greater source value it is not less either, if the operation is not inverse. -/
theorem target_mono_src (hop : op ∉ Op.inverse) (hmax : 0 < max) (hd : OnScale max d)
    (h : s ≤ s') : target op max s d ≤ target op max s' d := by
  cases op with
  | «over» => exact h
  | copy | erase => exact le_rfl
  | multiply => exact nearest_mono hmax (mul_le_mul_of_nonneg_right h hd.nonneg)
  | divide | subtract => exact absurd (by decide) hop
  | screen =>
      refine Int.sub_le_sub_left (nearest_mono hmax ?_) max
      exact mul_le_mul_of_nonneg_right (Int.sub_le_sub_left h max) (sub_nonneg.mpr hd.le)
  | darken => exact min_le_min_right d h
  | lighten => exact max_le_max_right d h
  | add => exact min_le_min_left max (Int.add_le_add_right h d)

/-- A rounded quotient falls as its divisor grows, also where the half that is added for
the rounding grows with it. -/
theorem ediv_succ_antitone {n : Int} (hn : 0 ≤ n) (hs : 0 ≤ s) (h : s ≤ s') :
    (n + s' / 2) / (s' + 1) ≤ (n + s / 2) / (s + 1) := by
  have hquotient : (n + s' / 2) / (s' + 1) * (s' + 1) ≤ n + s' / 2 := Int.ediv_mul_le _ (by omega)
  have hnonneg : 0 ≤ (n + s' / 2) / (s' + 1) := Int.ediv_nonneg (by omega) (by omega)
  rw [Int.le_ediv_iff_mul_le (by omega)]
  generalize (n + s' / 2) / (s' + 1) = q at hquotient hnonneg ⊢
  rcases hnonneg.eq_or_lt with rfl | hpos
  · omega
  · -- The half grows by no more than the divisor, of which the quotient takes `q` parts.
    have hgrows : s' - s ≤ q * (s' - s) := le_mul_of_one_le_left (sub_nonneg.mpr h) hpos
    have hsplit : q * (s' + 1) = q * (s + 1) + q * (s' - s) := by ring
    omega

theorem target_antitone_src (hop : op ∈ Op.inverse) (hmax : 0 < max) (hs : OnScale max s)
    (hd : OnScale max d) (h : s ≤ s') : target op max s' d ≤ target op max s d := by
  simp only [Op.inverse, List.mem_cons, List.not_mem_nil, or_false] at hop
  obtain rfl | rfl := hop
  · have hscaled : 0 ≤ d * (max + 1) := mul_nonneg hd.nonneg (by omega)
    exact min_le_min_left max (ediv_succ_antitone hscaled hs.nonneg h)
  · exact max_le_max_left 0 (Int.sub_le_sub_left h d)

end Target

/-! ### Colors -/

section Moved

variable {max k s s' d d' : Int} {op op' : Op}

/-- A color that moves to a target is the mean of the two, weighted by the part of the
way that it goes. -/
theorem moved_eq_nearest (hmax : 0 < max) :
    moved op max k s d = nearest (target op max s d * k + d * (max - k)) max := by
  rw [moved, add_nearest_step hmax]

/-- Greater targets of greater colors give greater colors. -/
theorem moved_le_moved (hmax : 0 < max) (hk : OnScale max k)
    (htarget : target op max s d ≤ target op' max s' d') (h : d ≤ d') :
    moved op max k s d ≤ moved op' max k s' d' := by
  rw [moved_eq_nearest hmax, moved_eq_nearest hmax]
  have hgone := mul_le_mul_of_nonneg_right htarget hk.nonneg
  have hleft := mul_le_mul_of_nonneg_right h (sub_nonneg.mpr hk.le)
  exact nearest_mono hmax (Int.add_le_add hgone hleft)

theorem moved_mono_dst (hmax : 0 < max) (hk : OnScale max k) (hs : OnScale max s) (h : d ≤ d') :
    moved op max k s d ≤ moved op max k s d' :=
  moved_le_moved hmax hk (target_mono_dst hmax hs h) h

theorem moved_mono_src (hop : op ∉ Op.inverse) (hmax : 0 < max) (hk : OnScale max k)
    (hd : OnScale max d) (h : s ≤ s') : moved op max k s d ≤ moved op max k s' d :=
  moved_le_moved hmax hk (target_mono_src hop hmax hd h) le_rfl

theorem moved_antitone_src (hop : op ∈ Op.inverse) (hmax : 0 < max) (hk : OnScale max k)
    (hs : OnScale max s) (hd : OnScale max d) (h : s ≤ s') :
    moved op max k s' d ≤ moved op max k s d :=
  moved_le_moved hmax hk (target_antitone_src hop hmax hs hd h) le_rfl

theorem moved_le_self (h : op ∈ Op.lowering) (hmax : 0 < max) (hk : OnScale max k)
    (hs : OnScale max s) (hd : OnScale max d) : moved op max k s d ≤ d := by
  have hmem := (@moved_mem max k s d op hmax hk).2
  rwa [max_eq_right (target_le_self h hmax hs hd)] at hmem

theorem self_le_moved (h : op ∈ Op.raising) (hmax : 0 < max) (hk : OnScale max k)
    (hs : OnScale max s) (hd : OnScale max d) : d ≤ moved op max k s d := by
  have hmem := (@moved_mem max k s d op hmax hk).1
  rwa [min_eq_right (self_le_target h hmax hs hd)] at hmem

end Moved

end Formula

end PixelRecord
