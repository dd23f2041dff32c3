import PixelRecord.Proofs.Composite.Rectangle
import PixelRecord.Proofs.Composite.Separable

/-!
Records under a source of no effective alpha.

The effective alpha is zero where the source is transparent, where mask or opacity are
zero, and where the product of the three is rounded to zero. However it comes about, no
separable operation touches the record then, and neither does `erase`. `copy` is
different: it asks for the cover and not for the effective alpha, so that under any
cover at all a source that counts for nothing replaces the record by its own colors,
with alpha zero. In records without alpha the two are the same, as the source is opaque.
-/

namespace PixelRecord

open Edit

namespace Formula

variable {op : Op} {max cover : Int} {src dst : PixelValues}

/-- The operation decides what becomes of a record that is covered by nothing. -/
theorem composited_of_effective_zero (h : effective max cover src = 0) :
    composited op max cover src dst =
      if op = .copy ∧ cover ≠ 0 then ⟨src.colors, dst.alpha.map fun _ => 0⟩ else dst := by
  rw [effective] at h
  cases op <;> simp [composited, h]

/-- A source without alpha counts for as much as it covers. -/
theorem effective_of_none (hmax : 0 < max) (h : src.alpha = none) :
    effective max cover src = cover := by
  rw [effective, h, Option.getD_none, Int.mul_comm, nearest_mul_self hmax]

end Formula

namespace Format

open Formula

variable {f : Format} {stride : Nat} {src : Surface} {mask : Option Mask} {what : Composition}

/-- **No effective alpha.** Where the effective alpha of the source is zero, the record
keeps every byte, unless the operation is `copy` and there is a cover; then it takes the
colors of the source, and alpha zero. -/
theorem composite_transparent (he : f.Exact) {buf out : Bytes}
    (h : (f.composite stride src mask what).on buf = (.ok (), out)) {r c : Nat}
    (hr : r < what.rows) (hc : c < what.cols) :
    let s := r * src.stride + c * f.recordSize
    let p := r * stride + c * f.recordSize
    let cover := Formula.cover f.depth (mask.map fun m => m.byteAt r c) what.opacity
    effective f.depth.max cover (f.valuesAt src.bytes s) = 0 →
      ((what.op = .copy → cover = 0 ∨ f.layout.alpha? = none) →
        ∀ t < f.recordSize, out[p + t]? = buf[p + t]?) ∧
      (what.op = .copy → cover ≠ 0 →
        f.valuesAt out p = ⟨(f.valuesAt src.bytes s).colors, some 0⟩) := by
  intro s p cover hzero
  have hmax := (FixedPoint.scale_max f.depth).cast_pos
  have hdone := composited_of_on he.wide h
  have hcheck := ((composite_obeys he.wide buf.size stride src mask what).of_on h).1
  have hfit : p + f.recordSize ≤ buf.size := cell_le_of_checkComposite hcheck hr hc
  have hvalues : f.valuesAt out p = composited what.op f.depth.max cover
      (f.valuesAt src.bytes s) (f.valuesAt buf p) := hdone.cells r hr c hc
  rw [composited_of_effective_zero hzero] at hvalues
  have hbare : f.layout.alpha? = none → cover = 0 := by
    intro hnone
    rwa [effective_of_none hmax (by rw [alpha_valuesAt, hnone, Option.map_none])] at hzero
  refine ⟨fun huncovered t ht => ?_, fun hcopy hcover => ?_⟩
  · rw [if_neg fun ⟨hcopy, hcover⟩ => hcover ((huncovered hcopy).elim id hbare)] at hvalues
    have hsame := agreeOn_of_valuesAt he.wide (hdone.size.symm ▸ hfit) hfit hvalues
    exact hsame (p + t) (he.keeps_iff.mpr ⟨by omega, by omega⟩)
  · rw [if_pos ⟨hcopy, hcover⟩, alpha_valuesAt] at hvalues
    cases halpha : f.layout.alpha? with
    | none => exact absurd (hbare halpha) hcover
    | some ch => simpa [halpha] using hvalues

/-- Of two pixels of a transparent source, the one that the mask lets through is copied
and the other is not. -/
theorem composite_transparent_copy :
    (composite ⟨.eight, .bgra .eight⟩ 8 ⟨#[1, 2, 3, 0, 4, 5, 6, 0], 8⟩ (some ⟨#[255, 0], 2⟩)
        ⟨1, 2, 255, .copy⟩).on #[10, 20, 30, 255, 40, 50, 60, 255] =
      (.ok (), #[1, 2, 3, 0, 40, 50, 60, 255]) ∧
    valuesAt ⟨.eight, .bgra .eight⟩ #[1, 2, 3, 0, 40, 50, 60, 255] (0 * 8 + 0 * 4) =
      ⟨[3, 2, 1], some 0⟩ ∧
    ∀ t < 4, (#[1, 2, 3, 0, 40, 50, 60, 255] : Bytes)[0 * 8 + 1 * 4 + t]? =
      (#[10, 20, 30, 255, 40, 50, 60, 255] : Bytes)[0 * 8 + 1 * 4 + t]? :=
  have hon : (composite ⟨.eight, .bgra .eight⟩ 8 ⟨#[1, 2, 3, 0, 4, 5, 6, 0], 8⟩
      (some ⟨#[255, 0], 2⟩) ⟨1, 2, 255, .copy⟩).on #[10, 20, 30, 255, 40, 50, 60, 255] =
    (.ok (), #[1, 2, 3, 0, 40, 50, 60, 255]) := by decide +kernel
  ⟨hon, (composite_transparent (by decide) hon (r := 0) (c := 0) (by decide) (by decide)
      (by decide)).2 rfl (by decide),
    (composite_transparent (by decide) hon (r := 0) (c := 1) (by decide) (by decide)
      (by decide)).1 fun _ => .inl (by decide)⟩

end Format

end PixelRecord
