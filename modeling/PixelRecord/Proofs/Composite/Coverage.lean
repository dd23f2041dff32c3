import PixelRecord.Proofs.Composite.Rectangle
import PixelRecord.Proofs.Composite.Separable

/-!
More coverage, more effect.

A separable operation is laid over one destination twice: the second time with an
opacity, mask and source alphas that are nowhere less than the first time, and with
the same source colors. Then no alpha is less afterwards, and no color is farther from
its target. This is not plain from the formulas, as the part of the way that a color
goes is a quotient whose divisor grows as well; it is `Formula.factor_mono` that the
quotient does not shrink. The steps of the argument are those of the calculation: mask
and opacity make the cover, cover and source alpha the effective alpha, and that the
union and the part of the way.
-/

namespace PixelRecord

open Edit

theorem Depth.widen_mono (d : Depth) {v v' : UInt8} (h : v ≤ v') : d.widen v ≤ d.widen v' := by
  have hle : v.toNat ≤ v'.toNat := UInt8.le_iff_toNat_le.mp h
  cases d with
  | eight => exact hle
  | sixteen => exact Nat.mul_le_mul_right 257 hle

/-- The byte of a mask in row `r` and column `c`; no mask covers fully. -/
def Mask.coverage (mask : Option Mask) (r c : Nat) : UInt8 :=
  (mask.map fun m => m.byteAt r c).getD 255

namespace Formula

theorem cover_mono (d : Depth) {mask mask' : Option UInt8} {opacity opacity' : UInt8}
    (hmask : mask.getD 255 ≤ mask'.getD 255) (hopacity : opacity ≤ opacity') :
    cover d mask opacity ≤ cover d mask' opacity' := by
  have hprod : d.widen (mask.getD 255) * d.widen opacity ≤
      d.widen (mask'.getD 255) * d.widen opacity' :=
    Nat.mul_le_mul (d.widen_mono hmask) (d.widen_mono hopacity)
  exact nearest_mono (FixedPoint.scale_max d).cast_pos (by exact_mod_cast hprod)

theorem effective_mono {max c c' : Int} {src src' : PixelValues} (hmax : 0 < max) (hc : 0 ≤ c)
    (hcover : c ≤ c') (hsrc : 0 ≤ src'.alpha.getD max)
    (halpha : src.alpha.getD max ≤ src'.alpha.getD max) :
    effective max c src ≤ effective max c' src' :=
  nearest_mono hmax (mul_le_mul halpha hcover hc hsrc)

end Formula

namespace Format

open Formula

variable {f : Format} {size stride : Nat} {src src' : Surface} {mask mask' : Option Mask}
  {what : Composition}

/-- The record at byte `s'` has the colors of the record at byte `s`, and no less
alpha. -/
@[mk_iff]
structure Raises (f : Format) (src : Bytes) (s : Nat) (src' : Bytes) (s' : Nat) : Prop where
  colors : ∀ ch ∈ f.layout.colors,
    f.depth.load src' (s' + ch.position) = f.depth.load src (s + ch.position)
  alpha : f.opaqueOr src s ≤ f.opaqueOr src' s'

instance (f : Format) (src : Bytes) (s : Nat) (src' : Bytes) (s' : Nat) :
    Decidable (f.Raises src s src' s') :=
  decidable_of_iff' _ (raises_iff f src s src' s')

theorem Raises.refl (f : Format) (src : Bytes) (s : Nat) : f.Raises src s src s :=
  ⟨fun _ _ => rfl, le_rfl⟩

/-- Of two records that come from one destination record, at byte `p`, the second has
gone at least as far: its alpha is not less, and its colors are not farther from their
targets, for the source record at byte `s`. -/
structure Farther (f : Format) (op : Op) (src : Bytes) (s : Nat) (before after after' : Bytes)
    (p : Nat) : Prop where
  alpha : ∀ ch, f.layout.alpha? = some ch →
    f.depth.load after (p + ch.position) ≤ f.depth.load after' (p + ch.position)
  colors : ∀ ch ∈ f.layout.colors,
    let old := f.depth.load before (p + ch.position)
    let new := f.depth.load after (p + ch.position)
    let new' := f.depth.load after' (p + ch.position)
    let target := op.target (f.depth.load src (s + ch.position)) old f.depth.max
    (old ≤ new ∧ new ≤ new' ∧ new' ≤ target) ∨ (target ≤ new' ∧ new' ≤ new ∧ new ≤ old)

/-- **One record.** A greater cover and a raised source alpha make a record go at least
as far. -/
theorem farther_of_composited {op : Op} (hsep : op.isSeparable = true) {c c' : Int}
    {bytes bytes' before after after' : Bytes} {s s' p : Nat} (hc : 0 ≤ c) (hcc : c ≤ c')
    (hc' : c' ≤ f.depth.max) (hsrc : f.Raises bytes s bytes' s')
    (h : f.valuesAt after p =
      composited op f.depth.max c (f.valuesAt bytes s) (f.valuesAt before p))
    (h' : f.valuesAt after' p =
      composited op f.depth.max c' (f.valuesAt bytes' s') (f.valuesAt before p)) :
    f.Farther op bytes s before after after' p := by
  have hscale := FixedPoint.scale_max f.depth
  have hmax := hscale.cast_pos
  have hda := f.onScale_alpha before p
  have hsa := f.onScale_effective bytes s ⟨hc, hcc.trans hc'⟩
  have hsa' := f.onScale_effective bytes' s' ⟨hc.trans hcc, hc'⟩
  have hmono : effective f.depth.max c (f.valuesAt bytes s) ≤
      effective f.depth.max c' (f.valuesAt bytes' s') := by
    refine effective_mono hmax hc hcc ?_ ?_
    · rw [← opaqueOr_eq]
      exact Int.natCast_nonneg _
    · rw [← opaqueOr_eq, ← opaqueOr_eq]
      exact_mod_cast hsrc.alpha
  obtain ⟨halpha, hcolors⟩ := channels_of_composited hsep h
  obtain ⟨halpha', hcolors'⟩ := channels_of_composited hsep h'
  generalize effective f.depth.max c (f.valuesAt bytes s) = sa at *
  generalize effective f.depth.max c' (f.valuesAt bytes' s') = sa' at *
  refine ⟨fun ch hch => ?_, fun ch hch => ?_⟩
  · have hold := hda _ (by rw [alpha_valuesAt, hch]; rfl)
    rw [alpha_valuesAt, alpha_valuesAt, hch, Option.map_some, Option.map_some, Option.map_some,
      Option.some_inj] at halpha halpha'
    have hunion := union_mono hmax hold.2 hmono
    rw [← halpha, ← halpha'] at hunion
    exact_mod_cast hunion
  · have hnew := hcolors ch hch
    have hnew' := hcolors' ch hch
    rw [hsrc.colors ch hch] at hnew'
    have hs := f.depth.load_le_max bytes (s + ch.position)
    have hd := f.depth.load_le_max before (p + ch.position)
    have hway := @moved_mono f.depth.max _ _ (f.depth.load bytes (s + ch.position))
      (f.depth.load before (p + ch.position)) op hmax (onScale_factor hmax hsa hda)
      (onScale_factor hmax hsa' hda) (factor_mono hmax hsa hsa' hda hmono)
    rw [← hnew, ← hnew', ← op.target_eq hscale hs hd] at hway
    exact_mod_cast hway

/-- **More coverage, more effect.** Two compositions with one separable operation over
the same destination both succeed. If the second has no less opacity, nowhere less of
a mask and nowhere less of a source alpha, over the same source colors, then it goes at
least as far at every record. -/
theorem composite_monotone (hw : f.Wide) (hsep : what.op.isSeparable = true) {opacity' : UInt8}
    {buf out out' : Bytes} (h : (f.composite stride src mask what).on buf = (.ok (), out))
    (h' : (f.composite stride src' mask' { what with opacity := opacity' }).on buf =
      (.ok (), out'))
    (hopacity : what.opacity ≤ opacity')
    (hmask : ∀ r < what.rows, ∀ c < what.cols, Mask.coverage mask r c ≤ Mask.coverage mask' r c)
    (hsrc : ∀ r < what.rows, ∀ c < what.cols,
      f.Raises src.bytes (r * src.stride + c * f.recordSize) src'.bytes
        (r * src'.stride + c * f.recordSize)) :
    ∀ r < what.rows, ∀ c < what.cols,
      f.Farther what.op src.bytes (r * src.stride + c * f.recordSize) buf out out'
        (r * stride + c * f.recordSize) := by
  intro r hr c hc
  have hcell := (composited_of_on hw h).cells r hr c hc
  have hcell' := (composited_of_on hw h').cells r hr c hc
  have hcover := cover_mono f.depth (hmask r hr c hc) hopacity
  refine farther_of_composited hsep ?_ hcover ?_ (hsrc r hr c hc) hcell hcell'
  · rw [← cover_eq]
    exact Int.natCast_nonneg _
  · rw [← cover_eq]
    exact_mod_cast cover_le ..

theorem composite_monotone_mask_removed :
    Farther ⟨.eight, .bgra .eight⟩ .screen #[10, 20, 30, 255, 40, 50, 60, 128] (0 * 8 + 1 * 4)
      #[200, 100, 50, 60, 5, 15, 25, 35] #[201, 109, 68, 136, 22, 36, 49, 57]
      #[202, 111, 72, 213, 39, 56, 72, 137] (0 * 8 + 1 * 4) :=
  @composite_monotone ⟨.eight, .bgra .eight⟩ 8 ⟨#[10, 20, 30, 255, 40, 50, 60, 128], 8⟩
    ⟨#[10, 20, 30, 255, 40, 50, 60, 150], 8⟩ (some ⟨#[255, 128], 2⟩) none ⟨1, 2, 100, .screen⟩
    (by decide) (by decide) 200 #[200, 100, 50, 60, 5, 15, 25, 35]
    #[201, 109, 68, 136, 22, 36, 49, 57] #[202, 111, 72, 213, 39, 56, 72, 137]
    (by decide +kernel) (by decide +kernel) (by decide) (by decide) (by decide +kernel)
    0 (by decide) 1 (by decide)

end Format

end PixelRecord
