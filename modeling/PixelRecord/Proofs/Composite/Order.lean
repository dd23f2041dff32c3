import PixelRecord.Proofs.Composite.Rectangle
import PixelRecord.Proofs.Composite.Separable
import PixelRecord.Proofs.Composite.Targets

/-!
What compositing keeps in order.

Two comparisons of composited records. One composition is carried out with every
operation over the same destination: the alphas come out equal, and the colors in the
order of the targets, `Op.byLightness`. And one operation is carried out on two
pairs of records with equal alphas: a greater color of the destination gives a greater
color, and a greater color of the source a greater or a lesser one, as the operation
is. In both the colors of the records that are compared go the same part of their way,
so it is their targets that decide.
-/

namespace PixelRecord

open Edit

namespace Format

open Formula

variable {f : Format} {stride : Nat} {src : Surface} {mask : Option Mask} {what : Composition}

/-! ### Different operations -/

theorem isSeparable_of_mem {op : Op}
    (h : op ∈ Op.byLightness ∨ op ∈ Op.lowering ∨ op ∈ Op.raising) : op.isSeparable = true := by
  revert h
  cases op <;> decide

/-- What different operations leave of the record at byte `p`, each in its own buffer,
is ordered: all separable ones leave one alpha, the operations of `Op.byLightness` leave
colors that grow along that list, and some only lower or only raise a color. -/
structure Graded (f : Format) (before : Bytes) (out : Op → Bytes) (p : Nat) : Prop where
  alpha : ∀ op op', op.isSeparable = true → op'.isSeparable = true →
    (f.valuesAt (out op) p).alpha = (f.valuesAt (out op') p).alpha
  colors : ∀ ch ∈ f.layout.colors, Op.byLightness.Pairwise fun op op' =>
    f.depth.load (out op) (p + ch.position) ≤ f.depth.load (out op') (p + ch.position)
  lowered : ∀ op ∈ Op.lowering, ∀ ch ∈ f.layout.colors,
    f.depth.load (out op) (p + ch.position) ≤ f.depth.load before (p + ch.position)
  raised : ∀ op ∈ Op.raising, ∀ ch ∈ f.layout.colors,
    f.depth.load before (p + ch.position) ≤ f.depth.load (out op) (p + ch.position)

/-- **One record.** Records that differ in the operation only are ordered as the targets
are. -/
theorem graded_of_composited {bytes before : Bytes} {out : Op → Bytes} {s p : Nat} {c : Int}
    (hc : OnScale f.depth.max c)
    (h : ∀ op, f.valuesAt (out op) p =
      composited op f.depth.max c (f.valuesAt bytes s) (f.valuesAt before p)) :
    f.Graded before out p := by
  have hmax := (FixedPoint.scale_max f.depth).cast_pos
  have hk := onScale_factor hmax (f.onScale_effective bytes s hc) (f.onScale_alpha before p)
  have hsrc (ch : Channel) := onScale_cast (f.depth.load_le_max bytes (s + ch.position))
  have hdst (ch : Channel) := onScale_cast (f.depth.load_le_max before (p + ch.position))
  have hcolor {op : Op} (hsep : op.isSeparable = true) := (channels_of_composited hsep (h op)).2
  refine ⟨fun op op' hsep hsep' => ?_, fun ch hch => ?_, fun op hop ch hch => ?_,
    fun op hop ch hch => ?_⟩
  · rw [(channels_of_composited hsep (h op)).1, (channels_of_composited hsep' (h op')).1]
  · refine (byLightness_target hmax (hsrc ch) (hdst ch)).imp_of_mem fun hop hop' htarget => ?_
    rw [← Int.ofNat_le, hcolor (isSeparable_of_mem (.inl hop)) ch hch,
      hcolor (isSeparable_of_mem (.inl hop')) ch hch]
    exact moved_le_moved hmax hk htarget le_rfl
  · rw [← Int.ofNat_le, hcolor (isSeparable_of_mem (.inr (.inl hop))) ch hch]
    exact moved_le_self hop hmax hk (hsrc ch) (hdst ch)
  · rw [← Int.ofNat_le, hcolor (isSeparable_of_mem (.inr (.inr hop))) ch hch]
    exact self_le_moved hop hmax hk (hsrc ch) (hdst ch)

/-- The geometry check does not ask for the operation. -/
theorem composite_ends_with (hw : f.Wide) {buf first : Bytes}
    (h : (f.composite stride src mask what).on buf = (.ok (), first)) (op : Op) :
    ∃ out, (f.composite stride src mask { what with op := op }).on buf = (.ok (), out) := by
  have hcheck := ((composite_obeys hw buf.size stride src mask what).of_on h).1
  have hobeys := composite_obeys hw buf.size stride src mask { what with op := op }
  rw [show f.checkComposite buf.size stride src mask { what with op := op } = .ok () from hcheck]
    at hobeys
  obtain ⟨⟨⟩, out, hon, -⟩ := Acts.ends hobeys buf rfl
  exact ⟨out, hon⟩

/-- **Modes in order.** A composition that one operation is accepted for succeeds with
every operation, and at every record the results are ordered whatever the pixels. -/
theorem composite_graded (hw : f.Wide) {buf first : Bytes}
    (h : (f.composite stride src mask what).on buf = (.ok (), first)) :
    ∃ out : Op → Bytes,
      (∀ op, (f.composite stride src mask { what with op := op }).on buf = (.ok (), out op)) ∧
      ∀ r < what.rows, ∀ c < what.cols, f.Graded buf out (r * stride + c * f.recordSize) := by
  choose out hon using composite_ends_with hw h
  refine ⟨out, hon, fun r hr c hc => ?_⟩
  exact graded_of_composited (onScale_cover ..)
    fun op => (composited_of_on hw (hon op)).cells r hr c hc

theorem composite_graded_two_pixels :
    ∃ out : Op → Bytes,
      (∀ op, (composite ⟨.eight, .bgra .eight⟩ 8 ⟨#[10, 200, 30, 255, 40, 50, 60, 128], 8⟩
          (some ⟨#[90, 255], 2⟩) ⟨1, 2, 200, op⟩).on #[200, 100, 50, 60, 5, 15, 25, 35] =
        (.ok (), out op)) ∧
      Graded ⟨.eight, .bgra .eight⟩ #[200, 100, 50, 60, 5, 15, 25, 35] out (0 * 8 + 0 * 4) ∧
      Graded ⟨.eight, .bgra .eight⟩ #[200, 100, 50, 60, 5, 15, 25, 35] out (0 * 8 + 1 * 4) :=
  have ⟨out, hon, hgraded⟩ := @composite_graded ⟨.eight, .bgra .eight⟩ 8
    ⟨#[10, 200, 30, 255, 40, 50, 60, 128], 8⟩ (some ⟨#[90, 255], 2⟩) ⟨1, 2, 200, .over⟩
    (by decide) #[200, 100, 50, 60, 5, 15, 25, 35] #[82, 162, 38, 114, 34, 44, 54, 121]
    (by decide +kernel)
  ⟨out, hon, hgraded 0 (by decide) 0 (by decide), hgraded 0 (by decide) 1 (by decide)⟩

/-! ### Different colors -/

variable {op : Op} {bytes bytes' before before' : Bytes} {s s' p p' : Nat}

theorem effective_congr (c : Int) (h : f.opaqueOr bytes s = f.opaqueOr bytes' s') :
    effective f.depth.max c (f.valuesAt bytes s) =
      effective f.depth.max c (f.valuesAt bytes' s') := by
  rw [effective, ← opaqueOr_eq, h, opaqueOr_eq, effective]

theorem factor_congr (sa : Int) (h : f.opaqueOr before p = f.opaqueOr before' p') :
    factor f.depth.max sa (f.valuesAt before p).alpha =
      factor f.depth.max sa (f.valuesAt before' p').alpha := by
  have hmax := (FixedPoint.scale_max f.depth).cast_pos
  rw [← factor_getD hmax, ← opaqueOr_eq, h, opaqueOr_eq, factor_getD hmax]

/-- **Colors in order.** Two records composited by one separable operation under one
cover, with equal source alphas and equal destination alphas. Under equal source colors
a greater destination color comes out no less. Over equal destination colors a greater
source color comes out no less either, except with `divide` and `subtract`, where it
comes out no greater. -/
theorem compositeRecord_keeps_order (hw : f.Wide) (hsep : op.isSeparable = true) {c : Nat}
    (hc : c ≤ f.depth.max) (hsrc : s + f.recordSize ≤ bytes.size)
    (hsrc' : s' + f.recordSize ≤ bytes'.size) (hdst : p + f.recordSize ≤ before.size)
    (hdst' : p' + f.recordSize ≤ before'.size) (hsa : f.opaqueOr bytes s = f.opaqueOr bytes' s')
    (hda : f.opaqueOr before p = f.opaqueOr before' p') :
    ∃ after after', (f.compositeRecord op c bytes s p).on before = (.ok (), after) ∧
      (f.compositeRecord op c bytes' s' p').on before' = (.ok (), after') ∧
      ∀ ch ∈ f.layout.colors,
        let sc := f.depth.load bytes (s + ch.position)
        let sc' := f.depth.load bytes' (s' + ch.position)
        let dc := f.depth.load before (p + ch.position)
        let dc' := f.depth.load before' (p' + ch.position)
        let color := f.depth.load after (p + ch.position)
        let color' := f.depth.load after' (p' + ch.position)
        (sc = sc' → dc ≤ dc' → color ≤ color') ∧
          (dc = dc' → sc ≤ sc' → if op ∈ Op.inverse then color' ≤ color else color ≤ color') := by
  have hmax := (FixedPoint.scale_max f.depth).cast_pos
  obtain ⟨after, hon, hvalues⟩ := compositeRecord_ends hw op hsrc hdst hc
  obtain ⟨after', hon', hvalues'⟩ := compositeRecord_ends hw op hsrc' hdst' hc
  refine ⟨after, after', hon, hon', fun ch hch => ?_⟩
  have hk := onScale_factor hmax (f.onScale_effective bytes s (onScale_cast hc))
    (f.onScale_alpha before p)
  have hcolor := (channels_of_composited hsep hvalues).2 ch hch
  have hcolor' := (channels_of_composited hsep hvalues').2 ch hch
  -- With equal alphas both colors go the same part of their way.
  rw [← effective_congr _ hsa, ← factor_congr _ hda] at hcolor'
  generalize factor f.depth.max (effective f.depth.max c (f.valuesAt bytes s))
    (f.valuesAt before p).alpha = k at hk hcolor hcolor'
  have hs := onScale_cast (f.depth.load_le_max bytes (s + ch.position))
  have hd := onScale_cast (f.depth.load_le_max before (p + ch.position))
  dsimp only
  generalize f.depth.load bytes (s + ch.position) = sc at hs hcolor ⊢
  generalize f.depth.load before (p + ch.position) = dc at hd hcolor ⊢
  refine ⟨?_, ?_⟩
  · rintro rfl hle
    rw [← Int.ofNat_le, hcolor, hcolor']
    exact moved_mono_dst hmax hk hs (Int.ofNat_le.mpr hle)
  · rintro rfl hle
    rw [← Int.ofNat_le, ← Int.ofNat_le, hcolor, hcolor']
    split
    · next hop => exact moved_antitone_src hop hmax hk hs hd (Int.ofNat_le.mpr hle)
    · next hop => exact moved_mono_src hop hmax hk hd (Int.ofNat_le.mpr hle)

theorem compositeRecord_keeps_order_divide :
    ∃ after after',
      (compositeRecord ⟨.eight, .bgra .eight⟩ .divide 180 #[10, 200, 30, 128] 0 0).on
        #[200, 100, 50, 60] = (.ok (), after) ∧
      (compositeRecord ⟨.eight, .bgra .eight⟩ .divide 180 #[7, 11, 200, 90, 128] 1 0).on
        #[200, 150, 50, 60] = (.ok (), after') ∧
      Depth.eight.load after' 0 ≤ Depth.eight.load after 0 ∧
      Depth.eight.load after 1 ≤ Depth.eight.load after' 1 :=
  have ⟨after, after', hon, hon', horder⟩ := @compositeRecord_keeps_order
    ⟨.eight, .bgra .eight⟩ .divide #[10, 200, 30, 128] #[7, 11, 200, 90, 128] #[200, 100, 50, 60]
    #[200, 150, 50, 60] 0 1 0 0 (by decide) (by decide) 180 (by decide) (by decide) (by decide)
    (by decide) (by decide) (by decide) (by decide)
  ⟨after, after', hon, hon', (horder ⟨"blue", 0, 1, .color⟩ (by decide)).2 (by decide) (by decide),
    (horder ⟨"green", 1, 1, .color⟩ (by decide)).1 (by decide) (by decide)⟩

end Format

end PixelRecord
