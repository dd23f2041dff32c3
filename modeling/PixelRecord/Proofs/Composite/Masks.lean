import PixelRecord.Proofs.Composite.Rectangle

/-!
Masks and opacities.

A mask byte and the opacity of a composition meet in the cover and nowhere else. The
formula for the cover is a product of the two, so they can change places, and a full one
of either can be left out. The cover as it is worked out has shortcuts that treat them
differently; since it is the formula's cover all the same, nothing of them is seen in the
buffer.
-/

namespace PixelRecord

open Edit

/-! ### The cover -/

namespace Formula

variable (d : Depth) (m opacity : UInt8)

theorem cover_comm : cover d (some m) opacity = cover d (some opacity) m := by
  rw [cover, cover, Option.getD_some, Option.getD_some, Int.mul_comm]

/-- A full mask byte is as none. -/
theorem cover_full_mask : cover d (some 255) opacity = cover d none opacity := rfl

/-- A mask byte under full opacity is as the opacity without a mask. -/
theorem cover_full_opacity : cover d (some m) 255 = cover d none m := by
  rw [cover_comm, cover_full_mask]

end Formula

/-! ### What a mask shows -/

/-- A mask is large enough for `rows` rows of `cols` records, and has the byte `value r c`
for the record in row `r` and column `c`. -/
structure Mask.Shows (mask : Mask) (rows cols : Nat) (value : Nat → Nat → UInt8) : Prop where
  /-- Rows do not overlap, if there is anything in them. -/
  apart : 0 < rows → 0 < cols → cols ≤ mask.stride
  addressable : mask.bytes.size < Layout.addressSpace
  byte : ∀ r < rows, ∀ c < cols, mask.bytes[r * mask.stride + c]? = some (value r c)

namespace Mask

variable {mask : Mask} {rows cols : Nat} {value : Nat → Nat → UInt8}

instance : Decidable (mask.Shows rows cols value) :=
  decidable_of_iff
    ((0 < rows → 0 < cols → cols ≤ mask.stride) ∧ mask.bytes.size < Layout.addressSpace ∧
      ∀ r < rows, ∀ c < cols, mask.bytes[r * mask.stride + c]? = some (value r c))
    ⟨fun ⟨hapart, haddress, hbyte⟩ => ⟨hapart, haddress, hbyte⟩,
      fun h => ⟨h.apart, h.addressable, h.byte⟩⟩

theorem Shows.byteAt_eq (h : mask.Shows rows cols value) {r c : Nat} (hr : r < rows)
    (hc : c < cols) : mask.byteAt r c = value r c := by
  rw [byteAt, Array.getD_eq_getD_getElem?, h.byte r hr c hc, Option.getD_some]

theorem Shows.checkRectangle_eq_ok (h : mask.Shows rows cols value) (hrows : 0 < rows)
    (hcols : 0 < cols) {what : String} :
    checkRectangle mask.bytes.size mask.stride rows cols what = .ok () := by
  have hlast := h.byte (rows - 1) (by omega) (cols - 1) (by omega)
  obtain ⟨hin, -⟩ := Array.getElem?_eq_some_iff.mp hlast
  have haddress := h.addressable
  exact checkRectangle_eq_ok_iff.mpr ⟨h.apart hrows hcols, by omega, by omega⟩

end Mask

namespace Format

variable {f : Format} {size stride : Nat} {src : Surface} {mask mask' : Option Mask}
  {what : Composition} {opacity opacity' : UInt8}

/-- A mask that is large enough takes no part in the geometry check. -/
theorem checkComposite_mask {m : Mask} {value : Nat → Nat → UInt8}
    (h : m.Shows what.rows what.cols value) :
    f.checkComposite size stride src (some m) what =
      f.checkComposite size stride src none what := by
  rw [checkComposite, checkComposite]
  split
  · rfl
  · next hfull =>
    have hmask : checkRectangle m.bytes.size m.stride what.rows what.cols "composite mask" =
        .ok () := h.checkRectangle_eq_ok (by omega) (by omega)
    unfold checkComposition
    dsimp only
    rw [hmask]
    rfl

/-! ### Compositions with the same cover -/

/-- A mask and an opacity come to the cover of another mask and opacity at this record. -/
def SameCover (f : Format) (mask : Option Mask) (opacity : UInt8) (mask' : Option Mask)
    (opacity' : UInt8) (r c : Nat) : Prop :=
  Formula.cover f.depth (mask.map fun m => m.byteAt r c) opacity =
    Formula.cover f.depth (mask'.map fun m => m.byteAt r c) opacity'

theorem cellFormula_congr {r c : Nat} (h : f.SameCover mask opacity mask' opacity' r c) :
    f.cellFormula src mask { what with opacity := opacity } r c =
      f.cellFormula src mask' { what with opacity := opacity' } r c := by
  funext v
  exact congrArg (Formula.composited what.op f.depth.max · _ v) h

/-- Nothing but the cover is seen of a mask and an opacity. -/
theorem composite_on_congr (hw : f.Wide) (buf : Bytes)
    (hcheck : f.checkComposite buf.size stride src mask { what with opacity := opacity } =
      f.checkComposite buf.size stride src mask' { what with opacity := opacity' })
    (hcover : ∀ r < what.rows, ∀ c < what.cols, f.SameCover mask opacity mask' opacity' r c) :
    (f.composite stride src mask { what with opacity := opacity }).on buf =
      (f.composite stride src mask' { what with opacity := opacity' }).on buf := by
  have h := composite_obeys hw buf.size stride src mask { what with opacity := opacity }
  have h' := composite_obeys hw buf.size stride src mask' { what with opacity := opacity' }
  rw [← hcheck] at h'
  refine h.on_eq hw (h'.congr fun _ (r, c) hmem => ?_) cells_le_of_checkComposite
  obtain ⟨hr, hc⟩ := Composition.mem_cells.mp hmem
  exact cellFormula_congr (hcover r hr c hc)

/-- What is seen at a record of a mask and an opacity is their cover there. -/
theorem composite_record_congr (hw : f.Wide) (buf : Bytes)
    (hcheck : f.checkComposite buf.size stride src mask { what with opacity := opacity } =
      f.checkComposite buf.size stride src mask' { what with opacity := opacity' }) :
    let outcome := (f.composite stride src mask { what with opacity := opacity }).on buf
    let outcome' := (f.composite stride src mask' { what with opacity := opacity' }).on buf
    outcome.1 = outcome'.1 ∧ ∀ r < what.rows, ∀ c < what.cols,
      f.SameCover mask opacity mask' opacity' r c → ∀ t < f.recordSize,
        outcome.2[r * stride + c * f.recordSize + t]? =
          outcome'.2[r * stride + c * f.recordSize + t]? := by
  obtain ⟨hanswer, hrecords⟩ := composite_agree hw buf hcheck.symm rfl
  exact ⟨hanswer, fun r hr c hc hcover =>
    hrecords r hr c hc (congrFun (cellFormula_congr hcover) _)⟩

/-- **Masks and opacities.** A mask of equal bytes and an opacity can change places. A full
mask is as no mask. Under full opacity a mask is an opacity for each record: where its byte
is `m`, the record comes out as without a mask under opacity `m`. -/
theorem composite_mask_as_opacity (hw : f.Wide) (stride : Nat) (src : Surface)
    (what : Composition) (buf : Bytes) :
    (∀ (m opacity : UInt8) (mask mask' : Mask),
      mask.Shows what.rows what.cols (fun _ _ => m) →
      mask'.Shows what.rows what.cols (fun _ _ => opacity) →
        (f.composite stride src (some mask) { what with opacity := opacity }).on buf =
          (f.composite stride src (some mask') { what with opacity := m }).on buf) ∧
    (∀ mask : Mask, mask.Shows what.rows what.cols (fun _ _ => 255) →
        (f.composite stride src (some mask) what).on buf =
          (f.composite stride src none what).on buf) ∧
    ∀ (mask : Mask) (value : Nat → Nat → UInt8), mask.Shows what.rows what.cols value →
      ∀ m : UInt8,
        let masked := (f.composite stride src (some mask) { what with opacity := 255 }).on buf
        let bare := (f.composite stride src none { what with opacity := m }).on buf
        masked.1 = bare.1 ∧ ∀ r < what.rows, ∀ c < what.cols, value r c = m →
          ∀ t < f.recordSize,
            masked.2[r * stride + c * f.recordSize + t]? =
              bare.2[r * stride + c * f.recordSize + t]? := by
  refine ⟨fun m opacity mask mask' h h' => ?_, fun mask h => ?_, fun mask value h m => ?_⟩
  · refine composite_on_congr hw buf ((checkComposite_mask h).trans (checkComposite_mask h').symm)
      fun r hr c hc => ?_
    rw [SameCover, Option.map_some, Option.map_some, h.byteAt_eq hr hc, h'.byteAt_eq hr hc]
    exact Formula.cover_comm f.depth m opacity
  · refine composite_on_congr hw buf (checkComposite_mask h) fun r hr c hc => ?_
    rw [SameCover, Option.map_some, h.byteAt_eq hr hc]
    exact Formula.cover_full_mask f.depth what.opacity
  · have hcheck : f.checkComposite buf.size stride src (some mask) { what with opacity := 255 } =
        f.checkComposite buf.size stride src none { what with opacity := m } :=
      checkComposite_mask h
    obtain ⟨hanswer, hrecords⟩ := composite_record_congr hw buf hcheck
    refine ⟨hanswer, fun r hr c hc hm => hrecords r hr c hc ?_⟩
    rw [SameCover, Option.map_some, h.byteAt_eq hr hc, hm]
    exact Formula.cover_full_opacity f.depth m

theorem composite_mask_as_opacity_two_pixels :
    let screened (mask : Option Mask) (opacity : UInt8) :=
      (composite ⟨.eight, .bgra .eight⟩ 8 ⟨#[10, 200, 30, 255, 40, 50, 60, 128], 8⟩ mask
        ⟨1, 2, opacity, .screen⟩).on #[200, 100, 50, 60, 5, 15, 25, 35]
    screened (some ⟨#[90, 90], 2⟩) 200 = screened (some ⟨#[200, 200, 7], 3⟩) 90 ∧
      screened (some ⟨#[255, 255], 2⟩) 200 = screened none 200 ∧
      (screened (some ⟨#[90, 17], 2⟩) 255).1 = (screened none 90).1 ∧
      ∀ t < 4, (screened (some ⟨#[90, 17], 2⟩) 255).2[0 * 8 + 0 * 4 + t]? =
        (screened none 90).2[0 * 8 + 0 * 4 + t]? := by
  intro screened
  obtain ⟨hswap, hfull, hmask⟩ := composite_mask_as_opacity
    (show Wide ⟨.eight, .bgra .eight⟩ by decide) 8 ⟨#[10, 200, 30, 255, 40, 50, 60, 128], 8⟩
    ⟨1, 2, 200, .screen⟩ #[200, 100, 50, 60, 5, 15, 25, 35]
  obtain ⟨hanswer, hrecords⟩ := hmask ⟨#[90, 17], 2⟩ (fun _ c => if c = 0 then 90 else 17)
    (by decide) 90
  refine ⟨?_, ?_, hanswer, ?_⟩
  · exact hswap 90 200 ⟨#[90, 90], 2⟩ ⟨#[200, 200, 7], 3⟩ (by decide) (by decide)
  · exact hfull ⟨#[255, 255], 2⟩ (by decide)
  · exact hrecords 0 (by decide) 0 (by decide) rfl

end Format

end PixelRecord
