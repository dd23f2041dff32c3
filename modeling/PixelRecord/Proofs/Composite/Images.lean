import PixelRecord.CommandLine.Commands
import PixelRecord.Proofs.Composite.Rectangle
import PixelRecord.Proofs.Image
import PixelRecord.Proofs.Picture.Tasks

/-!
Whole images composited.

An image fills its rectangle: rows lie next to one another, and the record in row
`r` and column `c` is the one of the pixel with index `r * cols + c`, in the
destination, in the source and in the mask. A single pixel is such a rectangle as
well, of one row and one column. So what compositing makes of an image at a pixel is
what it makes of that pixel by itself, and the picture shows just that.
-/

namespace PixelRecord

open Edit

namespace Format

variable {f : Format} {rows cols : Nat} {dst src : Bytes} {mask : Option Bytes}

/-! ### Rectangles without gaps -/

theorem checkRectangle_filled {size rowBytes : Nat} {what : String} (hrows : 0 < rows)
    (hspace : rows * rowBytes < Layout.addressSpace) (hsize : rows * rowBytes ≤ size) :
    checkRectangle size rowBytes rows rowBytes what = .ok () := by
  have hlast : (rows - 1) * rowBytes + rowBytes = rows * rowBytes := by
    rw [← Nat.succ_mul, Nat.succ_eq_add_one, Nat.sub_add_cancel hrows]
  rw [checkRectangle_eq_ok_iff, hlast]
  exact ⟨Nat.le_refl _, hspace, hsize⟩

theorem checkComposite_filled (op : Op) (opacity : UInt8)
    (hspace : rows * (cols * f.recordSize) < Layout.addressSpace)
    (hdst : rows * (cols * f.recordSize) ≤ dst.size)
    (hsrc : rows * (cols * f.recordSize) ≤ src.size)
    (hmask : ∀ m, mask = some m → rows * cols ≤ m.size) :
    f.checkComposite dst.size (cols * f.recordSize) ⟨src, cols * f.recordSize⟩
      (mask.map fun m => ⟨m, cols⟩) ⟨rows, cols, opacity, op⟩ = .ok () := by
  rw [checkComposite]
  split
  · rfl
  · next hne =>
    simp only [not_or] at hne
    have hrows : 0 < rows := by omega
    have hrow : cols * f.recordSize ≤ rows * (cols * f.recordSize) := Nat.le_mul_of_pos_left _ hrows
    have hpixels : rows * cols ≤ rows * (cols * f.recordSize) :=
      Nat.mul_le_mul_left rows (Nat.le_mul_of_pos_right _ f.layout.recordSize_pos)
    refine checkComposition_eq_ok_iff.mpr ⟨hrow.trans_lt hspace,
      checkRectangle_filled hrows hspace hdst, checkRectangle_filled hrows hspace hsrc,
      fun m' hm' => ?_⟩
    obtain ⟨m, hm, rfl⟩ := Option.map_eq_some_iff.mp hm'
    exact checkRectangle_filled hrows (hpixels.trans_lt hspace) (hmask m hm)

/-- Compositing a rectangle without gaps, with records counted one after the other. -/
theorem composite_filled_ends (hw : f.Wide) (rows cols : Nat) (dst src : Bytes)
    (mask : Option Bytes) (op : Op) (opacity : UInt8)
    (hspace : rows * (cols * f.recordSize) < Layout.addressSpace)
    (hdst : rows * (cols * f.recordSize) ≤ dst.size)
    (hsrc : rows * (cols * f.recordSize) ≤ src.size)
    (hmask : ∀ m, mask = some m → rows * cols ≤ m.size) :
    (f.composite (cols * f.recordSize) ⟨src, cols * f.recordSize⟩ (mask.map fun m => ⟨m, cols⟩)
      ⟨rows, cols, opacity, op⟩).Ends dst fun _ out => out.size = dst.size ∧
        ∀ r < rows, ∀ c < cols, f.valuesAt out ((r * cols + c) * f.recordSize) =
          Formula.composited op f.depth.max
            (Formula.cover f.depth (mask.map fun m => m.getD (r * cols + c) 0) opacity)
            (f.valuesAt src ((r * cols + c) * f.recordSize))
            (f.valuesAt dst ((r * cols + c) * f.recordSize)) := by
  have hobeys := composite_obeys hw dst.size (cols * f.recordSize) ⟨src, cols * f.recordSize⟩
    (mask.map fun m => ⟨m, cols⟩) ⟨rows, cols, opacity, op⟩
  rw [checkComposite_filled op opacity hspace hdst hsrc hmask] at hobeys
  refine (Acts.ends hobeys dst rfl).mono fun _ out ⟨hsize, _, hvalues⟩ => ⟨hsize, ?_⟩
  intro r hr c hc
  have hcell := hvalues (r, c) (Composition.mem_cells.mpr ⟨hr, hc⟩)
  have hplace : r * (cols * f.recordSize) + c * f.recordSize = (r * cols + c) * f.recordSize := by
    rw [Nat.add_mul, Nat.mul_assoc]
  simp only [cellFormula, hplace, Option.map_map] at hcell
  exact hcell

end Format

/-! ### Images -/

namespace CommandLine

/-- The picture that compositing images comes to: each pixel is read from the record
that compositing its two pixels as records by themselves leaves, with the pixel of
the mask as coverage. -/
structure Composed (s : Space) (op : Op) (opacity : UInt8) (dst src : Image)
    (mask : Option Image) (picture : Picture) : Prop where
  width : picture.width = dst.width
  height : picture.height = dst.height
  size : picture.data.size = 4 * (dst.width * dst.height)
  pixels : ∀ x < dst.width, ∀ y < dst.height, ∃ out color alpha,
    (s.composite s.recordSize ⟨src.record s.depth (y * dst.width + x), s.recordSize⟩
        (mask.map fun m => ⟨#[m.coverage (y * dst.width + x)], 1⟩) ⟨1, 1, opacity, op⟩).on
      (dst.record s.depth (y * dst.width + x)) = (.ok (), out) ∧
    s.decode out = .ok (color, alpha) ∧
    picture.pixel? x y = some ⟨color.r, color.g, color.b, alpha⟩

/-- There is only one such picture. -/
theorem Composed.unique {s : Space} {op : Op} {opacity : UInt8} {dst src : Image}
    {mask : Option Image} {picture other : Picture} (h : Composed s op opacity dst src mask picture)
    (h' : Composed s op opacity dst src mask other) : other = picture := by
  have hdata : other.data = picture.data := by
    apply Array.ext_getElem?
    intro j
    by_cases hj : j < 4 * (dst.width * dst.height)
    · have hindex : j / 4 < dst.width * dst.height := by omega
      have hwidth : 0 < dst.width := Nat.pos_of_mul_pos_right (Nat.zero_lt_of_lt hindex)
      have hx : j / 4 % dst.width < dst.width := Nat.mod_lt _ hwidth
      have hy : j / 4 / dst.width < dst.height := Nat.div_lt_of_lt_mul hindex
      have hplace : 4 * (j / 4 / dst.width * dst.width + j / 4 % dst.width) + j % 4 = j := by
        rw [Nat.div_add_mod', Nat.div_add_mod]
      -- Both show what the same two records leave at the pixel that the byte is part of.
      obtain ⟨out, color, alpha, hon, hread, hpixel⟩ := h.pixels _ hx _ hy
      obtain ⟨out', color', alpha', hon', hread', hpixel'⟩ := h'.pixels _ hx _ hy
      rw [hon] at hon'
      cases hon'
      rw [hread] at hread'
      cases hread'
      have hbyte := (Picture.pixel?_eq_some_iff (h.width.symm ▸ hx) (h.height.symm ▸ hy)).mp hpixel
        (j % 4) (Nat.mod_lt _ (by decide))
      have hbyte' := (Picture.pixel?_eq_some_iff (h'.width.symm ▸ hx) (h'.height.symm ▸ hy)).mp
        hpixel' (j % 4) (Nat.mod_lt _ (by decide))
      rw [h.width, hplace] at hbyte
      rw [h'.width, hplace] at hbyte'
      rw [hbyte, hbyte']
    · rw [Array.getElem?_eq_none (by rw [h'.size]; omega),
        Array.getElem?_eq_none (by rw [h.size]; omega)]
  have hwidth := h'.width.trans h.width.symm
  have hheight := h'.height.trans h.height.symm
  obtain ⟨width, height, data⟩ := picture
  obtain ⟨width', height', data'⟩ := other
  simp_all

/-- The images of a composition are of one size. -/
structure Matching (dst src : Image) (mask : Option Image) : Prop where
  source : (src.width, src.height) = (dst.width, dst.height)
  mask : ∀ m, mask = some m → (m.width, m.height) = (dst.width, dst.height)

section

variable {id : SpaceId} {op : Op} {opacity : UInt8} {dst src : Image} {mask : Option Image}

/-- The mask of a composition, as bytes in rows of the destination's width. -/
theorem Matching.map_mask (hm : Matching dst src mask) :
    (mask.map fun m => (⟨m.luminance8, m.width⟩ : Mask)) =
      (mask.map Image.luminance8).map fun b => ⟨b, dst.width⟩ := by
  rw [Option.map_map]
  cases mask with
  | none => rfl
  | some m => simp [(Prod.mk.inj (hm.mask m rfl)).1]

/-- Its byte at a pixel is the coverage there. -/
theorem Matching.coverage_eq (hm : Matching dst src mask) (hgray : ∀ m, mask = some m → m.IsGray)
    {i : Nat} (hi : i < dst.width * dst.height) :
    ((mask.map Image.luminance8).map fun b => b.getD i 0) = mask.map fun m => m.coverage i := by
  rw [Option.map_map]
  cases mask with
  | none => rfl
  | some m =>
    obtain ⟨hwidth, hheight⟩ := Prod.mk.inj (hm.mask m rfl)
    exact congrArg some (Image.luminance8_of_isGray (hgray m rfl) (by rwa [hwidth, hheight]))

/-- What compositing makes of the record at a pixel, by itself. -/
def recordFormula (id : SpaceId) (op : Op) (opacity : UInt8) (dst src : Image)
    (mask : Option Image) (i : Nat) : PixelValues :=
  Formula.composited op id.depth.max
    (Formula.cover id.depth (mask.map fun m => m.coverage i) opacity)
    ((Space.builtin id).valuesAt (src.record id.depth i) 0)
    ((Space.builtin id).valuesAt (dst.record id.depth i) 0)

/-- Compositing images leaves in each record what compositing makes of it by itself. -/
theorem composite_records_ends (op : Op) (opacity : UInt8) (hm : Matching dst src mask)
    (hgray : ∀ m, mask = some m → m.IsGray)
    (hspace : dst.height * (dst.width * (Space.builtin id).recordSize) < Layout.addressSpace) :
    ((Space.builtin id).composite (dst.width * (Space.builtin id).recordSize)
        ⟨src.records id.depth, dst.width * (Space.builtin id).recordSize⟩
        (mask.map fun m => ⟨m.luminance8, m.width⟩) ⟨dst.height, dst.width, opacity, op⟩).Ends
      (dst.records id.depth) fun _ out =>
        out.size = dst.height * (dst.width * (Space.builtin id).recordSize) ∧
        ∀ x < dst.width, ∀ y < dst.height,
          (Space.builtin id).valuesAt out ((y * dst.width + x) * (Space.builtin id).recordSize) =
            recordFormula id op opacity dst src mask (y * dst.width + x) := by
  obtain ⟨hwidth, hheight⟩ := Prod.mk.inj hm.source
  have hdst := dst.size_records id
  have hsrc := src.size_records id
  rw [hwidth, hheight] at hsrc
  have hmask : ∀ b, mask.map Image.luminance8 = some b → dst.height * dst.width ≤ b.size := by
    intro b hb
    obtain ⟨m, hsome, rfl⟩ := Option.map_eq_some_iff.mp hb
    obtain ⟨hwidth, hheight⟩ := Prod.mk.inj (hm.mask m hsome)
    rw [Image.size_luminance8, hwidth, hheight, Nat.mul_comm]
  rw [hm.map_mask]
  refine (Format.composite_filled_ends (Space.wide_builtin id) dst.height dst.width _ _ _ op
    opacity hspace hdst.ge hsrc.ge hmask).mono fun _ out ⟨hsize, hvalues⟩ => ⟨hsize.trans hdst, ?_⟩
  intro x hx y hy
  have hlt := Picture.pixel_lt hx hy
  have hcell := hvalues y hy x hx
  rw [hm.coverage_eq hgray hlt, Image.valuesAt_records id hlt,
    Image.valuesAt_records id (by rwa [hwidth, hheight])] at hcell
  exact hcell

/-- So does compositing one record over another. -/
theorem composite_record_ends (id : SpaceId) (op : Op) (opacity : UInt8) (dst src : Image)
    (mask : Option Image) (i : Nat) :
    ((Space.builtin id).composite (Space.builtin id).recordSize
        ⟨src.record id.depth i, (Space.builtin id).recordSize⟩
        (mask.map fun m => ⟨#[m.coverage i], 1⟩) ⟨1, 1, opacity, op⟩).Ends (dst.record id.depth i)
      fun _ out => out.size = (Space.builtin id).recordSize ∧
        (Space.builtin id).valuesAt out 0 = recordFormula id op opacity dst src mask i := by
  have hsize (m : Image) : (m.record id.depth i).size = (Space.builtin id).recordSize :=
    m.size_record id.depth i
  have hmask : ∀ b, (mask.map fun m => #[m.coverage i]) = some b → 1 * 1 ≤ b.size := by
    intro b hb
    obtain ⟨m, _, rfl⟩ := Option.map_eq_some_iff.mp hb
    exact Nat.le_refl 1
  have hends := Format.composite_filled_ends (Space.wide_builtin id) 1 1 (dst.record id.depth i)
    (src.record id.depth i) (mask.map fun m => #[m.coverage i]) op opacity
    (by simpa only [Nat.one_mul] using Space.recordSize_builtin_lt id)
    (by simpa only [Nat.one_mul] using (hsize dst).ge)
    (by simpa only [Nat.one_mul] using (hsize src).ge) hmask
  simp only [Nat.one_mul, Option.map_map] at hends
  refine hends.mono fun _ out ⟨hout, hvalues⟩ => ⟨hout.trans (hsize dst), ?_⟩
  have hcell := hvalues 0 Nat.zero_lt_one 0 Nat.zero_lt_one
  simp only [Nat.zero_mul, Nat.add_zero] at hcell
  exact hcell

/-- **Compositing images.** Where the images match and the settings are accepted, there
is the picture of the composition; only counting the bytes of tasks can fail. -/
theorem compositeImages_eq {taskOrder : Nat → List Nat}
    (horder : ∀ n, (taskOrder n).Perm (List.range n)) {threading : Threading}
    (ht : threading.check = .ok ()) (id : SpaceId) (op : Op) (opacity : UInt8)
    (hm : Matching dst src mask) (hgray : ∀ m, mask = some m → m.IsGray)
    (hspace : dst.height * (dst.width * (Space.builtin id).recordSize) < Layout.addressSpace) :
    ∃ picture, Composed (Space.builtin id) op opacity dst src mask picture ∧
      compositeImages taskOrder (Space.builtin id) op opacity threading dst src
          (mask.map fun m => ⟨m.luminance8, m.width⟩) =
        if (Space.builtin id).CountsTasks threading dst.width dst.height then .ok picture
        else .error (.fault .overflow) := by
  obtain ⟨⟨⟩, out, hon, hsize, hvalues⟩ := composite_records_ends op opacity hm hgray hspace
  have hcount : dst.width * dst.height * (Space.builtin id).recordSize =
      dst.height * (dst.width * (Space.builtin id).recordSize) := by
    rw [Nat.mul_comm dst.width, Nat.mul_assoc]
  have hcheck : (Space.builtin id).checkSource out.size dst.width dst.height = .ok () := by
    have hpixels := Nat.le_mul_of_pos_right (dst.width * dst.height)
      (Space.builtin id).layout.recordSize_pos
    refine Format.checkSource_eq_ok_iff.mpr ⟨?_, ?_, ?_⟩
    · exact hpixels.trans_lt (hcount ▸ hspace)
    · exact hcount ▸ hspace
    · exact (hcount.trans hsize.symm).le
  obtain ⟨data, hdata, hdepicts⟩ :=
    Format.toPictureWith_of_check (Space.wide_builtin id) horder ht hcheck
  refine ⟨⟨dst.width, dst.height, data⟩, ⟨rfl, rfl, hdepicts.size, fun x hx y hy => ?_⟩, ?_⟩
  · obtain ⟨⟨⟩, one, hone, hsizeOne, hvaluesOne⟩ := composite_record_ends id op opacity dst src mask
      (y * dst.width + x)
    have hread := Format.decode_eq_ok (Space.wide_builtin id) (Space.recordSize_builtin_lt id)
      hsizeOne.ge
    refine ⟨one, _, _, hone, hread, ?_⟩
    refine (Picture.pixel?_eq_some_iff hx hy).mpr fun k hk => ?_
    rw [hvaluesOne, ← hvalues x hx y hy]
    exact hdepicts.pixels _ (Picture.pixel_lt hx hy) k hk
  · rw [compositeImages, show (Space.builtin id).id = id from rfl]
    simp only [hon, Format.Checked.toPictureWith, hdata]

end

end CommandLine

end PixelRecord
