import PixelRecord.Strict
import PixelRecord.Proofs.Layout.Acceptance
import PixelRecord.Proofs.Picture

/-!
Pictures pixel by pixel.

A buffer into which a picture was written has in every group of four bytes what the record
with the same index reads as when it is cut out and read alone; what lies behind the last
pixel is not touched. Addressed by column and row, a new picture has at `x`, `y` what the
record `x` places into row `y` reads as, and nothing outside its width and height. None of
this depends on whether records are counted or chunks of the two buffers are paired.
-/

namespace PixelRecord

open Edit

theorem Picture.pixel?_eq_none {p : Picture} {x y : Nat} (h : ¬ (x < p.width ∧ y < p.height)) :
    p.pixel? x y = none := if_neg h

namespace Format

/-- `out` is `buf` with the first `count` records of `src` written over its first bytes. -/
structure Filled (f : Format) (src : Bytes) (count : Nat) (buf out : Bytes) : Prop where
  size : out.size = buf.size
  pixels : ∀ i < count, ∃ c opacity, f.decode (f.record src i) = .ok (c, opacity) ∧
    out.extract (4 * i) (4 * i + 4) = #[c.r, c.g, c.b, opacity]
  rest : ∀ j, 4 * count ≤ j → out[j]? = buf[j]?

/-- The picture has a pixel for each of its columns and rows, read from the records of `src`
row after row. -/
structure Addresses (f : Format) (src : Bytes) (width height : Nat) (p : Picture) : Prop where
  dimensions : p.width = width ∧ p.height = height
  size : p.data.size = 4 * (width * height)
  inside : ∀ x y, x < width → y < height → ∃ c opacity,
    f.decode (f.record src (y * width + x)) = .ok (c, opacity) ∧
      p.pixel? x y = some ⟨c.r, c.g, c.b, opacity⟩
  outside : ∀ x y, ¬ (x < width ∧ y < height) → p.pixel? x y = none

variable {f : Format} {src buf out : Bytes} {width height i : Nat}

theorem Shows.extract_eq (h : f.Shows src out i) :
    out.extract (4 * i) (4 * i + 4) =
      (pixelBytes (f.depth.device (f.valuesAt src (i * f.recordSize)))).toArray := by
  refine Array.ext_getElem? fun k => ?_
  by_cases hk : k < 4
  · rw [getElem?_extract_of_lt (by omega)]
    exact (h k hk).trans List.getElem?_toArray.symm
  · have hpart : (out.extract (4 * i) (4 * i + 4)).size ≤ k := by
      rw [Array.size_extract]
      omega
    rw [Array.getElem?_eq_none hpart, Array.getElem?_eq_none (Nat.not_lt.mp hk)]

theorem filled_of_shows (hw : f.Wide) {count : Nat}
    (hspace : count * f.recordSize < Layout.addressSpace) (hsrc : count * f.recordSize ≤ src.size)
    (hsize : out.size = buf.size) (hshows : ∀ i ∈ List.range count, f.Shows src out i)
    (hframe : AgreeOn (fun j => ¬ ∃ i ∈ List.range count, 4 * i ≤ j ∧ j < 4 * i + 4) out buf) :
    f.Filled src count buf out where
  size := hsize
  pixels _ hi :=
    ⟨_, _, decode_record hw hi hspace hsrc, (hshows _ (List.mem_range.mpr hi)).extract_eq⟩
  rest j hj := by
    apply hframe
    rintro ⟨i, hi, _, hlast⟩
    have hlt := List.mem_range.mp hi
    omega

theorem Depicts.addresses (hw : f.Wide) {data : Bytes}
    (h : f.Depicts src (width * height) data)
    (hspace : width * height * f.recordSize < Layout.addressSpace)
    (hsrc : width * height * f.recordSize ≤ src.size) :
    f.Addresses src width height ⟨width, height, data⟩ where
  dimensions := ⟨rfl, rfl⟩
  size := h.size
  inside x y hx hy := by
    have hindex := Picture.pixel_lt hx hy
    exact ⟨_, _, decode_record hw hindex hspace hsrc,
      (Picture.pixel?_eq_some_iff hx hy).mpr (h.pixels _ hindex)⟩
  outside _ _ hout := Picture.pixel?_eq_none hout

/-! ### Chunk by chunk -/

/-- Buffers that show the same records have the same bytes there. -/
theorem agreeOn_of_shows {out' : Bytes} {count : Nat}
    (h : ∀ i ∈ List.range count, f.Shows src out i)
    (h' : ∀ i ∈ List.range count, f.Shows src out' i) :
    AgreeOn (fun j => ∃ i ∈ List.range count, 4 * i ≤ j ∧ j < 4 * i + 4) out out' := by
  rintro j ⟨i, hi, hfirst, hlast⟩
  have hbyte := h i hi (j - 4 * i) (by omega)
  have hbyte' := h' i hi (j - 4 * i) (by omega)
  rw [Nat.add_sub_cancel' hfirst] at hbyte hbyte'
  rw [hbyte, hbyte']

/-- The pairs of chunks are the records and pixels of the picture, as both buffers are large
enough. -/
theorem take_zip_chunks {size count : Nat} (hsrc : count * f.recordSize ≤ src.size)
    (hsize : 4 * count ≤ size) :
    ((chunks src f.recordSize).zip (List.range (size / 4))).take count =
      (List.range count).map fun i => (f.record src i, i) := by
  have hrecords := take_cells f.layout.recordSize_pos hsrc
  have hpixels : (List.range (size / 4)).take count = List.range count :=
    take_cells (by decide) (by omega)
  rw [List.zip, List.take_zipWith, chunks, ← List.map_take, hrecords, hpixels,
    List.zipWith_map_left, List.zipWith_self]
  rfl

/-- A step on a chunk of each buffer does to the picture what `writePixel` does. -/
theorem writeChunk_acts (hw : f.Wide) {size : Nat}
    (hsrc : i * f.recordSize + f.recordSize ≤ src.size) (hsize : 4 * i + 4 ≤ size) :
    (Edit.onChunk 4 i (f.writeChunk (f.record src i))).Acts size
      (fun j => 4 * i ≤ j ∧ j < 4 * i + 4) (fun _ out => f.Shows src out i) := by
  have hchunk : (f.writeChunk (f.record src i)).Acts (i * 4 + 4 - i * 4)
      (fun j => 0 ≤ j ∧ j < 0 + 4) fun _ out => ∀ k < 4, out[0 + k]? =
        (pixelBytes (f.depth.device (f.valuesAt src (i * f.recordSize))))[k]? :=
    Acts.of_ok (decodeAt_record hw hsrc) (acts_write (by rw [Nat.add_sub_cancel_left]; rfl))
  have hplace := Acts.within hchunk (by omega) (show i * 4 + 4 ≤ size by omega)
    fun j hj => by omega
  refine hplace.mono (writePixel_acts hw hsrc hsize).looksAt (fun j hj => by omega) ?_
  intro _ out _ hpost k hk
  have hbyte := hpost k hk
  rw [getElem?_extract_of_lt (by omega), Nat.zero_add, Nat.mul_comm] at hbyte
  exact hbyte

/-- Going through the chunks is going through records and pixels. -/
theorem writePictureByChunks_on (hw : f.Wide) (src : Bytes) (width height : Nat) (buf : Bytes) :
    (f.writePictureByChunks src width height).on buf =
      (f.writePicture src width height).on buf := by
  refine on_require_bind_congr fun hsource => on_require_bind_congr fun hpixels => ?_
  have hsrc := (checkSource_eq_ok_iff.mp hsource).2.2
  have hsize := of_checkPixels hpixels
  have hloop := writePixels_acts hw hsrc hsize
  have hchunks := pixels_acts fun i hi =>
    writeChunk_acts hw (record_le hi hsrc) (show 4 * i + 4 ≤ buf.size by omega)
  rw [on_size_bind]
  dsimp only
  rw [take_zip_chunks hsrc hsize, List.forM_eq_forM, List.forM_map]
  exact hchunks.on_eq hloop fun _ _ _ _ => agreeOn_of_shows

/-- **Pictures are made pixel by pixel.** A source with all records of the picture is written
to every buffer with room for the pixels, and makes the same picture at every place. To go
through the chunks of both buffers is the same. -/
theorem picture_pointwise (hw : f.Wide)
    (hspace : width * height * f.recordSize < Layout.addressSpace)
    (hsrc : width * height * f.recordSize ≤ src.size) :
    (∀ buf : Bytes, 4 * (width * height) ≤ buf.size → ∃ out,
        (f.writePicture src width height).on buf = (.ok (), out) ∧
          f.Filled src (width * height) buf out) ∧
      (∃ p, f.Addresses src width height p ∧
        ∀ x y : Int, f.toPicture src width height x y = .ok p) ∧
      ∀ buf, (f.writePictureByChunks src width height).on buf =
        (f.writePicture src width height).on buf := by
  have hpixels := Nat.le_mul_of_pos_right (width * height) f.layout.recordSize_pos
  have hcheck : f.checkSource src.size width height = .ok () :=
    checkSource_eq_ok_iff.mpr ⟨hpixels.trans_lt hspace, hspace, hsrc⟩
  refine ⟨fun buf hbuf => ?_, ?_, writePictureByChunks_on hw src width height⟩
  · obtain ⟨⟨⟩, out, hon, hsize, hframe, hshows⟩ :=
      (writePicture_acts hw hcheck hbuf).ends buf rfl
    exact ⟨out, hon, filled_of_shows hw hspace hsrc hsize hshows hframe⟩
  · obtain ⟨data, hdata, hdepicts⟩ := toPicture_of_check hw 0 0 hcheck
    exact ⟨_, hdepicts.addresses hw hspace hsrc, fun _ _ => hdata⟩

/-- Two rows of one record each, with a byte behind them and a color twice as wide as a
value. -/
theorem picture_pointwise_two_rows :
    let f : Format := ⟨.eight, [⟨"gray", 1, 2, .color⟩, ⟨"alpha", 0, 1, .alpha⟩], 3,
      Layout.extent_eq_ok_iff_describes.mpr (by decide)⟩
    let src : Bytes := #[255, 10, 1, 128, 20, 2, 7]
    (∃ out, (f.writePicture src 1 2).on (Array.replicate 9 1) = (.ok (), out) ∧
        out.extract 4 8 = #[20, 0, 0, 128] ∧ out[8]? = some 1) ∧
      ∃ p, f.toPicture src 1 2 5 (-3) = .ok p ∧ p.pixel? 0 1 = some ⟨20, 0, 0, 128⟩ ∧
        p.pixel? 1 0 = none := by
  intro f src
  have hdecode : f.decode (f.record src 1) = .ok (⟨20, 0, 0⟩, 128) := by rfl
  obtain ⟨hwrite, ⟨p, hpicture, hp⟩, -⟩ :=
    @picture_pointwise f src 1 2 (by decide) (by decide) (by decide)
  refine ⟨?_, p, hp 5 (-3), ?_, hpicture.outside 1 0 (by decide)⟩
  · obtain ⟨out, hon, hfilled⟩ := hwrite (Array.replicate 9 1) (by decide)
    obtain ⟨c, opacity, hok, hpixel⟩ := hfilled.pixels 1 (by decide)
    obtain ⟨rfl, rfl⟩ := Prod.mk.inj (Except.ok.inj (hdecode.symm.trans hok))
    exact ⟨out, hon, hpixel, hfilled.rest 8 (by decide)⟩
  · obtain ⟨c, opacity, hok, hpixel⟩ := hpicture.inside 0 1 (by decide) (by decide)
    obtain ⟨rfl, rfl⟩ := Prod.mk.inj (Except.ok.inj (hdecode.symm.trans hok))
    exact hpixel

end Format

end PixelRecord
