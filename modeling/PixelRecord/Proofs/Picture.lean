import PixelRecord.Picture
import PixelRecord.Proofs.DeviceColor

/-!
What a picture shows.

The bytes of a picture are described without saying how they come about: byte
`k` of pixel `i` is byte `k` of what the `i`-th record stands for. The loop that
writes pixels leaves such bytes, and there is only one picture of a size that
has them. So whoever produces them by other means has produced the same picture.
-/

namespace PixelRecord

open Edit

/-! ### Pixels of a picture -/

namespace Picture

theorem pixel_lt {width height x y : Nat} (hx : x < width) (hy : y < height) :
    y * width + x < width * height := by
  have hrow : (y + 1) * width ≤ height * width := Nat.mul_le_mul_right width hy
  rw [Nat.succ_mul, Nat.mul_comm height] at hrow
  omega

theorem pixel?_eq_some_iff {p : Picture} {x y : Nat} {c : Rgba UInt8} (hx : x < p.width)
    (hy : y < p.height) :
    p.pixel? x y = some c ↔
      ∀ k < 4, p.data[4 * (y * p.width + x) + k]? = c.toList[k]? := by
  obtain ⟨r, g, b, a⟩ := c
  have hall (q : Nat → Prop) : (∀ k < 4, q k) ↔ q 0 ∧ q 1 ∧ q 2 ∧ q 3 :=
    ⟨fun h => ⟨h 0 (by decide), h 1 (by decide), h 2 (by decide), h 3 (by decide)⟩,
      fun ⟨h0, h1, h2, h3⟩ k hk => by
        obtain rfl | rfl | rfl | rfl : k = 0 ∨ k = 1 ∨ k = 2 ∨ k = 3 := by omega
        all_goals assumption⟩
  rw [hall, pixel?, if_pos ⟨hx, hy⟩]
  dsimp only
  split
  · next hsize =>
    have hbyte (k : Nat) (hk : k < 4) : 4 * (y * p.width + x) + k < p.data.size := by omega
    have hfirst : 4 * (y * p.width + x) < p.data.size := hbyte 0 (by decide)
    simp [Rgba.toList, hfirst, hbyte]
  · next hsize =>
    simp only [reduceCtorEq, false_iff]
    rintro ⟨_, _, _, hlast⟩
    rw [Array.getElem?_eq_none (by omega)] at hlast
    cases hlast

end Picture

/-! ### Pixels of records -/

def pixelBytes (p : DeviceColor × UInt8) : List UInt8 := [p.1.r, p.1.g, p.1.b, p.2]

namespace Format

variable {f : Format} {size count : Nat} {src : Bytes}

/-- The pixel from byte `4 * i` of `data` on is what the `i`-th record of `src`
stands for. -/
def Shows (f : Format) (src data : Bytes) (i : Nat) : Prop :=
  ∀ k < 4, data[4 * i + k]? =
    (pixelBytes (f.depth.device (f.valuesAt src (i * f.recordSize))))[k]?

/-- `data` are the bytes of a picture of the first `count` records of `src`. -/
structure Depicts (f : Format) (src : Bytes) (count : Nat) (data : Bytes) : Prop where
  size : data.size = 4 * count
  pixels : ∀ i < count, f.Shows src data i

theorem Depicts.unique {data data' : Bytes} (h : f.Depicts src count data)
    (h' : f.Depicts src count data') : data = data' := by
  apply Array.ext_getElem?
  intro j
  by_cases hj : j < 4 * count
  · have hpixel : 4 * (j / 4) + j % 4 = j := Nat.div_add_mod j 4
    have hbyte := h.pixels (j / 4) (by omega) (j % 4) (Nat.mod_lt _ (by decide))
    have hbyte' := h'.pixels (j / 4) (by omega) (j % 4) (Nat.mod_lt _ (by decide))
    rw [hpixel] at hbyte hbyte'
    rw [hbyte, hbyte']
  · rw [Array.getElem?_eq_none (by rw [h.size]; omega),
      Array.getElem?_eq_none (by rw [h'.size]; omega)]

/-! ### Writing pixels -/

theorem writePixel_acts (hw : f.Wide) {i : Nat} (hsrc : i * f.recordSize + f.recordSize ≤ src.size)
    (hsize : 4 * i + 4 ≤ size) :
    (f.writePixel src i).Acts size (fun j => 4 * i ≤ j ∧ j < 4 * i + 4)
      (fun _ out => f.Shows src out i) :=
  Acts.of_ok (decodeAt_eq_ok hw hsrc) (acts_write hsize)

/-- A loop over the pixels, each of which is made to show its record. -/
theorem pixels_acts {k : Nat → Edit Unit}
    (h : ∀ i < count, (k i).Acts size (fun j => 4 * i ≤ j ∧ j < 4 * i + 4)
      fun _ out => f.Shows src out i) :
    ((List.range count).forM k).Acts size
      (fun j => ∃ i ∈ List.range count, 4 * i ≤ j ∧ j < 4 * i + 4)
      (fun _ out => ∀ i ∈ List.range count, f.Shows src out i) :=
  Acts.forM (List.pairwise_lt_range.imp fun {i k} hlt j hj hj' => by omega)
    fun i hi => h i (List.mem_range.mp hi)

theorem writePixels_acts (hw : f.Wide) (hsrc : count * f.recordSize ≤ src.size)
    (hsize : 4 * count ≤ size) :
    ((List.range count).forM fun i => f.writePixel src i).Acts size
      (fun j => ∃ i ∈ List.range count, 4 * i ≤ j ∧ j < 4 * i + 4)
      (fun _ out => ∀ i ∈ List.range count, f.Shows src out i) :=
  pixels_acts fun _ hi => writePixel_acts hw (record_le hi hsrc) (by omega)

/-! ### Contract checks -/

theorem checkSource_eq_ok_iff {width height : Nat} :
    f.checkSource size width height = .ok () ↔
      width * height < Layout.addressSpace ∧
        width * height * f.recordSize < Layout.addressSpace ∧
          width * height * f.recordSize ≤ size := by
  unfold checkSource pixelCount
  split
  · simp only [bind, Except.bind, reduceCtorEq, false_iff]
    omega
  · refine Layout.checkRecords_eq_ok_iff.trans ?_
    simp only [recordSize]
    omega

/-- What is wrong with a source is always that it does not fit. -/
theorem kind_of_checkSource {width height : Nat} {e : Error}
    (h : f.checkSource size width height = .error e) : e.kind = .buffer := by
  unfold checkSource pixelCount at h
  split at h
  · cases h
    rfl
  · simp only [bind, Except.bind, Layout.checkRecords] at h
    split at h
    · cases h
      rfl
    · split at h
      · cases h
        rfl
      · cases h

theorem checkPixels_eq_ok (h : 4 * count ≤ size) : checkPixels size count = .ok () :=
  if_neg (by omega)

theorem of_checkPixels (h : checkPixels size count = .ok ()) : 4 * count ≤ size := by
  rw [checkPixels] at h
  split at h
  · cases h
  · omega

/-! ### Whole pictures -/

theorem writePicture_acts (hw : f.Wide) {width height : Nat}
    (hcheck : f.checkSource src.size width height = .ok ()) (hsize : 4 * (width * height) ≤ size) :
    (f.writePicture src width height).Acts size
      (fun j => ∃ i ∈ List.range (width * height), 4 * i ≤ j ∧ j < 4 * i + 4)
      (fun _ out => ∀ i ∈ List.range (width * height), f.Shows src out i) := by
  have hloop := writePixels_acts hw (checkSource_eq_ok_iff.mp hcheck).2.2 hsize
  refine ⟨hloop.looksAt, fun buf hbuf => ends_require_bind hcheck ?_⟩
  subst hbuf
  exact ends_require_bind (checkPixels_eq_ok hsize) (hloop.ends buf rfl)

theorem writePicture_orderly (hw : f.Wide) (src : Bytes) (width height : Nat) (buf : Bytes) :
    (f.writePicture src width height).Orderly buf := by
  refine orderly_require_bind fun hsource => orderly_require_bind fun hpixels => ?_
  exact (writePixels_acts hw (checkSource_eq_ok_iff.mp hsource).2.2
    (of_checkPixels hpixels)).orderly

theorem toPicture_of_check (hw : f.Wide) {width height : Nat} (x y : Int)
    (hcheck : f.checkSource src.size width height = .ok ()) :
    ∃ data, f.toPicture src width height x y = .ok ⟨width, height, data⟩ ∧
      f.Depicts src (width * height) data := by
  have hacts := writePicture_acts hw hcheck (le_refl (4 * (width * height)))
  obtain ⟨⟨⟩, data, hon, hsize, _, hpost⟩ := hacts.ends (Array.replicate _ 0) Array.size_replicate
  refine ⟨data, ?_, hsize, fun i hi => hpost i (List.mem_range.mpr hi)⟩
  simp only [toPicture, hcheck, hon]

end Format

end PixelRecord
