import PixelRecord.Proofs.Image
import PixelRecord.Proofs.Picture

/-!
Imported rasters and their pictures.

The memory order is described twice: importing writes the fields of a record one after
the other, and a picture reads channels from the places in a table. Both agree about
one record, and that is all that has to be checked of them; a raster is as many
records as it has pixels. At 8 bits the picture of a raster is the raster. At 16 bits
it has the high byte of every sample, and 257 times a byte has that byte in both halves.
-/

namespace PixelRecord

namespace Raster

variable {α β : Type}

/-- The raster with all samples changed. -/
def map (g : α → β) (r : Raster α) : Raster β where
  width := r.width
  height := r.height
  samples := r.samples.map g
  complete := r.complete.trans_eq (Array.size_map ..).symm

/-- The pixel in column `x` and row `y`; there is none outside the raster. -/
def pixel? (r : Raster α) (x y : Nat) : Option (Rgba α) :=
  if h : x < r.width ∧ y < r.height then
    some (r.pixel (y * r.width + x) (Picture.pixel_lt h.1 h.2))
  else none

/-- The samples of its pixels. -/
def pixelSamples (r : Raster α) : Array α := r.samples.extract 0 (4 * (r.width * r.height))

/-- Samples of the depth take up no more bytes than can be addressed. -/
def Addressable (r : Raster α) (d : Depth) : Prop :=
  r.samples.size * d.bytes < Layout.addressSpace

instance (r : Raster α) (d : Depth) : Decidable (r.Addressable d) :=
  inferInstanceAs (Decidable (_ < _))

@[simp] theorem map_id (r : Raster α) : r.map id = r := by
  obtain ⟨width, height, samples, complete⟩ := r
  simp [map]

@[simp] theorem map_map {γ : Type} (g : β → γ) (g' : α → β) (r : Raster α) :
    (r.map g').map g = r.map (g ∘ g') := by
  simp [map]

theorem pixel_map (g : α → β) (r : Raster α) {i : Nat} (hi : i < r.width * r.height) :
    (r.map g).pixel i hi = (r.pixel i hi).map g := by
  simp [pixel, map, Rgba.map]

@[simp] theorem size_pixelSamples (r : Raster α) :
    r.pixelSamples.size = 4 * (r.width * r.height) := by
  rw [pixelSamples, Array.size_extract, Nat.min_eq_left r.complete, Nat.sub_zero]

/-- The samples of a pixel follow one another. -/
theorem getElem?_pixelSamples (r : Raster α) {i : Nat} (hi : i < r.width * r.height) {k : Nat}
    (hk : k < 4) : r.pixelSamples[4 * i + k]? = (r.pixel i hi).toList[k]? := by
  have hsize := r.complete
  have hsample (k : Nat) (hk : k < 4) : r.pixelSamples[4 * i + k]? = some r.samples[4 * i + k] := by
    have hlt : 4 * i + k < r.pixelSamples.size := by
      rw [size_pixelSamples]
      omega
    rw [Array.getElem?_eq_getElem hlt]
    simp [pixelSamples]
  obtain rfl | rfl | rfl | rfl : k = 0 ∨ k = 1 ∨ k = 2 ∨ k = 3 := by omega
  all_goals exact hsample _ hk

theorem getElem?_pixels (r : Raster α) {i : Nat} (hi : i < r.width * r.height) :
    r.pixels[i]? = some (r.pixel i hi) := by
  simp [pixels, hi]

end Raster

/-! ### The picture of a raster -/

/-- The picture of a raster: the same pixels, and no bytes but theirs. -/
structure Picture.Reproduces (p : Picture) (r : Raster UInt8) : Prop where
  width : p.width = r.width
  height : p.height = r.height
  data : p.data = r.pixelSamples
  pixels : ∀ x y, p.pixel? x y = r.pixel? x y

/-- The samples of a raster are data of a picture as they are. -/
theorem Picture.reproduces (r : Raster UInt8) :
    (⟨r.width, r.height, r.pixelSamples⟩ : Picture).Reproduces r where
  width := rfl
  height := rfl
  data := rfl
  pixels x y := by
    rw [Raster.pixel?]
    split
    · next h =>
      obtain ⟨hx, hy⟩ := h
      have hi := pixel_lt hx hy
      refine (pixel?_eq_some_iff hx hy).mpr fun k hk => ?_
      exact r.getElem?_pixelSamples hi hk
    · next h => exact if_neg h

namespace Format

/-- Pixels are written as records of the format from which their samples, changed by
`sample`, are read back. -/
structure ReadsBack {α : Type} (f : Format) (record : Rgba α → List UInt8) (sample : α → UInt8) :
    Prop where
  size : ∀ p, (record p).length = f.recordSize
  device : ∀ p, pixelBytes (f.depth.device (f.valuesAt (record p).toArray 0)) =
    (p.map sample).toList

/-- A call for a picture from a buffer of records gives the picture of a raster,
wherever the picture is in a larger one. -/
def Displays (f : Format) (records : Bytes) (r : Raster UInt8) : Prop :=
  ∀ x y : Int, ∃ p, f.toPicture records r.width r.height x y = .ok p ∧ p.Reproduces r

section ReadsBack

variable {α : Type} {f : Format} {record : Rgba α → List UInt8} {sample : α → UInt8}

theorem ReadsBack.depicts (h : f.ReadsBack record sample) (hw : f.Wide) (r : Raster α) :
    f.Depicts (r.pixels.flatMap record).toArray (r.width * r.height)
      (r.map sample).pixelSamples where
  size := (r.map sample).size_pixelSamples
  pixels i hi k hk := by
    rw [(r.map sample).getElem?_pixelSamples hi hk, r.pixel_map sample hi,
      hw.valuesAt_flatMap h.size (r.getElem?_pixels hi), h.device]

/-- **One format.** What is written so is displayed as the raster of changed samples. -/
theorem ReadsBack.displays (h : f.ReadsBack record sample) (hw : f.Wide) {r : Raster α}
    (hspace : r.width * r.height * f.recordSize < Layout.addressSpace) :
    f.Displays (r.pixels.flatMap record).toArray (r.map sample) := by
  intro x y
  have hcount : (r.pixels.flatMap record).toArray.size = r.width * r.height * f.recordSize := by
    rw [List.size_toArray, length_flatMap_blocks h.size, Raster.pixels, List.length_ofFn]
  have hpixels := Nat.le_mul_of_pos_right (r.width * r.height) f.layout.recordSize_pos
  have hcheck : f.checkSource (r.pixels.flatMap record).toArray.size r.width r.height = .ok () :=
    checkSource_eq_ok_iff.mpr ⟨hpixels.trans_lt hspace, hspace, hcount.ge⟩
  obtain ⟨data, hdata, hdepicts⟩ := toPicture_of_check hw x y hcheck
  refine ⟨_, hdata, ?_⟩
  rw [hdepicts.unique (h.depicts hw r)]
  exact Picture.reproduces (r.map sample)

end ReadsBack

end Format

/-! ### The built-in spaces -/

/-- The byte that a 16-bit sample is displayed as. -/
def highByte (v : UInt16) : UInt8 := (v >>> 8).toUInt8

/-- A byte on the 16-bit scale. -/
def widened (v : UInt8) : UInt16 := 257 * v.toUInt16

theorem highByte_widened (v : UInt8) : highByte (widened v) = v := by
  have hlt : 257 * v.toNat < 65536 := by
    have hbyte := v.toNat_lt
    omega
  have hhigh : 257 * v.toNat / 256 = v.toNat := by omega
  apply UInt8.toNat_inj.mp
  simp [highByte, widened, Nat.mod_eq_of_lt hlt, Nat.shiftRight_eq_div_pow, hhigh]

/-- Of two bytes the high one is displayed. -/
theorem Depth.narrow_pair (low high : UInt8) :
    Depth.narrow .sixteen (low.toNat + 256 * high.toNat) = high := by
  have hhigh : (low.toNat + 256 * high.toNat) / 256 = high.toNat := by
    have hlt := low.toNat_lt
    omega
  simp [narrow, hhigh]

/-- The channel table of a built-in space: where red, green, blue and alpha are read. -/
theorem Space.device_builtin (id : SpaceId) (buf : Bytes) :
    pixelBytes (id.depth.device ((builtin id).valuesAt buf 0)) =
      [2, 1, 0, 3].map fun k => id.depth.narrow (id.depth.load buf (k * id.depth.bytes)) := by
  cases id <;> rfl

-- In both cases a channel is read from the bytes of the field of its name.
theorem Bgra8.readsBack :
    (Space.builtin .rgba8).ReadsBack (fun p => (ofRgba p).bytes) id where
  size _ := rfl
  device p := by
    refine (Space.device_builtin .rgba8 _).trans ?_
    show [Depth.narrow .eight (Depth.widen .eight p.r),
      Depth.narrow .eight (Depth.widen .eight p.g),
      Depth.narrow .eight (Depth.widen .eight p.b),
      Depth.narrow .eight (Depth.widen .eight p.a)] = _
    simp only [Depth.narrow_widen]
    rfl

theorem Bgra16.readsBack :
    (Space.builtin .rgba16).ReadsBack (fun p => (ofRgba p).bytes) highByte where
  size _ := rfl
  device p := by
    refine (Space.device_builtin .rgba16 _).trans ?_
    show [Depth.narrow .sixteen (p.r.toUInt8.toNat + 256 * (highByte p.r).toNat),
      Depth.narrow .sixteen (p.g.toUInt8.toNat + 256 * (highByte p.g).toNat),
      Depth.narrow .sixteen (p.b.toUInt8.toNat + 256 * (highByte p.b).toNat),
      Depth.narrow .sixteen (p.a.toUInt8.toNat + 256 * (highByte p.a).toNat)] = _
    simp only [Depth.narrow_pair]
    rfl

namespace Raster

theorem Addressable.records_lt {α : Type} {r : Raster α} (id : SpaceId)
    (h : r.Addressable id.depth) :
    r.width * r.height * (Space.builtin id).recordSize < Layout.addressSpace :=
  calc r.width * r.height * (Space.builtin id).recordSize
      = 4 * (r.width * r.height) * id.depth.bytes := by
        rw [show (Space.builtin id).recordSize = 4 * id.depth.bytes from rfl]
        rw [Nat.mul_left_comm, Nat.mul_assoc 4]
    _ ≤ r.samples.size * id.depth.bytes := Nat.mul_le_mul_right _ r.complete
    _ < Layout.addressSpace := h

theorem displays_bytes8 {r : Raster UInt8} (h : r.Addressable .eight) :
    (Space.builtin .rgba8).Displays r.bytes8 r := by
  have hdisplays := Bgra8.readsBack.displays (Space.wide_builtin .rgba8)
    (Addressable.records_lt .rgba8 h)
  rwa [map_id] at hdisplays

theorem displays_bytes16 {r : Raster UInt16} (h : r.Addressable .sixteen) :
    (Space.builtin .rgba16).Displays r.bytes16 (r.map highByte) :=
  Bgra16.readsBack.displays (Space.wide_builtin .rgba16)
    (Addressable.records_lt .rgba16 h)

/-- **Import and display.** The picture of an imported raster is the raster itself, at 8
bits and, with every sample widened, at 16. Of any 16-bit raster it has the high bytes. -/
theorem imported_displays (r : Raster UInt8) (r' : Raster UInt16) :
    (r.Addressable .eight → (Space.builtin .rgba8).Displays r.bytes8 r) ∧
      (r.Addressable .sixteen → (Space.builtin .rgba16).Displays (r.map widened).bytes16 r) ∧
      (r'.Addressable .sixteen →
        (Space.builtin .rgba16).Displays r'.bytes16 (r'.map highByte)) := by
  refine ⟨displays_bytes8, fun h => ?_, displays_bytes16⟩
  have hwide : (r.map widened).Addressable .sixteen := by
    rwa [Addressable, map, Array.size_map]
  have hdisplays := displays_bytes16 hwide
  rwa [map_map, show highByte ∘ widened = id from funext highByte_widened, map_id] at hdisplays

theorem imported_displays_two_pixels :
    (Space.builtin .rgba8).Displays #[3, 2, 1, 4, 255, 0, 250, 128]
        ⟨2, 1, #[1, 2, 3, 4, 250, 0, 255, 128], by decide⟩ ∧
      (Space.builtin .rgba16).Displays
        #[3, 3, 2, 2, 1, 1, 4, 4, 255, 255, 0, 0, 250, 250, 128, 128]
        ⟨2, 1, #[1, 2, 3, 4, 250, 0, 255, 128], by decide⟩ ∧
      (Space.builtin .rgba16).Displays #[0x56, 0x12, 0x34, 0x00, 0xff, 0x01, 0x00, 0x80]
        ⟨1, 1, #[0x01, 0x00, 0x12, 0x80], by decide⟩ := by
  obtain ⟨h8, hwide, h16⟩ := imported_displays ⟨2, 1, #[1, 2, 3, 4, 250, 0, 255, 128], by decide⟩
    ⟨1, 1, #[0x01ff, 0x0034, 0x1256, 0x8000], by decide⟩
  have hbytes8 : bytes8 ⟨2, 1, #[1, 2, 3, 4, 250, 0, 255, 128], by decide⟩ =
      #[3, 2, 1, 4, 255, 0, 250, 128] := by decide +kernel
  have hbytes16 : bytes16 (map widened ⟨2, 1, #[1, 2, 3, 4, 250, 0, 255, 128], by decide⟩) =
      #[3, 3, 2, 2, 1, 1, 4, 4, 255, 255, 0, 0, 250, 250, 128, 128] := by decide +kernel
  have hbytes : bytes16 ⟨1, 1, #[0x01ff, 0x0034, 0x1256, 0x8000], by decide⟩ =
      #[0x56, 0x12, 0x34, 0x00, 0xff, 0x01, 0x00, 0x80] := by decide +kernel
  have hhigh : map highByte ⟨1, 1, #[0x01ff, 0x0034, 0x1256, 0x8000], by decide⟩ =
      ⟨1, 1, #[0x01, 0x00, 0x12, 0x80], by decide⟩ := by
    simp only [map, mk.injEq, true_and]
    decide +kernel
  rw [hbytes8] at h8
  rw [hbytes16] at hwide
  rw [hbytes, hhigh] at h16
  exact ⟨h8 (by decide), hwide (by decide), h16 (by decide)⟩

end Raster

end PixelRecord
