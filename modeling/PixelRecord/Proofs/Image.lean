import PixelRecord.Image
import PixelRecord.Proofs.Record
import PixelRecord.Space

/-!
Imported images.

The records of an image follow one another in the order of its pixels, and each is
the record that its pixel alone is imported as: nothing of one pixel gets into
another, whatever the model and the depth of the image. The same holds of the
bytes of a mask.
-/

namespace PixelRecord

open Edit

/-! ### Lists of blocks -/

section Blocks

variable {α β : Type} {g : α → List β} {n : Nat}

theorem length_flatMap_blocks (h : ∀ a, (g a).length = n) (xs : List α) :
    (xs.flatMap g).length = xs.length * n := by
  induction xs with
  | nil => simp
  | cons a rest ih =>
      rw [List.flatMap_cons, List.length_append, h, ih, List.length_cons, Nat.succ_mul,
        Nat.add_comm]

/-- Blocks of equal length are found at multiples of the length. -/
theorem getElem?_flatMap_blocks (h : ∀ a, (g a).length = n) (xs : List α) (i : Nat) {k : Nat}
    (hk : k < n) : (xs.flatMap g)[i * n + k]? = xs[i]?.bind fun a => (g a)[k]? := by
  induction xs generalizing i with
  | nil => simp
  | cons a rest ih =>
      rw [List.flatMap_cons]
      cases i with
      | zero =>
        rw [Nat.zero_mul, Nat.zero_add, List.getElem?_append_left (by rwa [h])]
        rfl
      | succ i =>
        rw [Nat.succ_mul, Nat.add_right_comm, List.getElem?_append_right (by rw [h]; omega), h,
          Nat.add_sub_cancel, ih]
        rfl

/-- Records in a row have the values that they have by themselves. -/
theorem Format.Wide.valuesAt_flatMap {f : Format} (hw : f.Wide) {g : α → List UInt8}
    (h : ∀ a, (g a).length = f.recordSize) {xs : List α} {i : Nat} {a : α} (ha : xs[i]? = some a) :
    f.valuesAt (xs.flatMap g).toArray (i * f.recordSize) = f.valuesAt (g a).toArray 0 := by
  apply hw.valuesAt_shift
  intro k hk
  rw [Nat.zero_add, List.getElem?_toArray, List.getElem?_toArray,
    getElem?_flatMap_blocks h xs i hk, ha, Option.bind_some]

end Blocks

namespace Space

theorem wide_builtin (id : SpaceId) : (builtin id).Wide := by
  cases id <;> decide

theorem recordSize_builtin_lt (id : SpaceId) : (builtin id).recordSize < Layout.addressSpace := by
  cases id <;> decide

end Space

namespace Image

variable {m : Image} {d : Depth} {i : Nat}

/-! ### Records -/

/-- The record of a built-in space that the pixel with index `i` is imported as. -/
def record (m : Image) (d : Depth) (i : Nat) : Bytes :=
  match d with
  | .eight => (Bgra8.ofRgba ((m.pixel i).map (sample8 m.depth))).bytes.toArray
  | .sixteen => (Bgra16.ofRgba ((m.pixel i).map (sample16 m.depth))).bytes.toArray

@[simp] theorem size_record (m : Image) (d : Depth) (i : Nat) :
    (m.record d i).size = (Layout.bgra d).recordSize := by
  cases d <;> rfl

/-- A raster has the pixels of the image, in its own type. -/
theorem pixels_raster {α : Type} (m : Image) (sample : Nat → α) :
    (m.raster sample).pixels = (List.range (m.width * m.height)).map fun i =>
      (m.pixel i).map sample := by
  apply List.ext_getElem
  · simp [Raster.pixels, raster]
  · intro i hi _
    have hpixel (k : Nat) (hk : k < 4) : (4 * i + k) / 4 = i := by omega
    simp [Raster.pixels, raster, Raster.pixel, hpixel, Rgba.component, Rgba.map]

theorem toList_records (m : Image) (d : Depth) :
    (m.records d).toList = (List.range (m.width * m.height)).flatMap fun i =>
      (m.record d i).toList := by
  cases d <;> simp only [records, raster8, raster16, Raster.bytes8, Raster.bytes16, pixels_raster,
    List.flatMap_map, record]

/-- Row after row, without gaps. -/
theorem size_records (m : Image) (id : SpaceId) :
    (m.records id.depth).size = m.height * (m.width * (Space.builtin id).recordSize) := by
  rw [← Array.length_toList, toList_records, length_flatMap_blocks (m.size_record id.depth),
    List.length_range, Nat.mul_comm m.width, Nat.mul_assoc]
  rfl

/-- The values of an imported image are those of its pixels. -/
theorem valuesAt_records (id : SpaceId) (hi : i < m.width * m.height) :
    (Space.builtin id).valuesAt (m.records id.depth) (i * (Space.builtin id).recordSize) =
      (Space.builtin id).valuesAt (m.record id.depth i) 0 := by
  have hrecords := congrArg List.toArray (m.toList_records id.depth)
  rw [Array.toArray_toList] at hrecords
  rw [hrecords]
  exact (Space.wide_builtin id).valuesAt_flatMap (m.size_record id.depth) (List.getElem?_range hi)

/-! ### Masks -/

/-- Every pixel has equal colors, as those of a gray image have. -/
def IsGray (m : Image) : Prop :=
  ∀ i < m.width * m.height, (m.pixel i).r = (m.pixel i).g ∧ (m.pixel i).g = (m.pixel i).b

instance (m : Image) : Decidable m.IsGray := inferInstanceAs (Decidable (∀ i < _, _ ∧ _))

theorem isGray_of_model (h : m.model = .gray ∨ m.model = .grayAlpha) : m.IsGray := by
  intro i _
  rcases h with h | h <;> simp [pixel, h]

/-- The coverage that a pixel of a gray image stands for. -/
def coverage (m : Image) (i : Nat) : UInt8 := sample8 m.depth (m.pixel i).r

@[simp] theorem size_luminance8 (m : Image) : m.luminance8.size = m.width * m.height :=
  Array.size_ofFn

theorem luminance8_of_isGray (h : m.IsGray) (hi : i < m.width * m.height) :
    m.luminance8.getD i 0 = m.coverage i := by
  obtain ⟨hred, hgreen⟩ := h i hi
  simp [luminance8, Array.getD_eq_getD_getElem?, hi, coverage, hred, ← hgreen, luminance_self]

end Image

end PixelRecord
