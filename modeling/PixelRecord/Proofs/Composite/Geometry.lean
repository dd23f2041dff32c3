import PixelRecord.Proofs.Composite.Rectangle
import PixelRecord.Proofs.Composite.Strict
import PixelRecord.Strict

/-!
Which rectangles fit.

The geometry check looks at one number for each rectangle, the end of its last row. That
is enough: a rectangle passes exactly if its rows do not overlap and every single byte of
them lies in the buffer. So what is refused could not have been composited, and what is
accepted can be composited on slices, row by row, without one slice that goes past its
buffer and without an offset that is too large for 64 bits.
-/

namespace PixelRecord

open Edit FixedPoint.Strict

/-! ### Bytes of a rectangle -/

/-- Rows of `rowBytes` bytes, `stride` bytes apart, do not overlap, and each of their bytes
lies in a buffer of `size` bytes, at a place that 64 bits hold. -/
structure RowsLie (size stride rows rowBytes : Nat) : Prop where
  apart : rowBytes ≤ stride
  inside : ∀ r < rows, ∀ j < rowBytes,
    r * stride + j < size ∧ r * stride + j < Layout.addressSpace

section Rectangle

variable {size stride rows rowBytes : Nat} {what : String}

/-- **One rectangle.** The last byte of the last row stands for all others. -/
theorem checkRectangle_eq_ok_iff_rowsLie (hrows : 0 < rows) (hbytes : 0 < rowBytes)
    (hsize : size < Layout.addressSpace) :
    checkRectangle size stride rows rowBytes what = .ok () ↔
      RowsLie size stride rows rowBytes := by
  rw [checkRectangle_eq_ok_iff]
  constructor
  · rintro ⟨hstride, hspace, hlast⟩
    refine ⟨hstride, fun r hr j hj => ?_⟩
    have hrow : r * stride ≤ (rows - 1) * stride := Nat.mul_le_mul_right stride (by omega)
    omega
  · rintro ⟨hstride, hinside⟩
    have hlast := hinside (rows - 1) (by omega) (rowBytes - 1) (by omega)
    omega

theorem kind_of_checkRectangle {e : Error}
    (h : checkRectangle size stride rows rowBytes what = .error e) : e.kind = .buffer := by
  rw [checkRectangle] at h
  dsimp only at h
  split at h
  · cases h
    rfl
  · split at h
    · cases h
      rfl
    · split at h
      · cases h
        rfl
      · cases h

/-- Every row of a rectangle that passes can be cut out. -/
theorem row_of_checkRectangle (h : checkRectangle size stride rows rowBytes what = .ok ()) {r : Nat}
    (hr : r < rows) :
    fitNat 64 (r * stride) = .ok (r * stride) ∧ r * stride + rowBytes ≤ size := by
  obtain ⟨hstride, hspace, hlast⟩ := checkRectangle_eq_ok_iff.mp h
  have hrow : r * stride ≤ (rows - 1) * stride := Nat.mul_le_mul_right stride (by omega)
  refine ⟨if_pos ?_, by omega⟩
  simp only [Layout.addressSpace] at hspace
  omega

end Rectangle

/-! ### Rows as slices -/

section Rows

variable {stride r rows count : Nat} {name : String}

theorem rowSlice_eq_ok {bytes : Bytes}
    (h : checkRectangle bytes.size stride rows count name = .ok ()) (hr : r < rows) :
    rowSlice bytes stride r count = .ok (bytes.extract (r * stride) (r * stride + count)) := by
  obtain ⟨hoffset, hfit⟩ := row_of_checkRectangle h hr
  rw [rowSlice, hoffset, ok_bind, if_pos hfit]
  rfl

theorem Mask.rowSlice?_eq_ok {mask : Option Mask}
    (h : ∀ m, mask = some m → checkRectangle m.bytes.size m.stride rows count name = .ok ())
    (hr : r < rows) :
    Mask.rowSlice? mask r count =
      .ok (mask.map fun m => m.bytes.extract (r * m.stride) (r * m.stride + count)) := by
  cases mask with
  | none => rfl
  | some m =>
      rw [rowSlice?, rowSlice_eq_ok (h m rfl) hr]
      rfl

end Rows

namespace Format

variable {f : Format} {size stride : Nat} {src : Surface} {mask : Option Mask} {what : Composition}

/-- What a call makes of the records of a row, it makes of them in the buffer. -/
theorem onRow_turnsEach {ι : Type} {e : Edit Unit} {r rows count : Nat} {steps : List ι}
    {place : ι → Nat} {gs : ι → PixelValues → PixelValues} {name : String} (hw : f.Wide)
    (h : f.TurnsEach e count steps place gs)
    (hcheck : checkRectangle size stride rows count name = .ok ()) (hr : r < rows)
    (hfit : ∀ i ∈ steps, place i + f.recordSize ≤ count) :
    f.TurnsEach (Edit.onRow stride r count e) size steps (fun i => r * stride + place i) gs := by
  obtain ⟨hoffset, hrow⟩ := row_of_checkRectangle hcheck hr
  have hcount : r * stride + count - r * stride = count := Nat.add_sub_cancel_left ..
  refine Acts.of_ok hoffset (Acts.of_size ?_)
  rw [if_pos hrow]
  refine TurnsEach.within hw ?_ (Nat.le_add_right ..) hrow ?_ <;> rwa [hcount]

/-- A row by itself is a composition of one row. -/
theorem compositeRow_accepts {src : Bytes} {mask : Option Bytes}
    (hsrc : src.size = what.cols * f.recordSize) (hmask : ∀ m, mask = some m → m.size = what.cols) :
    f.Accepts (what.cols * f.recordSize) (what.cols * f.recordSize)
      ⟨src, what.cols * f.recordSize⟩ (mask.map fun m => ⟨m, what.cols⟩)
      { what with rows := 1 } := by
  refine ⟨⟨le_rfl, ?_⟩, ⟨le_rfl, ?_⟩, fun m hm => ?_⟩
  · simp
  · simp [hsrc]
  · obtain ⟨bytes, hbytes, rfl⟩ := Option.map_eq_some_iff.mp hm
    exact ⟨by simp, by simp [hmask bytes hbytes]⟩

/-- A record has the same source record and the same mask byte in its row as in the
rectangle. -/
theorem cellFormula_row (hw : f.Wide) {r c : Nat} (hc : c < what.cols) :
    f.cellFormula
        ⟨src.bytes.extract (r * src.stride) (r * src.stride + what.cols * f.recordSize),
          what.cols * f.recordSize⟩
        ((mask.map fun m => m.bytes.extract (r * m.stride) (r * m.stride + what.cols)).map
          fun m => ⟨m, what.cols⟩)
        { what with rows := 1 } 0 c =
      f.cellFormula src mask what r c := by
  have hcell : c * f.recordSize + f.recordSize ≤ what.cols * f.recordSize := cell_le_row hc
  have hvalues : f.valuesAt
      (src.bytes.extract (r * src.stride) (r * src.stride + what.cols * f.recordSize))
      (0 * (what.cols * f.recordSize) + c * f.recordSize) =
        f.valuesAt src.bytes (r * src.stride + c * f.recordSize) := by
    apply hw.valuesAt_shift
    intro t ht
    rw [getElem?_extract_of_lt (by omega), Nat.zero_mul, Nat.zero_add, Nat.add_assoc]
  have hmask : ((mask.map fun m => m.bytes.extract (r * m.stride) (r * m.stride + what.cols)).map
      fun m => Mask.byteAt ⟨m, what.cols⟩ 0 c) = mask.map fun m => m.byteAt r c := by
    rw [Option.map_map]
    refine Option.map_congr fun m _ => ?_
    simp only [Function.comp, Mask.byteAt, Array.getD_eq_getD_getElem?]
    rw [getElem?_extract_of_lt (by omega), Nat.zero_mul, Nat.zero_add]
  funext v
  rw [cellFormula, cellFormula, Option.map_map]
  show Formula.composited _ _ (Formula.cover _ (Option.map _ (Option.map _ mask)) _) _ v = _
  rw [← hmask, ← hvalues]
  rfl

/-- What compositing makes of a row that was cut out. -/
theorem compositeRow_slices_turnsEach (hw : f.Wide)
    (h : f.checkComposition size stride src mask what = .ok ()) {r : Nat} (hr : r < what.rows) :
    f.TurnsEach
      (f.compositeRow
        (src.bytes.extract (r * src.stride) (r * src.stride + what.cols * f.recordSize))
        (mask.map fun m => m.bytes.extract (r * m.stride) (r * m.stride + what.cols)) what)
      (what.cols * f.recordSize) (List.range what.cols) (fun c => c * f.recordSize)
      (f.cellFormula src mask what r) := by
  obtain ⟨-, -, hsrc, hmask⟩ := checkComposition_eq_ok_iff.mp h
  have hsrcRow := (row_of_checkRectangle hsrc hr).2
  have hsrcSize :
      (src.bytes.extract (r * src.stride) (r * src.stride + what.cols * f.recordSize)).size =
        what.cols * f.recordSize := by
    rw [Array.size_extract]
    omega
  have hmaskSize (bytes : Bytes)
      (hbytes : (mask.map fun m => m.bytes.extract (r * m.stride) (r * m.stride + what.cols)) =
        some bytes) : bytes.size = what.cols := by
    obtain ⟨m, hm, rfl⟩ := Option.map_eq_some_iff.mp hbytes
    have hmaskRow := (row_of_checkRectangle (hmask m hm) hr).2
    rw [Array.size_extract]
    omega
  have haccepts := compositeRow_accepts (f := f) hsrcSize hmaskSize
  refine (compositeRow_turnsEach hw haccepts Nat.one_pos).congr (fun c _ => ?_) fun c hc => ?_
  · rw [Nat.zero_mul, Nat.zero_add]
  · exact (cellFormula_row hw (List.mem_range.mp hc)).symm

/-- **Slices.** Compositing row by row on slices is compositing: no slice goes past its
buffer, and no row starts at a byte whose number 64 bits do not hold. -/
theorem compositeBySlices_obeys (hw : f.Wide) (size stride : Nat) (src : Surface)
    (mask : Option Mask) (what : Composition) :
    f.Obeys (f.compositeBySlices stride src mask what) size
      (f.checkComposite size stride src mask what) what.cells
      (fun (r, c) => r * stride + c * f.recordSize)
      (fun (r, c) => f.cellFormula src mask what r c) := by
  unfold compositeBySlices onRows checkComposite
  split
  · next hempty =>
    apply acts_pure (f.looksAt_valuesAt_each _ _ _)
    intro buf (r, c) hmem
    have hcell := Composition.mem_cells.mp hmem
    omega
  · refine obeys_of_check (fun n => f.checkComposition n stride src mask what) fun h => ?_
    obtain ⟨-, hdst, hsrc, hmask⟩ := checkComposition_eq_ok_iff.mp h
    refine rows_turnsEach hw (accepts_of_check h).dst fun r hr => ?_
    refine Acts.of_ok (rowSlice_eq_ok hsrc hr) (Acts.of_ok (Mask.rowSlice?_eq_ok hmask hr) ?_)
    refine onRow_turnsEach hw (compositeRow_slices_turnsEach hw h hr) hdst hr fun c hc => ?_
    exact cell_le_row (List.mem_range.mp hc)

theorem compositeBySlices_on (hw : f.Wide) (stride : Nat) (src : Surface) (mask : Option Mask)
    (what : Composition) (buf : Bytes) :
    (f.compositeBySlices stride src mask what).on buf =
      (f.composite stride src mask what).on buf :=
  (compositeBySlices_obeys hw buf.size stride src mask what).on_eq hw
    (composite_obeys hw buf.size stride src mask what) cells_le_of_checkComposite

/-! ### In strict arithmetic -/

namespace Strict

theorem cover_eq_ok (d : Depth) (coverage : Option UInt8) (opacity : UInt8) :
    cover d coverage opacity = .ok (Format.cover d coverage opacity) := by
  have hopacity := onScale_eq_ok (d.widen_le_max opacity)
  cases coverage with
  | none => exact hopacity
  | some m =>
    rw [cover, Format.cover]
    split
    · exact hopacity
    · exact mulDiv_eq_ok d.max_lt d.max_pos (d.widen_le_max m) (d.widen_le_max opacity)

theorem compositeAt_eq (r c : Nat) :
    compositeAt f stride src mask what r c = f.compositeAt stride src mask what r c := by
  rw [compositeAt, Format.compositeAt]
  refine answers_any.bind_congr fun coverage _ => ?_
  rw [cover_eq_ok, liftM_ok_bind]
  exact compositeRecord_eq what.op (cover_le coverage what.opacity)

/-- In strict arithmetic the rows are composited as ever, whatever is in the buffers. -/
theorem composite_eq :
    composite f stride src mask what = f.compositeBySlices stride src mask what := by
  have hrow (srcRow : Bytes) (maskRow : Option Bytes) :
      compositeRow f srcRow maskRow what = f.compositeRow srcRow maskRow what :=
    forM_congr fun c _ => compositeAt_eq 0 c
  simp only [composite, compositeBySlices, hrow]

end Strict

/-! ### The geometries that are accepted -/

/-- Every byte of a composition has a place: the bytes of a row can be counted, and the
rows of destination, source and mask lie in their buffers. -/
structure HasRoom (f : Format) (size stride : Nat) (src : Surface) (mask : Option Mask)
    (what : Composition) : Prop where
  row : what.cols * f.recordSize < Layout.addressSpace
  dst : RowsLie size stride what.rows (what.cols * f.recordSize)
  src : RowsLie src.bytes.size src.stride what.rows (what.cols * f.recordSize)
  mask : ∀ m, mask = some m → RowsLie m.bytes.size m.stride what.rows what.cols

theorem checkComposition_eq_ok_iff_hasRoom (hrows : 0 < what.rows) (hcols : 0 < what.cols)
    (hsize : size < Layout.addressSpace) (hsrc : src.bytes.size < Layout.addressSpace)
    (hmask : ∀ m, mask = some m → m.bytes.size < Layout.addressSpace) :
    f.checkComposition size stride src mask what = .ok () ↔
      f.HasRoom size stride src mask what := by
  have hbytes : 0 < what.cols * f.recordSize := Nat.mul_pos hcols f.layout.recordSize_pos
  rw [checkComposition_eq_ok_iff, checkRectangle_eq_ok_iff_rowsLie hrows hbytes hsize,
    checkRectangle_eq_ok_iff_rowsLie hrows hbytes hsrc]
  constructor
  · rintro ⟨hrow, hdst, hlies, hmasks⟩
    refine ⟨hrow, hdst, hlies, fun m hm => ?_⟩
    exact (checkRectangle_eq_ok_iff_rowsLie hrows hcols (hmask m hm)).mp (hmasks m hm)
  · rintro ⟨hrow, hdst, hlies, hmasks⟩
    refine ⟨hrow, hdst, hlies, fun m hm => ?_⟩
    exact (checkRectangle_eq_ok_iff_rowsLie hrows hcols (hmask m hm)).mpr (hmasks m hm)

theorem checkComposite_eq_ok_iff_hasRoom (hsize : size < Layout.addressSpace)
    (hsrc : src.bytes.size < Layout.addressSpace)
    (hmask : ∀ m, mask = some m → m.bytes.size < Layout.addressSpace) :
    f.checkComposite size stride src mask what = .ok () ↔
      what.rows = 0 ∨ what.cols = 0 ∨ f.HasRoom size stride src mask what := by
  rw [checkComposite, ← or_assoc]
  split
  · next hempty => exact ⟨fun _ => .inl hempty, fun _ => rfl⟩
  · next hfull =>
    rw [checkComposition_eq_ok_iff_hasRoom (by omega) (by omega) hsize hsrc hmask]
    exact (or_iff_right hfull).symm

/-- Whatever is wrong with a geometry, it is wrong with a buffer. -/
theorem kind_of_checkComposite {e : Error}
    (h : f.checkComposite size stride src mask what = .error e) : e.kind = .buffer := by
  rw [checkComposite] at h
  split at h
  · cases h
  · unfold checkComposition at h
    dsimp only at h
    split at h
    · cases h
      rfl
    · rcases bind_eq_error h with hdst | ⟨⟨⟩, -, h⟩
      · exact kind_of_checkRectangle hdst
      · rcases bind_eq_error h with hsrc | ⟨⟨⟩, -, h⟩
        · exact kind_of_checkRectangle hsrc
        · cases mask with
          | none => cases h
          | some m => exact kind_of_checkRectangle h

/-- **Geometry.** A composition is accepted exactly if it is empty or every byte of it has a
place in its buffer. In all other cases it is refused for one of its buffers, and nothing is
written. It is the same call as the one that cuts out every row, so one that is accepted
takes no slice that is out of range and works out no offset that is too large. -/
theorem composite_accepts_exactly (hw : f.Wide) {buf : Bytes}
    (hbuf : buf.size < Layout.addressSpace) (hsrc : src.bytes.size < Layout.addressSpace)
    (hmask : ∀ m, mask = some m → m.bytes.size < Layout.addressSpace) :
    let outcome := (f.composite stride src mask what).on buf
    (outcome.1 = .ok () ↔
      what.rows = 0 ∨ what.cols = 0 ∨ f.HasRoom buf.size stride src mask what) ∧
    (outcome.1 = .ok () ∨ ∃ e, e.kind = .buffer ∧ outcome = (.error (.refused e), buf)) ∧
    (f.compositeBySlices stride src mask what).on buf = outcome := by
  intro outcome
  have hobeys := composite_obeys hw buf.size stride src mask what
  have hsame : (f.compositeBySlices stride src mask what).on buf = outcome :=
    compositeBySlices_on hw stride src mask what buf
  rw [← checkComposite_eq_ok_iff_hasRoom hbuf hsrc hmask]
  rcases hobeys.outcome with ⟨hcheck, out, hon⟩ | ⟨e, hcheck, hon⟩
  · have hok : outcome.1 = .ok () := congrArg Prod.fst hon
    exact ⟨iff_of_true hok hcheck, .inl hok, hsame⟩
  · have hrefused : outcome.1 ≠ .ok () := by simp [outcome, hon]
    refine ⟨iff_of_false hrefused (by simp [hcheck]), .inr ⟨e, ?_, hon⟩, hsame⟩
    exact kind_of_checkComposite hcheck

/-- The last row need not be followed by the rest of its stride, but it must be whole. -/
theorem composite_accepts_exactly_short_last_row :
    Wide ⟨.eight, .bgra .eight⟩ ∧
      HasRoom ⟨.eight, .bgra .eight⟩ 9 5 ⟨#[10, 20, 30, 255, 40, 50, 60, 128], 4⟩
        (some ⟨#[255, 128], 1⟩) ⟨2, 1, 200, .multiply⟩ ∧
      ¬ HasRoom ⟨.eight, .bgra .eight⟩ 9 5 ⟨#[10, 20, 30, 255, 40, 50, 60], 4⟩ none
        ⟨2, 1, 200, .multiply⟩ := by
  have hwhole := @composite_accepts_exactly ⟨.eight, .bgra .eight⟩ 5
    ⟨#[10, 20, 30, 255, 40, 50, 60, 128], 4⟩ (some ⟨#[255, 128], 1⟩) ⟨2, 1, 200, .multiply⟩
    (by decide) #[200, 100, 50, 60, 7, 250, 200, 150, 255] (by decide) (by decide)
    (by rintro m ⟨⟩; decide)
  have hcut := @composite_accepts_exactly ⟨.eight, .bgra .eight⟩ 5
    ⟨#[10, 20, 30, 255, 40, 50, 60], 4⟩ none ⟨2, 1, 200, .multiply⟩
    (by decide) #[200, 100, 50, 60, 7, 250, 200, 150, 255] (by decide) (by decide)
    (by rintro m ⟨⟩)
  refine ⟨by decide, ?_, fun hroom => ?_⟩
  · obtain hnone | hnone | hroom := hwhole.1.mp (by decide)
    · cases hnone
    · cases hnone
    · exact hroom
  · exact absurd (hcut.1.mpr (.inr (.inr hroom))) (by decide)

end Format

end PixelRecord
