import PixelRecord.Proofs.Composite.Rectangle

/-!
A rectangle composited piece by piece.

A *tile* is a rectangle of records within the rectangle. Each is composited by a
call of its own, which is handed destination, source and mask from the first
record of the tile on and knows nothing of what lies before. That the geometry
check passes on these shorter buffers is arithmetic; that the pieces make up the
whole is not a matter of their order, because a record belongs to one tile only
and its formula, counted from the tile, is the one counted from the rectangle.
-/

namespace PixelRecord

open Edit

/-- A rectangle of records in a larger one, from row `row` and column `col` on. -/
structure Tile where
  row : Nat
  col : Nat
  rows : Nat
  cols : Nat
  deriving DecidableEq, Repr

namespace Tile

/-- The record in row `r` and column `c` belongs to the tile. -/
def Has (t : Tile) (r c : Nat) : Prop :=
  (t.row ≤ r ∧ r < t.row + t.rows) ∧ t.col ≤ c ∧ c < t.col + t.cols

instance (t : Tile) (r c : Nat) : Decidable (t.Has r c) :=
  inferInstanceAs (Decidable ((_ ∧ _) ∧ _ ∧ _))

/-- The first byte of the tile, where records lie `unit` bytes apart in rows that
lie `stride` bytes apart. -/
def start (t : Tile) (stride unit : Nat) : Nat := t.row * stride + t.col * unit

/-- The source from the first record of the tile on. -/
def surface (t : Tile) (unit : Nat) (src : Surface) : Surface :=
  ⟨src.bytes.extract (t.start src.stride unit) src.bytes.size, src.stride⟩

/-- The mask from the first record of the tile on. -/
def mask (t : Tile) (m : Mask) : Mask :=
  ⟨m.bytes.extract (t.start m.stride 1) m.bytes.size, m.stride⟩

def composition (t : Tile) (what : Composition) : Composition :=
  { what with rows := t.rows, cols := t.cols }

/-- Row and column of every record of the tile, counted in the whole rectangle. -/
def cells (t : Tile) : List (Nat × Nat) :=
  (List.range t.rows ×ˢ List.range t.cols).map fun (r, c) => (t.row + r, t.col + c)

theorem mem_cells {t : Tile} {r c : Nat} : (r, c) ∈ t.cells ↔ t.Has r c := by
  rw [cells, List.mem_map]
  constructor
  · rintro ⟨⟨i, j⟩, hmem, ⟨⟩⟩
    obtain ⟨hi, hj⟩ := List.pair_mem_product.mp hmem
    rw [List.mem_range] at hi hj
    exact ⟨by omega, by omega⟩
  · rintro ⟨hr, hc⟩
    refine ⟨(r - t.row, c - t.col), List.pair_mem_product.mpr ⟨?_, ?_⟩, ?_⟩
    · exact List.mem_range.mpr (by omega)
    · exact List.mem_range.mpr (by omega)
    · show (t.row + (r - t.row), t.col + (c - t.col)) = (r, c)
      rw [Nat.add_sub_cancel' hr.1, Nat.add_sub_cancel' hc.1]

/-- The tile has a record, and none outside the rectangle. -/
@[mk_iff]
structure Lies (t : Tile) (rows cols : Nat) : Prop where
  rows_pos : 0 < t.rows
  cols_pos : 0 < t.cols
  rows_le : t.row + t.rows ≤ rows
  cols_le : t.col + t.cols ≤ cols

instance (t : Tile) (rows cols : Nat) : Decidable (t.Lies rows cols) :=
  decidable_of_iff' _ (lies_iff t rows cols)

/-- No record belongs to both tiles. -/
def Apart (t t' : Tile) : Prop := ∀ r c, t.Has r c → ¬ t'.Has r c

theorem apart_iff {t t' : Tile} : t.Apart t' ↔ ∀ i ∈ t.cells, i ∉ t'.cells := by
  constructor
  · intro h ⟨r, c⟩ hi hi'
    exact h r c (mem_cells.mp hi) (mem_cells.mp hi')
  · intro h r c hhas hhas'
    exact h (r, c) (mem_cells.mpr hhas) (mem_cells.mpr hhas')

instance (t t' : Tile) : Decidable (t.Apart t') := decidable_of_iff' _ apart_iff

end Tile

/-- Every record of the rectangle belongs to one of the tiles and to no other. The
list has them in any order. -/
@[mk_iff]
structure Tiling (rows cols : Nat) (tiles : List Tile) : Prop where
  lies : ∀ t ∈ tiles, t.Lies rows cols
  cover : ∀ r < rows, ∀ c < cols, ∃ t ∈ tiles, t.Has r c
  apart : tiles.Pairwise Tile.Apart

instance (rows cols : Nat) (tiles : List Tile) : Decidable (Tiling rows cols tiles) :=
  decidable_of_iff' _ (tiling_iff rows cols tiles)

/-- Composites the part of a composition that lies in a tile, as a call on what
follows the first record of the tile. -/
def Format.compositeTile (f : Format) (stride : Nat) (src : Surface) (mask : Option Mask)
    (what : Composition) (t : Tile) : Edit Unit :=
  Edit.beyond (t.start stride f.recordSize)
    (f.composite stride (t.surface f.recordSize src) (mask.map t.mask) (t.composition what))

section Geometry

variable {t : Tile} {rows cols size stride unit : Nat}

theorem Tile.Lies.of_has (h : t.Lies rows cols) {r c : Nat} (hrc : t.Has r c) :
    r < rows ∧ c < cols := by
  obtain ⟨hr, hc⟩ := hrc
  have hrows := h.rows_le
  have hcols := h.cols_le
  omega

/-- The last row of a tile ends where the last row of the rectangle does, or
before. -/
theorem Tile.Lies.last_le (h : t.Lies rows cols) (stride unit : Nat) :
    t.start stride unit + ((t.rows - 1) * stride + t.cols * unit) ≤
      (rows - 1) * stride + cols * unit := by
  have hrow : (t.row + (t.rows - 1)) * stride ≤ (rows - 1) * stride := by
    have hpos := h.rows_pos
    have hle := h.rows_le
    exact Nat.mul_le_mul_right stride (by omega)
  have hcol : (t.col + t.cols) * unit ≤ cols * unit := Nat.mul_le_mul_right unit h.cols_le
  rw [Nat.add_mul] at hrow hcol
  rw [Tile.start]
  omega

/-- A rectangle that fits has tiles that fit into what follows their first record. -/
theorem Tile.Lies.checkRectangle (h : t.Lies rows cols) {what : String}
    (hcheck : checkRectangle size stride rows (cols * unit) what = .ok ()) :
    t.start stride unit ≤ size ∧
      PixelRecord.checkRectangle (size - t.start stride unit) stride t.rows (t.cols * unit) what =
        .ok () := by
  obtain ⟨hrow, hspace, hsize⟩ := checkRectangle_eq_ok_iff.mp hcheck
  have hlast := h.last_le stride unit
  have hcols : t.cols * unit ≤ cols * unit :=
    Nat.mul_le_mul_right unit ((Nat.le_add_left ..).trans h.cols_le)
  refine ⟨by omega, checkRectangle_eq_ok_iff.mpr ⟨by omega, by omega, by omega⟩⟩

/-- A cell of a tile, counted from there, is the same cell. -/
theorem Tile.start_add_cell (t : Tile) (stride unit r c : Nat) :
    t.start stride unit + (r * stride + c * unit) = (t.row + r) * stride + (t.col + c) * unit := by
  rw [start, Nat.add_mul, Nat.add_mul]
  omega

theorem Tile.byteAt_mask (t : Tile) (m : Mask) (r c : Nat) :
    (t.mask m).byteAt r c = m.byteAt (t.row + r) (t.col + c) := by
  have hcell := t.start_add_cell m.stride 1 r c
  simp only [Nat.mul_one] at hcell
  simp only [Mask.byteAt, mask, Array.getD_eq_getD_getElem?, getElem?_extract_size, hcell]

end Geometry

namespace Format

variable {f : Format} {size stride : Nat} {src : Surface} {mask : Option Mask} {what : Composition}
  {t : Tile} {tiles : List Tile}

theorem checkComposition_of_lies (ht : t.Lies what.rows what.cols)
    (h : f.checkComposite size stride src mask what = .ok ()) :
    t.start stride f.recordSize ≤ size ∧ t.start src.stride f.recordSize ≤ src.bytes.size ∧
      (∀ m, mask = some m → t.start m.stride 1 ≤ m.bytes.size) ∧
      f.checkComposite (size - t.start stride f.recordSize) stride (t.surface f.recordSize src)
        (mask.map t.mask) (t.composition what) = .ok () := by
  have hrows : 0 < what.rows := ht.rows_pos.trans_le ((Nat.le_add_left ..).trans ht.rows_le)
  have hcols : 0 < what.cols := ht.cols_pos.trans_le ((Nat.le_add_left ..).trans ht.cols_le)
  rw [checkComposite, if_neg (by omega), checkComposition_eq_ok_iff] at h
  obtain ⟨hspace, hdst, hsrc, hmask⟩ := h
  have hdst' := ht.checkRectangle hdst
  have hsrc' := ht.checkRectangle hsrc
  have hmask' (m : Mask) (hm : mask = some m) := ht.checkRectangle
    ((Nat.mul_one what.cols).symm ▸ hmask m hm)
  have hle : t.cols * f.recordSize ≤ what.cols * f.recordSize :=
    Nat.mul_le_mul_right _ ((Nat.le_add_left ..).trans ht.cols_le)
  refine ⟨hdst'.1, hsrc'.1, fun m hm => (hmask' m hm).1, ?_⟩
  rw [checkComposite]
  split
  · rfl
  · refine checkComposition_eq_ok_iff.mpr ⟨hle.trans_lt hspace, hdst'.2, ?_, fun m' hm' => ?_⟩
    · rw [Tile.surface, Array.size_extract, Nat.min_self]
      exact hsrc'.2
    · obtain ⟨m, hm, rfl⟩ := Option.map_eq_some_iff.mp hm'
      rw [Tile.mask, Array.size_extract, Nat.min_self]
      have hfit := (hmask' m hm).2
      rwa [Nat.mul_one] at hfit

/-- A record is under the same source record and the same mask byte, whether it is
counted from the tile or from the rectangle. -/
theorem cellFormula_tile (hw : f.Wide) (t : Tile) (r c : Nat) :
    f.cellFormula (t.surface f.recordSize src) (mask.map t.mask) (t.composition what) r c =
      f.cellFormula src mask what (t.row + r) (t.col + c) := by
  have hvalues : f.valuesAt (t.surface f.recordSize src).bytes
      (r * src.stride + c * f.recordSize) =
        f.valuesAt src.bytes ((t.row + r) * src.stride + (t.col + c) * f.recordSize) := by
    apply hw.valuesAt_shift
    intro i _
    rw [Tile.surface, getElem?_extract_size, ← t.start_add_cell, Nat.add_assoc (t.start _ _)]
  have hmask : ((mask.map t.mask).map fun m => m.byteAt r c) =
      mask.map fun m => m.byteAt (t.row + r) (t.col + c) := by
    rw [Option.map_map]
    exact congrFun (congrArg _ (funext fun m => t.byteAt_mask m r c)) mask
  funext v
  rw [cellFormula, cellFormula, hmask]
  show Formula.composited _ _ _ (f.valuesAt _ (r * src.stride + _)) v = _
  rw [hvalues]
  rfl

/-- **One tile.** Compositing a tile by itself makes of its records what
compositing the rectangle makes of them, and touches no other. -/
theorem compositeTile_turnsEach (hw : f.Wide) (ht : t.Lies what.rows what.cols)
    (h : f.checkComposite size stride src mask what = .ok ()) :
    f.TurnsEach (f.compositeTile stride src mask what t) size t.cells
      (fun (r, c) => r * stride + c * f.recordSize)
      (fun (r, c) => f.cellFormula src mask what r c) := by
  obtain ⟨hstart, _, _, hcheck⟩ := checkComposition_of_lies ht h
  have hobeys := composite_obeys hw (size - t.start stride f.recordSize) stride
    (t.surface f.recordSize src) (mask.map t.mask) (t.composition what)
  rw [hcheck] at hobeys
  have hfit := cells_le_of_checkComposite hcheck
  refine (TurnsEach.beyond hw hobeys hstart hfit).rename ?_ ?_
  · intro ⟨r, c⟩ _
    exact (t.start_add_cell stride f.recordSize r c).symm
  · intro ⟨r, c⟩ _
    exact (cellFormula_tile hw t r c).symm

/-- Tiles one after the other, in any order, come to the rectangle. -/
theorem composite_tiles_turnsEach (hw : f.Wide) (ht : Tiling what.rows what.cols tiles)
    (h : f.checkComposite size stride src mask what = .ok ()) :
    f.TurnsEach (tiles.forM (f.compositeTile stride src mask what)) size what.cells
      (fun (r, c) => r * stride + c * f.recordSize)
      (fun (r, c) => f.cellFormula src mask what r c) := by
  have hsep : tiles.Pairwise fun t t' => ∀ j,
      (∃ i ∈ t.cells, f.Keeps (i.1 * stride + i.2 * f.recordSize) j) →
        ¬ ∃ i ∈ t'.cells, f.Keeps (i.1 * stride + i.2 * f.recordSize) j := by
    refine ht.apart.imp_of_mem ?_
    rintro t t' hmem hmem' hapart j ⟨⟨r, c⟩, hi, hj⟩ ⟨⟨r', c'⟩, hi', hj'⟩
    have hhas := Tile.mem_cells.mp hi
    have hhas' := Tile.mem_cells.mp hi'
    obtain ⟨hr, hc⟩ := (ht.lies t hmem).of_has hhas
    obtain ⟨hr', hc'⟩ := (ht.lies t' hmem').of_has hhas'
    have hne : (r, c) ≠ (r', c') := by
      rintro ⟨⟩
      exact hapart r c hhas hhas'
    rw [checkComposite, if_neg (by omega)] at h
    have hcells := (accepts_of_check h).dst.cell_apart hc hc' hne
    have hrecord := hw.mem_record hj
    have hrecord' := hw.mem_record hj'
    dsimp only at hrecord hrecord'
    omega
  have htiles := Acts.forM hsep fun t hmem => compositeTile_turnsEach hw (ht.lies t hmem) h
  refine htiles.mono (f.looksAt_valuesAt_each _ _ _) ?_ ?_
  · rintro j ⟨t, hmem, ⟨r, c⟩, hi, hj⟩
    exact ⟨(r, c), Composition.mem_cells.mpr ((ht.lies t hmem).of_has (Tile.mem_cells.mp hi)), hj⟩
  · rintro a b _ hpost ⟨r, c⟩ hi
    obtain ⟨hr, hc⟩ := Composition.mem_cells.mp hi
    obtain ⟨t, hmem, hhas⟩ := ht.cover r hr c hc
    exact hpost t hmem (r, c) (Tile.mem_cells.mpr hhas)

/-- **Tiles.** Where compositing a rectangle succeeds, so does compositing the tiles
of any tiling of it, one by one in any order, and leaves the same buffer. Every
tile starts within the destination, the source and the mask. -/
theorem composite_tiles (hw : f.Wide) (ht : Tiling what.rows what.cols tiles) {buf out : Bytes}
    (h : (f.composite stride src mask what).on buf = (.ok (), out)) :
    (∀ t ∈ tiles, t.start stride f.recordSize ≤ buf.size ∧
      t.start src.stride f.recordSize ≤ src.bytes.size ∧
      ∀ m, mask = some m → t.start m.stride 1 ≤ m.bytes.size) ∧
      (tiles.forM (f.compositeTile stride src mask what)).on buf = (.ok (), out) := by
  obtain ⟨hcheck, hturns⟩ := (composite_obeys hw buf.size stride src mask what).of_on h
  refine ⟨fun t hmem => ?_, ?_⟩
  · obtain ⟨hdst, hsrc, hmask, _⟩ := checkComposition_of_lies (ht.lies t hmem) hcheck
    exact ⟨hdst, hsrc, hmask⟩
  · rw [← h]
    refine TurnsEach.on_eq hw (composite_tiles_turnsEach hw ht hcheck) hturns ?_
    intro ⟨r, c⟩ hi
    obtain ⟨hr, hc⟩ := Composition.mem_cells.mp hi
    exact cell_le_of_checkComposite hcheck hr hc

theorem composite_tiles_three_pieces :
    (composite ⟨.eight, .bgra .eight⟩ 9
          ⟨#[10, 20, 30, 255, 40, 50, 60, 128, 70, 80, 90, 200, 1, 2, 3, 64], 8⟩
          (some ⟨#[255, 128, 0, 64], 2⟩) ⟨2, 2, 200, .screen⟩).on
        #[200, 100, 50, 60, 5, 15, 25, 35, 7, 250, 200, 150, 255, 11, 21, 31, 41] =
      (.ok (),
        #[202, 111, 72, 213, 30, 45, 60, 78, 7, 250, 200, 150, 255, 11, 22, 32, 52]) ∧
      ([⟨1, 0, 1, 2⟩, ⟨0, 1, 1, 1⟩, ⟨0, 0, 1, 1⟩].forM
          (compositeTile ⟨.eight, .bgra .eight⟩ 9
            ⟨#[10, 20, 30, 255, 40, 50, 60, 128, 70, 80, 90, 200, 1, 2, 3, 64], 8⟩
            (some ⟨#[255, 128, 0, 64], 2⟩) ⟨2, 2, 200, .screen⟩)).on
        #[200, 100, 50, 60, 5, 15, 25, 35, 7, 250, 200, 150, 255, 11, 21, 31, 41] =
      (.ok (),
        #[202, 111, 72, 213, 30, 45, 60, 78, 7, 250, 200, 150, 255, 11, 22, 32, 52]) :=
  ⟨by decide +kernel,
    (composite_tiles (by decide) (by decide +kernel) (by decide +kernel)).2⟩

end Format

end PixelRecord
