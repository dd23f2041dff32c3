import Mathlib.Data.List.Nodup
import Mathlib.Data.List.ProdSigma
import PixelRecord.Composite.Rectangle
import PixelRecord.Proofs.Composite.Record

/-!
A composited rectangle is its composited records.

The geometry check leaves rectangles whose cells lie in their buffers and have
no byte in common. So no record is written twice, none sees what another has
become, and each is what the formula makes of itself, of the source record in
the same row and column and of the mask byte there.
-/

namespace PixelRecord

open Edit

/-! ### Cells of a rectangle -/

/-- Rows of `cols` cells of `unit` bytes, `stride` bytes apart, do not overlap and
lie in a buffer of `size` bytes. -/
structure Fits (size stride rows cols unit : Nat) : Prop where
  row : cols * unit ≤ stride
  last : (rows - 1) * stride + cols * unit ≤ size

section Fits

variable {size stride rows cols unit r r' c c' : Nat}

/-- A cell ends where its row does at the latest. -/
theorem cell_le_row (hc : c < cols) : c * unit + unit ≤ cols * unit := by
  rw [← Nat.succ_mul]
  exact Nat.mul_le_mul_right unit hc

theorem Fits.cell_le (h : Fits size stride rows cols unit) (hr : r < rows) (hc : c < cols) :
    r * stride + c * unit + unit ≤ size := by
  have hrow : r * stride ≤ (rows - 1) * stride := Nat.mul_le_mul_right stride (by omega)
  have hcell : c * unit + unit ≤ cols * unit := cell_le_row hc
  have hlast := h.last
  omega

/-- A cell lies before every cell of a later row. -/
theorem Fits.cell_le_of_row_lt (h : Fits size stride rows cols unit) (hr : r < r') (hc : c < cols) :
    r * stride + c * unit + unit ≤ r' * stride + c' * unit := by
  have hrow : r * stride + stride ≤ r' * stride := by
    rw [← Nat.succ_mul]
    exact Nat.mul_le_mul_right stride hr
  have hcell : c * unit + unit ≤ cols * unit := cell_le_row hc
  have hstride := h.row
  omega

/-- A cell lies before every later cell of its row. -/
theorem cell_le_of_col_lt (hc : c < c') :
    r * stride + c * unit + unit ≤ r * stride + c' * unit := by
  have hcell : c * unit + unit ≤ c' * unit := cell_le_row hc
  omega

/-- Different cells have no byte in common. -/
theorem Fits.cell_apart (h : Fits size stride rows cols unit) (hc : c < cols) (hc' : c' < cols)
    (hne : (r, c) ≠ (r', c')) :
    r * stride + c * unit + unit ≤ r' * stride + c' * unit ∨
      r' * stride + c' * unit + unit ≤ r * stride + c * unit := by
  rcases Nat.lt_trichotomy r r' with hrow | rfl | hrow
  · exact .inl (h.cell_le_of_row_lt hrow hc)
  · rcases Nat.lt_trichotomy c c' with hlt | rfl | hlt
    · exact .inl (cell_le_of_col_lt hlt)
    · exact absurd rfl hne
    · exact .inr (cell_le_of_col_lt hlt)
  · exact .inr (h.cell_le_of_row_lt hrow hc')

theorem checkRectangle_eq_ok_iff {rowBytes : Nat} {what : String} :
    checkRectangle size stride rows rowBytes what = .ok () ↔
      rowBytes ≤ stride ∧ (rows - 1) * stride + rowBytes < Layout.addressSpace ∧
        (rows - 1) * stride + rowBytes ≤ size := by
  rw [checkRectangle]
  split
  · simp only [reduceCtorEq, false_iff]
    omega
  · dsimp only
    split
    · simp only [reduceCtorEq, false_iff]
      omega
    · split
      · simp only [reduceCtorEq, false_iff]
        omega
      · simp only [true_iff]
        omega

theorem fits_of_checkRectangle {what : String}
    (h : checkRectangle size stride rows (cols * unit) what = .ok ()) :
    Fits size stride rows cols unit :=
  have hiff := checkRectangle_eq_ok_iff.mp h
  ⟨hiff.1, hiff.2.2⟩

end Fits

/-! ### The mask -/

def Mask.byteAt (m : Mask) (r c : Nat) : UInt8 := m.bytes.getD (r * m.stride + c) 0

theorem Mask.at?_eq_ok {mask : Option Mask} {rows cols r c : Nat}
    (h : ∀ m, mask = some m → Fits m.bytes.size m.stride rows cols 1) (hr : r < rows)
    (hc : c < cols) : Mask.at? mask r c = .ok (mask.map fun m => m.byteAt r c) := by
  cases mask with
  | none => rfl
  | some m =>
      have hcell := (h m rfl).cell_le hr hc
      have hin : r * m.stride + c < m.bytes.size := by omega
      simp [Mask.at?, byteAt, Array.getD_eq_getD_getElem?, hin]

/-- The row and column of every record of a composition. -/
def Composition.cells (what : Composition) : List (Nat × Nat) :=
  List.range what.rows ×ˢ List.range what.cols

theorem Composition.mem_cells {what : Composition} {r c : Nat} :
    (r, c) ∈ what.cells ↔ r < what.rows ∧ c < what.cols := by
  refine List.pair_mem_product.trans ?_
  rw [List.mem_range, List.mem_range]

theorem Composition.nodup_cells (what : Composition) : what.cells.Nodup :=
  List.Nodup.product List.nodup_range List.nodup_range

/-- The first bytes of the records of a composition, which lie `unit` bytes apart in
rows that lie `stride` bytes apart. -/
def Composition.places (what : Composition) (stride unit : Nat) : List Nat :=
  what.cells.map fun (r, c) => r * stride + c * unit

namespace Format

variable {f : Format} {size stride : Nat} {src : Surface} {mask : Option Mask} {what : Composition}

/-! ### The whole rectangle -/

/-- Destination, source and mask of a composition fit into their buffers. -/
structure Accepts (f : Format) (size stride : Nat) (src : Surface) (mask : Option Mask)
    (what : Composition) : Prop where
  dst : Fits size stride what.rows what.cols f.recordSize
  src : Fits src.bytes.size src.stride what.rows what.cols f.recordSize
  mask : ∀ m, mask = some m → Fits m.bytes.size m.stride what.rows what.cols 1

theorem checkComposition_eq_ok_iff :
    f.checkComposition size stride src mask what = .ok () ↔
      what.cols * f.recordSize < Layout.addressSpace ∧
        checkRectangle size stride what.rows (what.cols * f.recordSize)
          "composite destination" = .ok () ∧
        checkRectangle src.bytes.size src.stride what.rows (what.cols * f.recordSize)
          "composite source" = .ok () ∧
        ∀ m, mask = some m →
          checkRectangle m.bytes.size m.stride what.rows what.cols "composite mask" = .ok () := by
  unfold checkComposition
  dsimp only
  split
  · next hwide =>
    constructor
    · intro h
      cases h
    · intro h
      omega
  · next hrow =>
    constructor
    · intro h
      obtain ⟨⟨⟩, hdst, h⟩ := Edit.bind_eq_ok h
      obtain ⟨⟨⟩, hsrc, h⟩ := Edit.bind_eq_ok h
      refine ⟨by omega, hdst, hsrc, ?_⟩
      rintro m rfl
      exact h
    · rintro ⟨_, hdst, hsrc, hmask⟩
      rw [hdst, hsrc]
      cases mask with
      | none => rfl
      | some m => exact hmask m rfl

theorem accepts_of_check (h : f.checkComposition size stride src mask what = .ok ()) :
    f.Accepts size stride src mask what := by
  obtain ⟨_, hdst, hsrc, hmask⟩ := checkComposition_eq_ok_iff.mp h
  refine ⟨fits_of_checkRectangle hdst, fits_of_checkRectangle hsrc, fun m hm => ?_⟩
  exact fits_of_checkRectangle (by rw [Nat.mul_one]; exact hmask m hm)

/-- The values that compositing leaves in row `r` and column `c` of a buffer with
the values `v` there. -/
def cellFormula (f : Format) (src : Surface) (mask : Option Mask) (what : Composition) (r c : Nat)
    (v : PixelValues) : PixelValues :=
  Formula.composited what.op f.depth.max
    (Formula.cover f.depth (mask.map fun m => m.byteAt r c) what.opacity)
    (f.valuesAt src.bytes (r * src.stride + c * f.recordSize)) v

theorem compositeAt_turns (hw : f.Wide) (h : f.Accepts size stride src mask what) {r c : Nat}
    (hr : r < what.rows) (hc : c < what.cols) :
    f.Turns (f.compositeAt stride src mask what r c) size (r * stride + c * f.recordSize)
      (f.cellFormula src mask what r c) := by
  rw [compositeAt, Mask.at?_eq_ok h.mask hr hc]
  have hturns := compositeRecord_turns hw what.op (h.src.cell_le hr hc) (h.dst.cell_le hr hc)
    (cover_le (mask.map fun m => m.byteAt r c) what.opacity)
  rw [cover_eq] at hturns
  exact hturns

theorem compositeRow_turnsEach (hw : f.Wide) (h : f.Accepts size stride src mask what) {r : Nat}
    (hr : r < what.rows) :
    f.TurnsEach ((List.range what.cols).forM fun c => f.compositeAt stride src mask what r c) size
      (List.range what.cols) (fun c => r * stride + c * f.recordSize)
      (f.cellFormula src mask what r) := by
  apply hw.turnsEach_forM
  · exact List.pairwise_lt_range.imp cell_le_of_col_lt
  · intro c hc
    exact compositeAt_turns hw h hr (List.mem_range.mp hc)

/-- Calls on the rows one by one are a call on all records. -/
theorem rows_turnsEach (hw : f.Wide) (hfit : Fits size stride what.rows what.cols f.recordSize)
    {k : Nat → Edit Unit} {gs : Nat → Nat → PixelValues → PixelValues}
    (h : ∀ r < what.rows, f.TurnsEach (k r) size (List.range what.cols)
      (fun c => r * stride + c * f.recordSize) (gs r)) :
    f.TurnsEach ((List.range what.rows).forM k) size what.cells
      (fun (r, c) => r * stride + c * f.recordSize) (fun (r, c) => gs r c) := by
  have hsep : (List.range what.rows).Pairwise fun r r' => ∀ j,
      (∃ c ∈ List.range what.cols, f.Keeps (r * stride + c * f.recordSize) j) →
        ¬ ∃ c ∈ List.range what.cols, f.Keeps (r' * stride + c * f.recordSize) j := by
    refine List.pairwise_lt_range.imp ?_
    intro r r' hlt j ⟨c, hc, hj⟩ ⟨c', _, hj'⟩
    have hcells : r * stride + c * f.recordSize + f.recordSize ≤ r' * stride + c' * f.recordSize :=
      hfit.cell_le_of_row_lt hlt (List.mem_range.mp hc)
    have hbefore := (hw.mem_record hj).2
    have hafter := (hw.mem_record hj').1
    omega
  have hrows := Acts.forM hsep fun r hr => h r (List.mem_range.mp hr)
  -- The rows speak of their columns one by one; a cell is a row and a column at once.
  refine hrows.mono (f.looksAt_valuesAt_each _ _ _) ?_ ?_
  · rintro j ⟨r, hr, c, hc, hj⟩
    exact ⟨(r, c), Composition.mem_cells.mpr ⟨List.mem_range.mp hr, List.mem_range.mp hc⟩, hj⟩
  · intro a b _ hpost ⟨r, c⟩ hmem
    obtain ⟨hr, hc⟩ := Composition.mem_cells.mp hmem
    exact hpost r (List.mem_range.mpr hr) c (List.mem_range.mpr hc)

theorem composite_cells_turnsEach (hw : f.Wide) (h : f.Accepts size stride src mask what) :
    f.TurnsEach ((List.range what.rows).forM fun r => (List.range what.cols).forM fun c =>
        f.compositeAt stride src mask what r c) size what.cells
      (fun (r, c) => r * stride + c * f.recordSize)
      (fun (r, c) => f.cellFormula src mask what r c) :=
  rows_turnsEach hw h.dst fun _ hr => compositeRow_turnsEach hw h hr

/-- What has to hold for a composition. An empty one asks for nothing. -/
def checkComposite (f : Format) (size stride : Nat) (src : Surface) (mask : Option Mask)
    (what : Composition) : Except Error Unit :=
  if what.rows = 0 ∨ what.cols = 0 then .ok () else f.checkComposition size stride src mask what

theorem composite_obeys (hw : f.Wide) (size stride : Nat) (src : Surface) (mask : Option Mask)
    (what : Composition) :
    f.Obeys (f.composite stride src mask what) size (f.checkComposite size stride src mask what)
      what.cells (fun (r, c) => r * stride + c * f.recordSize)
      (fun (r, c) => f.cellFormula src mask what r c) := by
  unfold composite checkComposite
  split
  · next hempty =>
    apply acts_pure (f.looksAt_valuesAt_each _ _ _)
    intro buf (r, c) hmem
    have hcell := Composition.mem_cells.mp hmem
    omega
  · exact obeys_of_check (fun n => f.checkComposition n stride src mask what)
      fun h => composite_cells_turnsEach hw (accepts_of_check h)

/-- What a composition that is not refused makes of `before`. -/
structure Composited (f : Format) (stride : Nat) (src : Surface) (mask : Option Mask)
    (what : Composition) (before after : Bytes) : Prop where
  /-- The buffer keeps its size. -/
  size : after.size = before.size
  /-- Bytes outside the records of the rectangle are as they were. -/
  frame : ∀ j, (∀ r < what.rows, ∀ c < what.cols,
    ¬ (r * stride + c * f.recordSize ≤ j ∧ j < r * stride + c * f.recordSize + f.recordSize)) →
      after[j]? = before[j]?
  /-- Every record of the rectangle follows the formula for its own old values,
  the source record and the mask byte in the same row and column, and the
  opacity. -/
  cells : ∀ r < what.rows, ∀ c < what.cols,
    f.valuesAt after (r * stride + c * f.recordSize) =
      Formula.composited what.op f.depth.max
        (Formula.cover f.depth (mask.map fun m => m.byteAt r c) what.opacity)
        (f.valuesAt src.bytes (r * src.stride + c * f.recordSize))
        (f.valuesAt before (r * stride + c * f.recordSize))

theorem composited_of_turnsEach {e : Edit Unit} {before after : Bytes} (hw : f.Wide)
    (h : f.TurnsEach e before.size what.cells (fun (r, c) => r * stride + c * f.recordSize)
      (fun (r, c) => f.cellFormula src mask what r c))
    (hon : e.on before = (.ok (), after)) : f.Composited stride src mask what before after := by
  obtain ⟨hsize, hframe, hcells⟩ := (Acts.ends h before rfl).of_on hon
  refine ⟨hsize, fun j hj => hframe j ?_, fun r hr c hc => ?_⟩
  · rintro ⟨⟨r, c⟩, hmem, hkeeps⟩
    obtain ⟨hr, hc⟩ := Composition.mem_cells.mp hmem
    exact hj r hr c hc (hw.mem_record hkeeps)
  · exact hcells (r, c) (Composition.mem_cells.mpr ⟨hr, hc⟩)

theorem composited_of_on (hw : f.Wide) {before after : Bytes}
    (h : (f.composite stride src mask what).on before = (.ok (), after)) :
    f.Composited stride src mask what before after :=
  composited_of_turnsEach hw ((composite_obeys hw before.size stride src mask what).of_on h).2 h

/-- The records of an accepted composition lie in the buffer. -/
theorem cell_le_of_checkComposite (h : f.checkComposite size stride src mask what = .ok ())
    {r c : Nat} (hr : r < what.rows) (hc : c < what.cols) :
    r * stride + c * f.recordSize + f.recordSize ≤ size := by
  rw [checkComposite] at h
  rw [if_neg (by omega)] at h
  exact (accepts_of_check h).dst.cell_le hr hc

theorem cells_le_of_checkComposite (h : f.checkComposite size stride src mask what = .ok ()) :
    ∀ i ∈ what.cells, i.1 * stride + i.2 * f.recordSize + f.recordSize ≤ size := by
  intro (r, c) hmem
  obtain ⟨hr, hc⟩ := Composition.mem_cells.mp hmem
  exact cell_le_of_checkComposite h hr hc

/-- Compositions of one rectangle that are refused in the same cases answer alike, and leave
the same bytes at a record if they make the same of it. -/
theorem composite_agree (hw : f.Wide) {src' : Surface} {mask' : Option Mask}
    {what' : Composition} (buf : Bytes)
    (hcheck : f.checkComposite buf.size stride src' mask' what' =
      f.checkComposite buf.size stride src mask what) (hcells : what'.cells = what.cells) :
    let outcome := (f.composite stride src mask what).on buf
    let outcome' := (f.composite stride src' mask' what').on buf
    outcome.1 = outcome'.1 ∧ ∀ r < what.rows, ∀ c < what.cols,
      let p := r * stride + c * f.recordSize
      f.cellFormula src mask what r c (f.valuesAt buf p) =
          f.cellFormula src' mask' what' r c (f.valuesAt buf p) →
        ∀ t < f.recordSize, outcome.2[p + t]? = outcome'.2[p + t]? := by
  intro outcome outcome'
  have h := composite_obeys hw buf.size stride src mask what
  have h' := composite_obeys hw buf.size stride src' mask' what'
  rw [hcells, hcheck] at h'
  refine ⟨h.answer_eq h', ?_⟩
  intro r hr c hc p hcell t ht
  have hmem : (r, c) ∈ what.cells := Composition.mem_cells.mpr ⟨hr, hc⟩
  refine h.agreeOn_record hw h' hmem hcell (fun hok => ?_) (p + t)
    ⟨Nat.le_add_right .., Nat.add_lt_add_left ht _⟩
  rw [checkComposite, if_neg (by omega)] at hok
  have hdst := (accepts_of_check hok).dst
  refine ⟨hdst.cell_le hr hc, ?_⟩
  rintro ⟨r', c'⟩ hmem' hne
  exact hdst.cell_apart hc (Composition.mem_cells.mp hmem').2 hne.symm

/-- Where values are as wide as their channels, nothing is left open. -/
theorem Composited.unique (he : f.Exact) {before after other : Bytes}
    (hfit : ∀ r < what.rows, ∀ c < what.cols,
      r * stride + c * f.recordSize + f.recordSize ≤ before.size)
    (h : f.Composited stride src mask what before after)
    (h' : f.Composited stride src mask what before other) : other = after := by
  apply Array.ext_getElem?
  intro j
  by_cases hj : ∀ r < what.rows, ∀ c < what.cols,
    ¬ (r * stride + c * f.recordSize ≤ j ∧ j < r * stride + c * f.recordSize + f.recordSize)
  · rw [h.frame j hj, h'.frame j hj]
  · push Not at hj
    obtain ⟨r, hr, c, hc, hin⟩ := hj
    have hcell := hfit r hr c hc
    have hvalues := (h'.cells r hr c hc).trans (h.cells r hr c hc).symm
    exact agreeOn_of_valuesAt he.wide (h'.size ▸ hcell) (h.size ▸ hcell) hvalues j
      (he.keeps_iff.mpr hin)

/-- **Compositing.** A composition that succeeds has laid every source record
over its destination record as the formula says and has changed nothing else;
there is one buffer only of which this is true. -/
theorem composite_exactly (he : f.Exact) {buf out : Bytes}
    (h : (f.composite stride src mask what).on buf = (.ok (), out)) :
    f.Composited stride src mask what buf out ∧
      ∀ other, f.Composited stride src mask what buf other → other = out := by
  obtain ⟨hcheck, hturns⟩ := (composite_obeys he.wide buf.size stride src mask what).of_on h
  have hdone := composited_of_turnsEach he.wide hturns h
  refine ⟨hdone, fun other hother => hdone.unique he (fun r hr c hc => ?_) hother⟩
  exact cell_le_of_checkComposite hcheck hr hc

theorem composite_exactly_multiply_masked :
    Exact ⟨.eight, .bgra .eight⟩ ∧
      (composite ⟨.eight, .bgra .eight⟩ 5 ⟨#[10, 20, 30, 255, 40, 50, 60, 128], 4⟩
          (some ⟨#[255, 128], 1⟩) ⟨2, 1, 200, .multiply⟩).on
        #[200, 100, 50, 60, 7, 250, 200, 150, 255] =
        (.ok (), #[20, 14, 9, 213, 7, 209, 168, 127, 255]) ∧
      Composited ⟨.eight, .bgra .eight⟩ 5 ⟨#[10, 20, 30, 255, 40, 50, 60, 128], 4⟩
        (some ⟨#[255, 128], 1⟩) ⟨2, 1, 200, .multiply⟩
        #[200, 100, 50, 60, 7, 250, 200, 150, 255] #[20, 14, 9, 213, 7, 209, 168, 127, 255] :=
  ⟨by decide, by decide, (composite_exactly (by decide) (by decide)).1⟩

end Format

end PixelRecord
