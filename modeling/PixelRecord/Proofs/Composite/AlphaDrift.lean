import Mathlib.Algebra.Order.Field.Basic
import Mathlib.Algebra.Order.Field.Rat
import Mathlib.Algebra.Order.Ring.Abs
import Mathlib.Data.Rat.Cast.Order
import Mathlib.Tactic.Linarith
import Mathlib.Tactic.FieldSimp
import Mathlib.Tactic.Ring
import PixelRecord.Proofs.Composite.Rectangle
import PixelRecord.Proofs.Composite.Separable

/-!
The alpha of a record under many layers.

Every layer rounds, and the next one starts from what was rounded. The alpha does
not drift for two reasons. One step is off by less than a half, because the
scale is odd and no quotient by it is a half; and a step never amplifies what was
off before it, because the exact step multiplies differences by one minus the
effective alpha. So `n` layers are off by less than `n / 2`, whichever they are,
and as the exact alpha of separable layers does not depend on their order, the
stored one hardly does.
-/

namespace PixelRecord

open Edit

namespace Formula

/-! ### One step -/

/-- The alpha that a layer of effective alpha `sa` leaves of `da`. -/
def layeredAlpha (op : Op) (max sa da : Int) : Int :=
  match op with
  | .erase => nearest (da * (max - sa)) max
  | _ => da + nearest ((max - da) * sa) max

/-- The same on fractions, without rounding: the part `k` of what is not covered yet
is covered, or the part `k` of what is covered is taken away. -/
def exactAlpha (op : Op) (k x : ℚ) : ℚ :=
  match op with
  | .erase => x * (1 - k)
  | _ => x + (1 - x) * k

theorem layeredAlpha_of_separable {op : Op} (h : op.isSeparable = true) (max sa da : Int) :
    layeredAlpha op max sa da = union max sa da := by
  cases op <;> first | rfl | cases h

theorem exactAlpha_of_separable {op : Op} (h : op.isSeparable = true) (k x : ℚ) :
    exactAlpha op k x = x + (1 - x) * k := by
  cases op <;> first | rfl | cases h

/-- What compositing makes of the alpha is a matter of the operation and the
effective alpha. Where that is zero the formula has nothing to add or to take. -/
theorem alpha_composited {op : Op} (hop : op ≠ .copy) {max cover : Int} (hmax : 0 < max)
    (src dst : PixelValues) :
    (composited op max cover src dst).alpha =
      dst.alpha.map (layeredAlpha op max (effective max cover src)) := by
  have hsame {g : Int → Int} (hg : ∀ da, g da = da) : dst.alpha = dst.alpha.map g := by
    rw [show g = id from funext hg, Option.map_id, id]
  obtain rfl | rfl | hsep := op.separable_cases
  · exact absurd rfl hop
  · rw [composited, ← effective]
    split
    · next hzero =>
      refine hsame fun da => ?_
      rw [hzero, layeredAlpha, Int.sub_zero, nearest_mul_self hmax]
    · rfl
  · rw [composited_of_separable hsep, ← effective]
    split
    · next hzero =>
      refine hsame fun da => ?_
      rw [hzero, layeredAlpha_of_separable hsep, union_zero hmax]
    · rw [show layeredAlpha op max _ = _ from funext (layeredAlpha_of_separable hsep max _)]
      rfl

/-- One layer is off by less than a half from the exact step on the same alpha. -/
theorem abs_layeredAlpha_sub_lt (op : Op) {max : Nat} (hodd : max % 2 = 1) (sa da : Int) :
    |(layeredAlpha op max sa da : ℚ) - max * exactAlpha op (sa / max) (da / max)| < 1 / 2 := by
  have hmax : (max : ℚ) ≠ 0 := by exact_mod_cast (show max ≠ 0 by omega)
  rcases Decidable.em (op = .erase) with rfl | hop
  · have hexact : max * exactAlpha .erase (sa / max) (da / max) =
        ((da * (max - sa) : Int) : ℚ) / max := by
      rw [exactAlpha]
      push_cast
      field_simp
    rw [layeredAlpha, hexact]
    exact abs_nearest_sub_lt hodd
  · have hlayered : layeredAlpha op max sa da = da + nearest ((max - da) * sa) max := by
      cases op <;> first | rfl | exact absurd rfl hop
    have hexact : max * exactAlpha op (sa / max) (da / max) =
        da + (((max - da) * sa : Int) : ℚ) / max := by
      have hstep : exactAlpha op (sa / max) (da / max) =
          da / max + (1 - da / max) * (sa / max : ℚ) := by
        cases op <;> first | rfl | exact absurd rfl hop
      rw [hstep]
      push_cast
      field_simp
    rw [hlayered, hexact, Int.cast_add, add_sub_add_left_eq_sub]
    exact abs_nearest_sub_lt hodd

/-- The exact step scales differences by what it leaves uncovered. -/
theorem exactAlpha_sub (op : Op) (k x y : ℚ) :
    exactAlpha op k x - exactAlpha op k y = (x - y) * (1 - k) := by
  cases op <;> (simp only [exactAlpha]; ring)

/-- **One layer.** What was off before a layer is not amplified, and less than a half
is added to it. -/
theorem layeredAlpha_error (op : Op) {max : Nat} (hodd : max % 2 = 1) {sa : Int} (hsa : 0 ≤ sa)
    (hsa' : sa ≤ max) (da : Int) (x : ℚ) :
    |(layeredAlpha op max sa da : ℚ) - max * exactAlpha op (sa / max) x| <
      |(da : ℚ) - max * x| + 1 / 2 := by
  have hmax : (0 : ℚ) < max := by exact_mod_cast (show 0 < max by omega)
  have hk : 0 ≤ (sa : ℚ) / max := div_nonneg (by exact_mod_cast hsa) hmax.le
  have hk' : (sa : ℚ) / max ≤ 1 := (div_le_one hmax).mpr (by exact_mod_cast hsa')
  have hround := abs_layeredAlpha_sub_lt op hodd sa da
  have hold : max * exactAlpha op (sa / max) (da / max) - max * exactAlpha op (sa / max) x =
      ((da : ℚ) - max * x) * (1 - sa / max) := by
    rw [← mul_sub, exactAlpha_sub]
    field_simp
  have hscaled : |((da : ℚ) - max * x) * (1 - sa / max)| ≤ |(da : ℚ) - max * x| := by
    rw [abs_mul, abs_of_nonneg (by linarith : 0 ≤ 1 - (sa : ℚ) / max)]
    exact mul_le_of_le_one_right (abs_nonneg _) (by linarith)
  calc |(layeredAlpha op max sa da : ℚ) - max * exactAlpha op (sa / max) x|
      ≤ |(layeredAlpha op max sa da : ℚ) - max * exactAlpha op (sa / max) (da / max)| +
          |max * exactAlpha op (sa / max) (da / max) - max * exactAlpha op (sa / max) x| :=
        abs_sub_le _ _ _
    _ < |(da : ℚ) - max * x| + 1 / 2 := by
        rw [hold]
        linarith

/-- A separable layer takes nothing away and does not go above the scale. -/
theorem layeredAlpha_mem {op : Op} (hop : op.isSeparable = true) {max sa da : Int}
    (hmax : 0 < max) (hsa : 0 ≤ sa) (hsa' : sa ≤ max) (hda : da ≤ max) :
    da ≤ layeredAlpha op max sa da ∧ layeredAlpha op max sa da ≤ max := by
  rw [layeredAlpha_of_separable hop]
  exact ⟨le_union hmax hsa hda, union_le hmax hsa' hda⟩

end Formula

/-! ### Layers over one record -/

/-- The value of the alpha channel in the record that starts at byte `place`. -/
def Format.alphaAt (f : Format) (alpha : Channel) (place : Nat) (buf : Bytes) : Nat :=
  f.depth.load buf (place + alpha.position)

/-- A call that composites a rectangle, and the row and column in it of the record
that is looked at. -/
structure Layer where
  stride : Nat
  src : Surface
  mask : Option Mask
  what : Composition
  row : Nat
  col : Nat
  deriving DecidableEq, Repr

namespace Layer

def run (f : Format) (l : Layer) : Edit Unit := f.composite l.stride l.src l.mask l.what

/-- The call is accepted for a buffer of `size` bytes, and its record starts at byte
`place`. -/
@[mk_iff]
structure Reaches (f : Format) (size place : Nat) (l : Layer) : Prop where
  accepted : f.checkComposition size l.stride l.src l.mask l.what = .ok ()
  row_lt : l.row < l.what.rows
  col_lt : l.col < l.what.cols
  place_eq : l.row * l.stride + l.col * f.recordSize = place

instance (f : Format) (size place : Nat) (l : Layer) : Decidable (l.Reaches f size place) :=
  decidable_of_iff' _ (reaches_iff f size place l)

/-- The effective alpha of the layer over its record. -/
def effective (f : Format) (l : Layer) : Int :=
  Formula.effective f.depth.max
    (Formula.cover f.depth (l.mask.map fun m => m.byteAt l.row l.col) l.what.opacity)
    (f.valuesAt l.src.bytes (l.row * l.src.stride + l.col * f.recordSize))

def alphaStep (f : Format) (da : Int) (l : Layer) : Int :=
  Formula.layeredAlpha l.what.op f.depth.max (l.effective f) da

def exactStep (f : Format) (x : ℚ) (l : Layer) : ℚ :=
  Formula.exactAlpha l.what.op (l.effective f / f.depth.max) x

/-- The alpha that layers leave of `da` one after the other. -/
def alphaAfter (f : Format) (layers : List Layer) (da : Int) : Int :=
  layers.foldl (alphaStep f) da

/-- The fraction that they leave of `x` without rounding. -/
def exactAfter (f : Format) (layers : List Layer) (x : ℚ) : ℚ := layers.foldl (exactStep f) x

variable {f : Format} {l : Layer} {layers : List Layer} {place : Nat}

theorem effective_mem (f : Format) (l : Layer) :
    0 ≤ l.effective f ∧ l.effective f ≤ f.depth.max := by
  have hcover := Format.cover_le (d := f.depth) (l.mask.map fun m => m.byteAt l.row l.col)
    l.what.opacity
  rw [effective, ← Format.cover_eq]
  have hscale := f.onScale_effective l.src.bytes (l.row * l.src.stride + l.col * f.recordSize)
    (Formula.onScale_cast hcover)
  exact ⟨hscale.nonneg, hscale.le⟩

/-! ### A run -/

/-- One layer, on the buffer. -/
theorem ends_run (hw : f.Wide) {buf : Bytes} (h : l.Reaches f buf.size place)
    (hop : l.what.op ≠ .copy) :
    (l.run f).Ends buf fun _ out => out.size = buf.size ∧
      (f.valuesAt out place).alpha =
        (f.valuesAt buf place).alpha.map (fun da => l.alphaStep f da) := by
  obtain ⟨haccepted, hrow, hcol, rfl⟩ := h
  have hobeys := Format.composite_obeys hw buf.size l.stride l.src l.mask l.what
  rw [Format.checkComposite, if_neg (by omega), haccepted] at hobeys
  refine (Acts.ends hobeys buf rfl).mono fun _ out hacts => ?_
  obtain ⟨hsize, -, hvalues⟩ := hacts
  refine ⟨hsize, ?_⟩
  have hcell := hvalues (l.row, l.col) (Composition.mem_cells.mpr ⟨hrow, hcol⟩)
  dsimp only at hcell
  rw [hcell, Format.cellFormula]
  exact Formula.alpha_composited hop (FixedPoint.scale_max f.depth).cast_pos _ _

/-- A run of layers, on the buffer: each takes the alpha as the one before left it. -/
theorem ends_forM_run (hw : f.Wide) {buf : Bytes} (h : ∀ l ∈ layers, l.Reaches f buf.size place)
    (hop : ∀ l ∈ layers, l.what.op ≠ .copy) :
    (layers.forM (run f)).Ends buf fun _ out => out.size = buf.size ∧
      (f.valuesAt out place).alpha =
        (f.valuesAt buf place).alpha.map (alphaAfter f layers) := by
  induction layers generalizing buf with
  | nil => exact ends_pure ⟨rfl, Option.map_id'.symm ▸ rfl⟩
  | cons first rest ih =>
      obtain ⟨hfirst, hrest⟩ := List.forall_mem_cons.mp h
      obtain ⟨hop', hops⟩ := List.forall_mem_cons.mp hop
      refine (ends_run hw hfirst hop').bind fun _ mid ⟨hsize, halpha⟩ => ?_
      refine (ih (hsize.symm ▸ hrest) hops).mono fun _ out ⟨hsize', halpha'⟩ => ?_
      refine ⟨hsize'.trans hsize, ?_⟩
      rw [halpha', halpha, Option.map_map]
      rfl

/-- The alpha that a run stores. -/
theorem on_forM_run (hw : f.Wide) {alpha : Channel} (halpha : f.layout.alpha? = some alpha)
    {buf : Bytes} (h : ∀ l ∈ layers, l.Reaches f buf.size place)
    (hop : ∀ l ∈ layers, l.what.op ≠ .copy) :
    ∃ out, (layers.forM (run f)).on buf = (.ok (), out) ∧
      (f.alphaAt alpha place out : Int) = alphaAfter f layers (f.alphaAt alpha place buf) := by
  obtain ⟨⟨⟩, out, hon, _, hvalue⟩ := ends_forM_run hw h hop
  rw [Format.alpha_valuesAt, Format.alpha_valuesAt, halpha, Option.map_some, Option.map_some,
    Option.map_some, Option.some_inj] at hvalue
  exact ⟨out, hon, hvalue⟩

/-! ### What a run adds up to -/

/-- The errors of a run add up to less than a half for each layer. -/
theorem alphaAfter_error (f : Format) (hne : layers ≠ []) (da : Int) (x : ℚ) :
    |(alphaAfter f layers da : ℚ) - f.depth.max * exactAfter f layers x| <
      |(da : ℚ) - f.depth.max * x| + layers.length / 2 := by
  induction layers generalizing da x with
  | nil => exact absurd rfl hne
  | cons first rest ih =>
      have hodd := (FixedPoint.scale_max f.depth).odd
      obtain ⟨hlow, hhigh⟩ := first.effective_mem f
      have hfirst := Formula.layeredAlpha_error first.what.op hodd hlow hhigh da x
      change |(alphaStep f da first : ℚ) - f.depth.max * exactStep f x first| < _ at hfirst
      rw [alphaAfter, exactAfter, List.foldl_cons, List.foldl_cons, List.length_cons]
      push_cast
      cases rest with
      | nil => simpa using hfirst
      | cons second rest =>
        have hrest := ih (List.cons_ne_nil _ _) (alphaStep f da first) (exactStep f x first)
        simp only [alphaAfter, exactAfter] at hrest
        linarith

theorem alphaAfter_mem (h : ∀ l ∈ layers, l.what.op.isSeparable = true) {da : Int}
    (hda : da ≤ f.depth.max) :
    da ≤ alphaAfter f layers da ∧ alphaAfter f layers da ≤ f.depth.max := by
  induction layers generalizing da with
  | nil => exact ⟨le_rfl, hda⟩
  | cons first rest ih =>
      obtain ⟨hfirst, hrest⟩ := List.forall_mem_cons.mp h
      obtain ⟨hlow, hhigh⟩ := first.effective_mem f
      have hstep := Formula.layeredAlpha_mem hfirst (FixedPoint.scale_max f.depth).cast_pos hlow
        hhigh hda
      change da ≤ alphaStep f da first ∧ alphaStep f da first ≤ _ at hstep
      have hrun := ih hrest hstep.2
      exact ⟨hstep.1.trans hrun.1, hrun.2⟩

/-- Without rounding, separable layers may be laid in any order. -/
theorem exactAfter_perm {layers' : List Layer} (hperm : layers'.Perm layers)
    (h : ∀ l ∈ layers, l.what.op.isSeparable = true) (x : ℚ) :
    exactAfter f layers' x = exactAfter f layers x := by
  refine hperm.foldl_eq' ?_ x
  intro l hl l' hl' y
  simp only [exactStep, Formula.exactAlpha_of_separable (h l (hperm.mem_iff.mp hl)),
    Formula.exactAlpha_of_separable (h l' (hperm.mem_iff.mp hl'))]
  ring

/-- From a stored alpha on, a run is off by less than a half for each layer. -/
theorem abs_alphaAfter_sub_lt (f : Format) (hne : layers ≠ []) (da : Int) :
    |(alphaAfter f layers da : ℚ) - f.depth.max * exactAfter f layers (da / f.depth.max)| <
      layers.length / 2 := by
  have hmax : (f.depth.max : ℚ) ≠ 0 := by exact_mod_cast f.depth.max_pos.ne'
  have herror := alphaAfter_error f hne da (da / f.depth.max)
  rwa [mul_div_cancel₀ _ hmax, sub_self, abs_zero, zero_add] at herror

/-- Two orders of the same separable layers are off from the same exact alpha. -/
theorem abs_alphaAfter_perm_lt {layers' : List Layer} (hne : layers ≠ [])
    (hperm : layers'.Perm layers) (h : ∀ l ∈ layers, l.what.op.isSeparable = true) (da : Int) :
    |alphaAfter f layers' da - alphaAfter f layers da| < layers.length := by
  have hne' : layers' ≠ [] := by
    rintro rfl
    exact hne (List.nil_perm.mp hperm)
  have hone := abs_alphaAfter_sub_lt f hne da
  have hother := abs_alphaAfter_sub_lt f hne' da
  rw [exactAfter_perm hperm h, hperm.length_eq] at hother
  have hboth : |(alphaAfter f layers' da : ℚ) - alphaAfter f layers da| < layers.length := by
    rw [abs_lt] at hone hother ⊢
    constructor <;> linarith
  exact_mod_cast hboth

/-- **The alpha does not drift.** A run of `n` layers that do not copy succeeds, and
leaves an alpha that is off by less than `n / 2` from the exact one. Where every
layer is separable, the alpha has not become less, is still full if it was, and any
other order of the layers succeeds too and leaves an alpha that differs by less than
`n`. -/
theorem alpha_does_not_drift (hw : f.Wide) {alpha : Channel} (halpha : f.layout.alpha? = some alpha)
    {buf : Bytes} (hne : layers ≠ []) (h : ∀ l ∈ layers, l.Reaches f buf.size place)
    (hop : ∀ l ∈ layers, l.what.op ≠ .copy) :
    ∃ out, (layers.forM (run f)).on buf = (.ok (), out) ∧
      |(f.alphaAt alpha place out : ℚ) - f.depth.max *
          exactAfter f layers (f.alphaAt alpha place buf / f.depth.max)| < layers.length / 2 ∧
      ((∀ l ∈ layers, l.what.op.isSeparable = true) →
        f.alphaAt alpha place buf ≤ f.alphaAt alpha place out ∧
        (f.alphaAt alpha place buf = f.depth.max → f.alphaAt alpha place out = f.depth.max) ∧
        ∀ layers' : List Layer, layers'.Perm layers →
          ∃ out', (layers'.forM (run f)).on buf = (.ok (), out') ∧
            |(f.alphaAt alpha place out' : ℤ) - f.alphaAt alpha place out| < layers.length) := by
  obtain ⟨out, hon, hvalue⟩ := on_forM_run hw halpha h hop
  refine ⟨out, hon, ?_, fun hsep => ?_⟩
  · rw [← Int.cast_natCast, hvalue]
    exact abs_alphaAfter_sub_lt f hne _
  · have hold : (f.alphaAt alpha place buf : Int) ≤ f.depth.max := by
      exact_mod_cast f.depth.load_le_max buf _
    have hmem := alphaAfter_mem (f := f) hsep hold
    refine ⟨by omega, fun hfull => by omega, fun layers' hperm => ?_⟩
    obtain ⟨out', hon', hvalue'⟩ := on_forM_run hw halpha
      (fun l (hl : l ∈ layers') => h l (hperm.mem_iff.mp hl))
      fun l hl => hop l (hperm.mem_iff.mp hl)
    refine ⟨out', hon', ?_⟩
    rw [hvalue, hvalue']
    exact abs_alphaAfter_perm_lt hne hperm hsep _

theorem alpha_does_not_drift_two_orders :
    ∃ out out',
      ([⟨4, ⟨#[9, 9, 9, 9, 10, 20, 30, 90], 4⟩, none, ⟨2, 1, 255, .over⟩, 1, 0⟩,
          ⟨8, ⟨#[9, 9, 9, 9, 40, 50, 60, 77], 8⟩, some ⟨#[0, 128], 2⟩, ⟨1, 2, 200, .screen⟩, 0,
            1⟩].forM
        (run ⟨.eight, .bgra .eight⟩)).on #[5, 6, 7, 8, 1, 2, 3, 100] = (.ok (), out) ∧
      ([⟨8, ⟨#[9, 9, 9, 9, 40, 50, 60, 77], 8⟩, some ⟨#[0, 128], 2⟩, ⟨1, 2, 200, .screen⟩, 0, 1⟩,
          ⟨4, ⟨#[9, 9, 9, 9, 10, 20, 30, 90], 4⟩, none, ⟨2, 1, 255, .over⟩, 1, 0⟩].forM
        (run ⟨.eight, .bgra .eight⟩)).on #[5, 6, 7, 8, 1, 2, 3, 100] = (.ok (), out') ∧
      100 ≤ Format.alphaAt ⟨.eight, .bgra .eight⟩ ⟨"alpha", 3, 1, .alpha⟩ 4 out ∧
      |(Format.alphaAt ⟨.eight, .bgra .eight⟩ ⟨"alpha", 3, 1, .alpha⟩ 4 out' : ℤ) -
        Format.alphaAt ⟨.eight, .bgra .eight⟩ ⟨"alpha", 3, 1, .alpha⟩ 4 out| < 2 := by
  obtain ⟨out, hon, _, hsep⟩ := @alpha_does_not_drift ⟨.eight, .bgra .eight⟩
    [⟨4, ⟨#[9, 9, 9, 9, 10, 20, 30, 90], 4⟩, none, ⟨2, 1, 255, .over⟩, 1, 0⟩,
      ⟨8, ⟨#[9, 9, 9, 9, 40, 50, 60, 77], 8⟩, some ⟨#[0, 128], 2⟩, ⟨1, 2, 200, .screen⟩, 0, 1⟩]
    4 (by decide) ⟨"alpha", 3, 1, .alpha⟩ (by decide) #[5, 6, 7, 8, 1, 2, 3, 100]
    (by decide) (by decide) (by decide)
  obtain ⟨hraised, _, horders⟩ := hsep (by decide)
  obtain ⟨out', hon', hclose⟩ := horders _ (.swap ..)
  exact ⟨out, out', hon, hon', hraised, hclose⟩

end Layer

end PixelRecord
