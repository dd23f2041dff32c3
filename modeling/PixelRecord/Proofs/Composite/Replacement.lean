import PixelRecord.Proofs.Composite.Rectangle
import PixelRecord.Proofs.Composite.Separable

/-!
Sources that alone are seen.

Nothing is seen of a destination under an opaque source, and nothing of one that was
transparent itself, whatever color it hides. In both cases the union has the effective
alpha of the source, which makes up all of it: the quotient of the two is the whole, and a
color that goes the whole way arrives. No rounding is left in any of the three steps. For
`over` the end of the way is the source color, so that it does what `copy` does.
-/

namespace PixelRecord

open Edit

/-! ### The formulas at their ends -/

namespace Formula

variable {op : Op} {max sa da k s d cover : Int} {alpha : Option Int} {src dst : PixelValues}

theorem union_opaque (hmax : 0 < max) : union max max da = max := by
  rw [union, nearest_mul_self hmax, add_sub_cancel]

theorem union_transparent (hmax : 0 < max) : union max sa 0 = sa := by
  rw [union, Int.sub_zero, Int.mul_comm, nearest_mul_self hmax, Int.zero_add]

/-- A color that goes the whole way is at its target. -/
theorem moved_whole (hmax : 0 < max) : moved op max max s d = target op max s d := by
  rw [moved, nearest_mul_self hmax, add_sub_cancel]

/-- Under an effective alpha `sa` nothing is seen of a destination: the source is opaque
there, or it is seen at all and the destination is transparent. -/
def Alone (max sa : Int) (alpha : Option Int) : Prop := sa = max ∨ 0 < sa ∧ alpha = some 0

instance : Decidable (Alone max sa alpha) := inferInstanceAs (Decidable (_ ∨ _))

theorem Alone.pos (hmax : 0 < max) (h : Alone max sa alpha) : 0 < sa := by
  rcases h with rfl | ⟨hpos, -⟩
  · exact hmax
  · exact hpos

theorem Alone.united_eq (hmax : 0 < max) (h : Alone max sa alpha) :
    united max sa alpha = alpha.map fun _ => sa := by
  rcases h with rfl | ⟨-, rfl⟩
  · exact congrArg alpha.map (funext fun da => union_opaque hmax)
  · exact congrArg some (union_transparent hmax)

/-- The source makes up all of the union. -/
theorem Alone.factor_eq (hmax : 0 < max) (h : Alone max sa alpha) :
    factor max sa alpha = max := by
  have hpos := h.pos hmax
  rw [factor, h.united_eq hmax]
  cases alpha with
  | none => exact h.resolve_right (by simp)
  | some da =>
    show nearest (sa * max) sa = max
    rw [Int.mul_comm, nearest_mul_self hpos]

/-- Every color arrives at its target, whatever the separable operation. -/
theorem Alone.blended_eq (hmax : 0 < max) (h : Alone max sa dst.alpha) :
    blended op max sa src dst =
      ⟨List.zipWith (target op max) src.colors dst.colors, dst.alpha.map fun _ => sa⟩ := by
  have hmoved : moved op max max = target op max := funext₂ fun s d => moved_whole hmax
  refine PixelValues.ext ?_ (h.united_eq hmax)
  show List.zipWith (moved op max (factor max sa dst.alpha)) _ _ = _
  rw [h.factor_eq hmax, hmoved]

/-- Without any cover there is no effective alpha. -/
theorem effective_zero (hmax : 0 < max) : effective max 0 src = 0 := by
  rw [effective, Int.mul_zero, nearest_zero hmax]

end Formula

/-! ### Records under such a source -/

namespace Format

open Formula

variable {f : Format} {stride : Nat} {src : Surface} {mask : Option Mask} {what : Composition}

/-- The source record in its place: its colors, and its effective alpha. -/
def replacement (f : Format) (src : Bytes) (s : Nat) (sa : Int) : PixelValues :=
  ⟨(f.valuesAt src s).colors, f.layout.alpha?.map fun _ => sa⟩

theorem composited_of_alone {op : Op} (hop : op = .over ∨ op = .copy) {src dst : Bytes}
    {s p : Nat} {cover : Int}
    (h : Alone f.depth.max (effective f.depth.max cover (f.valuesAt src s))
      (f.valuesAt dst p).alpha) :
    composited op f.depth.max cover (f.valuesAt src s) (f.valuesAt dst p) =
      f.replacement src s (effective f.depth.max cover (f.valuesAt src s)) := by
  have hmax := (FixedPoint.scale_max f.depth).cast_pos
  have halpha {sa : Int} : (f.valuesAt dst p).alpha.map (fun _ => sa) =
      f.layout.alpha?.map fun _ => sa := Option.map_map ..
  rcases hop with rfl | rfl
  · rw [composited_eq_blended rfl, h.blended_eq hmax, halpha, replacement]
    congr 1
    -- The target is the source color, and both records have the same channels.
    simp [target, List.zipWith_map, List.zipWith_self]
  · have hcover : cover ≠ 0 := by
      rintro rfl
      exact (h.pos hmax).ne' (effective_zero hmax)
    show (if cover = 0 then _ else PixelValues.mk _ _) = _
    rw [if_neg hcover, halpha]
    rfl

theorem valuesAt_of_alone (hw : f.Wide) (hop : what.op = .over ∨ what.op = .copy)
    {buf out : Bytes} (h : (f.composite stride src mask what).on buf = (.ok (), out)) {r c : Nat}
    (hr : r < what.rows) (hc : c < what.cols) :
    let s := r * src.stride + c * f.recordSize
    let p := r * stride + c * f.recordSize
    let sa := effective f.depth.max
      (Formula.cover f.depth (mask.map fun m => m.byteAt r c) what.opacity)
      (f.valuesAt src.bytes s)
    Alone f.depth.max sa (f.valuesAt buf p).alpha →
      f.valuesAt out p = f.replacement src.bytes s sa :=
  fun halone => ((composited_of_on hw h).cells r hr c hc).trans (composited_of_alone hop halone)

/-- **Replacement.** `over` and `copy` answer alike. Where nothing is seen of the
destination they leave the same record, the colors of the source with its effective
alpha. -/
theorem composite_over_copy (he : f.Exact) (stride : Nat) (src : Surface) (mask : Option Mask)
    (what : Composition) (buf : Bytes) :
    let laid := (f.composite stride src mask { what with op := .over }).on buf
    let copied := (f.composite stride src mask { what with op := .copy }).on buf
    laid.1 = copied.1 ∧ ∀ r < what.rows, ∀ c < what.cols,
      let s := r * src.stride + c * f.recordSize
      let p := r * stride + c * f.recordSize
      let sa := effective f.depth.max
        (Formula.cover f.depth (mask.map fun m => m.byteAt r c) what.opacity)
        (f.valuesAt src.bytes s)
      Alone f.depth.max sa (f.valuesAt buf p).alpha →
        (∀ t < f.recordSize, laid.2[p + t]? = copied.2[p + t]?) ∧
          (laid.1 = .ok () → f.valuesAt laid.2 p = f.replacement src.bytes s sa) := by
  intro laid copied
  -- The geometry check does not ask for the operation.
  have hcheck : f.checkComposite buf.size stride src mask { what with op := .copy } =
      f.checkComposite buf.size stride src mask { what with op := .over } := rfl
  obtain ⟨hanswer, hrecords⟩ := composite_agree he.wide buf hcheck rfl
  refine ⟨hanswer, ?_⟩
  intro r hr c hc s p sa halone
  have hlay := composited_of_alone (f := f) (.inl rfl) halone
  have hcopy := composited_of_alone (f := f) (.inr rfl) halone
  refine ⟨hrecords r hr c hc (hlay.trans hcopy.symm), fun hok => ?_⟩
  exact valuesAt_of_alone he.wide (.inl rfl) (Prod.ext hok rfl) hr hc halone

/-- Two pixels: under the first the source is opaque, and the second is transparent but hides
a color, with a source that its own alpha and the mask let through in part. -/
theorem composite_over_copy_two_pixels :
    let outcome (op : Op) := (composite ⟨.eight, .bgra .eight⟩ 8 ⟨#[1, 2, 3, 255, 4, 5, 6, 200], 8⟩
      (some ⟨#[255, 128], 2⟩) ⟨1, 2, 255, op⟩).on #[10, 20, 30, 40, 90, 80, 70, 0]
    (outcome .over).1 = (outcome .copy).1 ∧
      (∀ t < 4, (outcome .over).2[0 * 8 + 0 * 4 + t]? = (outcome .copy).2[0 * 8 + 0 * 4 + t]?) ∧
      valuesAt ⟨.eight, .bgra .eight⟩ (outcome .over).2 (0 * 8 + 1 * 4) =
        ⟨[6, 5, 4], some 100⟩ := by
  intro outcome
  obtain ⟨hanswer, hrecords⟩ := composite_over_copy (f := ⟨.eight, .bgra .eight⟩) (by decide) 8
    ⟨#[1, 2, 3, 255, 4, 5, 6, 200], 8⟩ (some ⟨#[255, 128], 2⟩) ⟨1, 2, 255, .over⟩
    #[10, 20, 30, 40, 90, 80, 70, 0]
  refine ⟨hanswer, ?_, ?_⟩
  · exact (hrecords 0 (by decide) 0 (by decide) (by decide)).1
  · exact (hrecords 0 (by decide) 1 (by decide) (by decide)).2 (by decide +kernel)

end Format

end PixelRecord
