import PixelRecord.Proofs.Composite.Record

/-!
What a separable operation makes of a record, channel by channel.

The formulas speak of all values of a record at once. Here they are read off one
channel at a time: the alpha is the union, and the value of a color depends on its old
value, its source value and the part of the way that all colors go. An effective alpha
of zero is no case of its own, because the part of the way is then zero as well.
-/

namespace PixelRecord

namespace Format

open Formula

variable {f : Format} {src before after : Bytes} {s p : Nat} {op : Op} {ch : Channel} {c : Int}

/-- The alpha of the record at byte `start`; a record without alpha is opaque. -/
def opaqueOr (f : Format) (buf : Bytes) (start : Nat) : Nat :=
  match f.layout.alpha? with
  | some ch => f.depth.load buf (start + ch.position)
  | none => f.depth.max

theorem opaqueOr_eq (f : Format) (buf : Bytes) (start : Nat) :
    (f.opaqueOr buf start : Int) = (f.valuesAt buf start).alpha.getD f.depth.max := by
  rw [opaqueOr, alpha_valuesAt]
  cases f.layout.alpha? with
  | none => rfl
  | some ch => rfl

theorem opaqueOr_le (f : Format) (buf : Bytes) (start : Nat) :
    f.opaqueOr buf start ≤ f.depth.max := by
  rw [opaqueOr]
  split
  · exact f.depth.load_le_max ..
  · exact le_rfl

theorem onScale_alpha (f : Format) (buf : Bytes) (p : Nat) :
    ∀ da ∈ (f.valuesAt buf p).alpha, OnScale f.depth.max da := by
  intro da hda
  obtain ⟨ch, -, rfl⟩ := Option.map_eq_some_iff.mp hda
  exact onScale_cast (f.depth.load_le_max ..)

theorem onScale_cover (d : Depth) (mask : Option UInt8) (opacity : UInt8) :
    OnScale d.max (Formula.cover d mask opacity) := by
  rw [← cover_eq]
  exact onScale_cast (cover_le mask opacity)

theorem onScale_effective (f : Format) (src : Bytes) (s : Nat)
    (hc : OnScale f.depth.max c) :
    OnScale f.depth.max (effective f.depth.max c (f.valuesAt src s)) := by
  have hmax := (FixedPoint.scale_max f.depth).cast_pos
  have hsrc := onScale_cast (f.opaqueOr_le src s)
  rw [effective, ← opaqueOr_eq]
  constructor
  · exact nearest_nonneg hmax (mul_nonneg hsrc.nonneg hc.nonneg)
  · exact nearest_le hmax (mul_le_mul hsrc.le hc.le hc.nonneg hmax.le)

/-- With no effective alpha a separable operation moves nothing, as its rule says. -/
theorem composited_eq_blended (hsep : op.isSeparable = true) (src dst : Bytes) (s p : Nat)
    (c : Int) :
    composited op f.depth.max c (f.valuesAt src s) (f.valuesAt dst p) =
      blended op f.depth.max (effective f.depth.max c (f.valuesAt src s)) (f.valuesAt src s)
        (f.valuesAt dst p) := by
  have hmax := (FixedPoint.scale_max f.depth).cast_pos
  rw [composited_of_separable hsep, ← effective]
  split
  · next hzero =>
    rw [hzero]
    refine PixelValues.ext ?_ ?_
    · show _ = List.zipWith (moved op _ (factor _ 0 _)) _ _
      rw [factor_zero hmax (f.onScale_alpha dst p)]
      simp [moved_zero hmax, List.zipWith_map, List.zipWith_self]
    · show _ = (f.valuesAt dst p).alpha.map (union f.depth.max 0)
      rw [show union f.depth.max 0 = id from funext fun da => union_zero hmax, Option.map_id, id]
  · rfl

/-- **One channel.** Alpha and colors of a record that a separable operation was
applied to. -/
theorem channels_of_composited (hsep : op.isSeparable = true)
    (h : f.valuesAt after p =
      composited op f.depth.max c (f.valuesAt src s) (f.valuesAt before p)) :
    (f.valuesAt after p).alpha = (f.valuesAt before p).alpha.map
        (union f.depth.max (effective f.depth.max c (f.valuesAt src s))) ∧
      ∀ ch ∈ f.layout.colors, (f.depth.load after (p + ch.position) : Int) =
        moved op f.depth.max
          (factor f.depth.max (effective f.depth.max c (f.valuesAt src s))
            (f.valuesAt before p).alpha)
          (f.depth.load src (s + ch.position)) (f.depth.load before (p + ch.position)) := by
  rw [composited_eq_blended hsep] at h
  refine ⟨congrArg PixelValues.alpha h, ?_⟩
  have hcolors := congrArg PixelValues.colors h
  rw [blended, colors_valuesAt, colors_valuesAt, colors_valuesAt, List.zipWith_map,
    List.zipWith_self, List.map_inj_left] at hcolors
  exact hcolors

theorem opaqueOr_of_composited (hsep : op.isSeparable = true)
    (h : f.valuesAt after p =
      composited op f.depth.max c (f.valuesAt src s) (f.valuesAt before p)) :
    (f.opaqueOr after p : Int) =
      union f.depth.max (effective f.depth.max c (f.valuesAt src s)) (f.opaqueOr before p) := by
  have hmax := (FixedPoint.scale_max f.depth).cast_pos
  rw [opaqueOr_eq, opaqueOr_eq, (channels_of_composited hsep h).1]
  cases (f.valuesAt before p).alpha with
  | none => exact (union_full hmax).symm
  | some da => rfl

theorem effectiveAlpha_eq_effective {c : Nat} (src : Bytes) (s : Nat) (hc : c ≤ f.depth.max) :
    (effectiveAlpha f.depth (f.opaqueOr src s) c : Int) =
      effective f.depth.max c (f.valuesAt src s) := by
  rw [effectiveAlpha_eq (f.opaqueOr_le src s) hc, opaqueOr_eq, effective]

/-- Compositing one record, on a buffer that holds it. -/
theorem compositeRecord_ends (hw : f.Wide) (op : Op) {c : Nat}
    (hsrc : s + f.recordSize ≤ src.size) (hdst : p + f.recordSize ≤ before.size)
    (hc : c ≤ f.depth.max) :
    ∃ after, (f.compositeRecord op c src s p).on before = (.ok (), after) ∧
      f.valuesAt after p =
        composited op f.depth.max c (f.valuesAt src s) (f.valuesAt before p) := by
  obtain ⟨⟨⟩, after, hon, -, -, hvalues⟩ :=
    Edit.Acts.ends (compositeRecord_turns hw op hsrc hdst hc) before rfl
  exact ⟨after, hon, hvalues⟩

end Format

end PixelRecord
