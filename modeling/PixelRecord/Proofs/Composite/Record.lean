import PixelRecord.Composite.Record
import PixelRecord.Proofs.Composite.Formula
import PixelRecord.Proofs.Record

/-!
One record composited onto another follows the formulas on its values.

The targets, the cover and the effective alpha are compared with their formulas
first; there the shortcuts for full and empty factors go away. What is left is
to follow the three ways of writing the destination record. Channels are read
and written one by one in place, which the formulas know nothing of: it does no
harm because a channel's bytes are not those of another.
-/

namespace PixelRecord

open FixedPoint Edit

/-! ### Targets -/

theorem Formula.composited_of_separable {op : Op} (h : op.isSeparable = true)
    {max cover : Int} {src dst : PixelValues} :
    composited op max cover src dst =
      if nearest (src.alpha.getD max * cover) max = 0 then dst
      else blended op max (nearest (src.alpha.getD max * cover) max) src dst := by
  cases op <;> first | rfl | cases h

namespace Op

theorem separable_cases (op : Op) : op = .copy ∨ op = .erase ∨ op.isSeparable = true := by
  cases op <;> simp [isSeparable]

variable {s d max : Nat}

theorem target_le (op : Op) (hmax : 0 < max) (hs : s ≤ max) (hd : d ≤ max) :
    op.target s d max ≤ max := by
  have hmul : mulDiv s d max ≤ s := mulDiv_le hmax hd
  cases op <;> simp only [target, Nat.max_def] <;> (try split) <;> omega

theorem target_eq (op : Op) (hscale : Scale max) (hs : s ≤ max) (hd : d ≤ max) :
    (op.target s d max : Int) = Formula.target op max s d := by
  cases op with
  | multiply => exact mulDiv_eq_nearest hscale hs hd
  | divide =>
      simp only [target, Formula.target, Int.min_comm (max : Int)]
      push_cast
      rfl
  | screen =>
      have hle : mulDiv (max - s) (max - d) max ≤ max - s := mulDiv_le hscale.pos (Nat.sub_le ..)
      have hcast := mulDiv_eq_nearest hscale (Nat.sub_le max s) (Nat.sub_le max d)
      push_cast [hs, hd] at hcast
      simp only [target, Formula.target]
      rw [← hcast]
      omega
  | lighten =>
      simp only [target, Formula.target]
      exact Nat.cast_max ..
  | subtract =>
      simp only [target, Formula.target]
      omega
  | add =>
      simp only [target, Formula.target]
      omega
  | «over» | copy | erase => rfl
  | darken => exact Nat.cast_min ..

end Op

namespace Format

variable {f : Format} {d : Depth}

/-! ### Cover and effective alpha -/

theorem cover_le (mask : Option UInt8) (opacity : UInt8) : cover d mask opacity ≤ d.max := by
  unfold cover
  split
  · exact d.widen_le_max opacity
  · split
    · exact d.widen_le_max opacity
    · exact (mulDiv_le d.max_pos (d.widen_le_max opacity)).trans (d.widen_le_max _)

theorem cover_eq (mask : Option UInt8) (opacity : UInt8) :
    (cover d mask opacity : Int) = Formula.cover d mask opacity := by
  have hfull : d.widen 255 = d.max := by cases d <;> rfl
  have hmax := (scale_max d).cast_pos
  have hone : Formula.nearest ((d.max : Int) * d.widen opacity) d.max = d.widen opacity := by
    rw [Int.mul_comm]
    exact Formula.nearest_mul_self hmax
  cases mask with
  | none => rw [cover, Formula.cover, Option.getD_none, hfull, hone]
  | some m =>
      simp only [cover, Formula.cover, Option.getD_some]
      split
      · next hm => rw [hm, hone]
      · exact mulDiv_eq_nearest (scale_max d) (d.widen_le_max m) (d.widen_le_max opacity)

variable {srcAlpha c : Nat}

theorem effectiveAlpha_le (hsrc : srcAlpha ≤ d.max) (hc : c ≤ d.max) :
    effectiveAlpha d srcAlpha c ≤ d.max := by
  rw [effectiveAlpha]
  split
  · exact hsrc
  · exact (mulDiv_le d.max_pos hc).trans hsrc

theorem effectiveAlpha_eq (hsrc : srcAlpha ≤ d.max) (hc : c ≤ d.max) :
    (effectiveAlpha d srcAlpha c : Int) = Formula.nearest (srcAlpha * c) d.max := by
  rw [effectiveAlpha]
  split
  · next hfull =>
    rw [hfull]
    exact (Formula.nearest_mul_self (scale_max d).cast_pos).symm
  · exact mulDiv_eq_nearest (scale_max d) hsrc hc

/-! ### Alphas of the destination -/

section Alpha

variable {da sa max : Nat}

theorem erasedAlpha_eq (hscale : Scale max) (hda : da ≤ max) (hsa : sa ≤ max) :
    (erasedAlpha da sa max : Int) = Formula.nearest (da * (max - sa)) max := by
  have hcast := mulDiv_eq_nearest hscale hda (Nat.sub_le max sa)
  push_cast [hsa] at hcast
  exact hcast

theorem unitedAlpha_eq (hscale : Scale max) (hda : da ≤ max) (hsa : sa ≤ max) :
    (unitedAlpha da sa max : Int) = Formula.union max sa da := by
  have hcast := mulDiv_eq_nearest hscale (Nat.sub_le max da) hsa
  push_cast [hda] at hcast
  rw [unitedAlpha, Nat.cast_add, hcast, Formula.union]

theorem unitedAlpha_le (hscale : Scale max) (hda : da ≤ max) (hsa : sa ≤ max) :
    unitedAlpha da sa max ≤ max := by
  have hle : mulDiv (max - da) sa max ≤ max - da := mulDiv_le hscale.pos hsa
  rw [unitedAlpha]
  omega

/-- A union is not less than either of its parts. -/
theorem le_unitedAlpha (hscale : Scale max) (hda : da ≤ max) (hsa : sa ≤ max) :
    sa ≤ unitedAlpha da sa max := by
  have hle : (sa : Int) ≤ Formula.union max sa da :=
    Formula.effective_le_union hscale.cast_pos (by exact_mod_cast hsa)
      (Int.natCast_nonneg da)
  rw [← unitedAlpha_eq hscale hda hsa] at hle
  exact_mod_cast hle

end Alpha

/-! ### Writing the destination record -/

variable {size s start : Nat} {src : Bytes} {ch : Channel} {sa k : Nat} {op : Op}

theorem copyChannel_turns (hsrc : ch.Holds f.depth src.size s)
    (hdst : ch.Holds f.depth size start) :
    ch.Turns f.depth (f.copyChannel src s start ch) size start fun _ =>
      f.depth.load src (s + ch.position) := by
  rw [copyChannel, Channel.load_eq_ok hsrc]
  exact Channel.store_turns hdst (f.depth.load_le_max ..)

theorem blendChannel_turns (op : Op) (hsrc : ch.Holds f.depth src.size s)
    (hdst : ch.Holds f.depth size start) (hk : k ≤ f.depth.max) :
    ch.Turns f.depth (f.blendChannel op k src s start ch) size start
      (Formula.moved op f.depth.max k (f.depth.load src (s + ch.position))) := by
  have hscale := scale_max f.depth
  have hsc := f.depth.load_le_max src (s + ch.position)
  rw [blendChannel, Channel.load_eq_ok hsrc]
  refine Channel.update_turns (g := fun dc =>
    blend (op.target (f.depth.load src (s + ch.position)) dc f.depth.max) dc k f.depth.max)
    hdst fun dc hdc => ?_
  have hblend := blend_eq_nearest hscale (op.target_le hscale.pos hsc hdc) hdc hk
  rw [Formula.moved, ← op.target_eq hscale hsc hdc]
  exact ⟨hblend.2, hblend.1⟩

theorem copyRecord_turns (hw : f.Wide) (hsrc : s + f.recordSize ≤ src.size)
    (hdst : start + f.recordSize ≤ size) (hsa : sa ≤ f.depth.max) :
    f.Turns (f.copyRecord sa src s start) size start fun v =>
      ⟨(f.valuesAt src s).colors, v.alpha.map fun _ => sa⟩ := by
  have hcolors := hw.turns_colors fun ch hch =>
    copyChannel_turns (hw.holds (Layout.mem_of_mem_colors hch) hsrc)
      (hw.holds (Layout.mem_of_mem_colors hch) hdst)
  rw [copyRecord]
  split
  · next alpha halpha =>
    have hstore := Channel.store_turns (hw.holds (Layout.mem_of_alpha? halpha) hdst) hsa
    apply (hcolors.seq (hw.turns_alpha halpha hstore)).congr
    intro a
    simp [valuesAt, List.zipWith_self, List.zipWith_map_right]
  · next hnone =>
    rw [bind_pure_unit]
    apply hcolors.congr
    intro a
    simp [valuesAt, hnone, List.zipWith_self, List.zipWith_map_right]

theorem eraseRecord_turns (hw : f.Wide) (hdst : start + f.recordSize ≤ size)
    (hsa : sa ≤ f.depth.max) :
    f.Turns (f.eraseRecord sa start) size start fun v =>
      ⟨v.colors, v.alpha.map fun da => Formula.nearest (da * (f.depth.max - sa)) f.depth.max⟩ := by
  have hscale := scale_max f.depth
  rw [eraseRecord]
  split
  · next alpha halpha =>
    refine hw.turns_alpha halpha (Channel.update_turns (g := fun da =>
      erasedAlpha da sa f.depth.max) (hw.holds (Layout.mem_of_alpha? halpha) hdst) fun da hda => ?_)
    exact ⟨(mulDiv_le hscale.pos (Nat.sub_le ..)).trans hda, erasedAlpha_eq hscale hda hsa⟩
  · next hnone =>
    apply turns_pure.congr
    intro a
    simp [valuesAt, hnone]

/-- Taking in `sa` leaves the colors alone and gives the share that they are to
move by. Over an opaque destination nothing is written, which is what the
formula comes to there. -/
theorem uniteAlpha_ends (hw : f.Wide) {buf : Bytes} (hdst : start + f.recordSize ≤ buf.size)
    (hpos : 0 < sa) (hsa : sa ≤ f.depth.max) :
    (f.uniteAlpha sa start).Ends buf fun k out =>
      out.size = buf.size ∧ AgreeOn (fun j => ¬ f.Keeps start j) out buf ∧ k ≤ f.depth.max ∧
        let alpha := Formula.united f.depth.max sa (f.valuesAt buf start).alpha
        f.valuesAt out start = ⟨(f.valuesAt buf start).colors, alpha⟩ ∧
          (k : Int) = Formula.share f.depth.max sa alpha := by
  have hscale := scale_max f.depth
  have hmax := hscale.cast_pos
  rw [uniteAlpha]
  split
  · next ch halpha =>
    have hch := hw.holds (Layout.mem_of_alpha? halpha) hdst
    have hda := f.depth.load_le_max buf (start + ch.position)
    have hold : (f.valuesAt buf start).alpha = some ↑(f.depth.load buf (start + ch.position)) := by
      rw [valuesAt, halpha, Option.map_some]
    refine ends_get_bind (ends_liftM_bind (Channel.load_eq_ok hch) ?_)
    rw [hold]
    simp only [Formula.united_some, Formula.share]
    generalize hda' : f.depth.load buf (start + ch.position) = da at hda hold
    split
    · have hle := unitedAlpha_le hscale hda hsa
      have hge := le_unitedAlpha hscale hda hsa
      have hstore := hw.turns_alpha halpha (Channel.store_turns hch hle)
      refine (hstore.ends buf rfl).bind fun _ out hout => ends_pure ?_
      obtain ⟨hsize, hframe, hvalues⟩ := hout
      dsimp only at hvalues
      rw [hold, Option.map_some] at hvalues
      rw [← unitedAlpha_eq hscale hda hsa]
      exact ⟨hsize, hframe, divNorm_le, hvalues, divNorm_eq_nearest hscale (by omega) hge⟩
    -- Over an opaque destination the formula adds the integer nearest to zero.
    · obtain rfl : da = f.depth.max := by omega
      refine ends_pure ⟨rfl, .refl, hsa, ?_, ?_⟩
      · rw [Formula.union_full hmax, ← hold]
      · rw [Formula.union_full hmax, Formula.nearest_mul_self hmax]
  · next hnone =>
    have hold : (f.valuesAt buf start).alpha = none := by
      rw [valuesAt, hnone, Option.map_none]
    refine ends_pure ⟨rfl, .refl, hsa, ?_, ?_⟩
    · rw [hold, Formula.united, Option.map_none, ← hold]
    · rw [hold, Formula.united, Option.map_none, Formula.share]

theorem blendRecord_turns (hw : f.Wide) (op : Op) (hsrc : s + f.recordSize ≤ src.size)
    (hdst : start + f.recordSize ≤ size) (hpos : 0 < sa) (hsa : sa ≤ f.depth.max) :
    f.Turns (f.blendRecord op sa src s start) size start
      (Formula.blended op f.depth.max sa (f.valuesAt src s)) where
  looksAt := f.looksAt_valuesAt start _
  ends buf hbuf := by
    refine (uniteAlpha_ends hw (hbuf ▸ hdst) hpos hsa).bind
      fun k mid ⟨hsize, hframe, hk, hvalues, hshare⟩ => ?_
    -- The alpha has changed by now, but no color is read from where it lies.
    have hcolors := hw.turns_colors fun ch hch =>
      blendChannel_turns op (hw.holds (Layout.mem_of_mem_colors hch) hsrc)
        (hw.holds (Layout.mem_of_mem_colors hch) hdst) hk
    refine (hcolors.ends mid (hsize.trans hbuf)).mono
      fun _ out ⟨hsize', hframe', hvalues'⟩ => ⟨hsize', hframe'.trans hframe, ?_⟩
    rw [hvalues', hvalues, Formula.blended, ← hshare]
    simp only [valuesAt, List.zipWith_map_left]

theorem sourceAlpha_eq_ok (hw : f.Wide) (hsrc : s + f.recordSize ≤ src.size) :
    ∃ a, f.sourceAlpha src s = .ok a ∧ a ≤ f.depth.max ∧
      (a : Int) = (f.valuesAt src s).alpha.getD f.depth.max := by
  rw [alpha_valuesAt, sourceAlpha]
  split
  · next ch halpha =>
    refine ⟨_, Channel.load_eq_ok (hw.holds (Layout.mem_of_alpha? halpha) hsrc),
      f.depth.load_le_max .., ?_⟩
    rw [halpha, Option.map_some, Option.getD_some]
  · next hnone =>
    refine ⟨_, rfl, le_rfl, ?_⟩
    rw [hnone, Option.map_none, Option.getD_none]

theorem layRecord_of_separable (h : op.isSeparable = true) :
    f.layRecord op sa src s start =
      if sa = 0 then pure () else f.blendRecord op sa src s start := by
  cases op <;> first | rfl | cases h

theorem layRecord_turns (hw : f.Wide) (op : Op) (hsrc : s + f.recordSize ≤ src.size)
    (hdst : start + f.recordSize ≤ size) (hsa : sa ≤ f.depth.max) (hc : c ≠ 0)
    (heff : (sa : Int) =
      Formula.nearest ((f.valuesAt src s).alpha.getD f.depth.max * c) f.depth.max) :
    f.Turns (f.layRecord op sa src s start) size start
      (Formula.composited op f.depth.max c (f.valuesAt src s)) := by
  have hc' : (c : Int) ≠ 0 := by omega
  obtain rfl | rfl | hsep := op.separable_cases
  -- Copying does not ask whether `sa` is zero; here the cover alone decides.
  · apply (copyRecord_turns hw hsrc hdst hsa).congr
    intro a
    rw [Formula.composited, ← heff, if_neg hc']
  · rw [layRecord]
    split
    · next hzero =>
      apply turns_pure.congr
      intro a
      rw [Formula.composited, ← heff, if_pos (by omega), id]
    · next hzero =>
      apply (eraseRecord_turns hw hdst hsa).congr
      intro a
      rw [Formula.composited, ← heff, if_neg (by omega)]
  · rw [layRecord_of_separable hsep]
    split
    · next hzero =>
      apply turns_pure.congr
      intro a
      rw [Formula.composited_of_separable hsep, ← heff, if_pos (by omega), id]
    · next hzero =>
      apply (blendRecord_turns hw op hsrc hdst (by omega) hsa).congr
      intro a
      rw [Formula.composited_of_separable hsep, ← heff, if_neg (by omega)]

/-- **One record.** Compositing a record turns its values into those that the
formula gives for them and for the values of the source record. -/
theorem compositeRecord_turns (hw : f.Wide) (op : Op) (hsrc : s + f.recordSize ≤ src.size)
    (hdst : start + f.recordSize ≤ size) (hc : c ≤ f.depth.max) :
    f.Turns (f.compositeRecord op c src s start) size start
      (Formula.composited op f.depth.max c (f.valuesAt src s)) := by
  have hmax := (scale_max f.depth).cast_pos
  rw [compositeRecord]
  split
  · next hzero =>
    apply turns_pure.congr
    intro a
    subst hzero
    cases op <;> simp [Formula.composited, Formula.nearest_zero hmax]
  · next hcover =>
    obtain ⟨a, ha, hle, halpha⟩ := sourceAlpha_eq_ok hw hsrc
    rw [ha]
    refine layRecord_turns hw op hsrc hdst (effectiveAlpha_le hle hc) hcover ?_
    rw [← halpha]
    exact effectiveAlpha_eq hle hc

end Format

end PixelRecord
