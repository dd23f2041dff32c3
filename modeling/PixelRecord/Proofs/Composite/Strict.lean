import PixelRecord.Composite.Strict
import PixelRecord.Proofs.Composite.Separable

/-!
No allowance is ever made.

Compositing in strict arithmetic is compositing: the two are the same call, on every
buffer. So no product was too large, no word was cut, no stored value was clamped, no
quotient was clamped and none was taken of zero. Each step is bounded in the terms of
the step before it: a rounded product is at most each of its factors, a union at least
each of its parts and at most full, and a step does not go past the target.
-/

namespace PixelRecord

open FixedPoint Edit

theorem Depth.max_lt (d : Depth) : d.max < 2 ^ 16 := by cases d <;> decide

namespace FixedPoint.Strict

variable {max a b : Nat}

theorem fit_eq_ok {bits : Nat} {v : Int} (h : v.natAbs < 2 ^ bits) : fit bits v = .ok v := if_pos h

/-- A product of natural numbers stays one. -/
theorem fit_mul (h : a * b < 2 ^ 63) :
    fit 63 ((a : Int) * b) = .ok ((a * b : Nat) : Int) := by
  rw [← Int.natCast_mul]
  exact fit_eq_ok (by omega)

theorem onScale_eq_ok {v : Nat} (h : v ≤ max) : onScale max v = .ok v :=
  if_pos ⟨Int.natCast_nonneg v, by exact_mod_cast h⟩

theorem onScale_sub (a : Nat) (h : a ≤ max) : onScale max ((max : Int) - a) = .ok (max - a) := by
  rw [← Int.ofNat_sub h]
  exact onScale_eq_ok (Nat.sub_le ..)

theorem divRound_eq_ok {num den : Nat} (hden : 0 < den) (h : num + den / 2 < 2 ^ 63) :
    divRound num den = .ok ((FixedPoint.divRound num den : Nat) : Int) := by
  have hne : (den : Int) ≠ 0 := by omega
  have hfit : fit 63 ((num : Int) + (den : Int) / 2) = .ok ((num : Int) + (den : Int) / 2) :=
    fit_eq_ok (by omega)
  rw [divRound, if_neg hne, hfit, FixedPoint.divRound]
  push_cast
  rfl

/-- Products of values of a scale below `2 ^ 16` leave room for all that is added. -/
theorem mul_lt (hmax : max < 2 ^ 16) (ha : a ≤ max) (hb : b ≤ max) : a * b < 2 ^ 32 :=
  calc a * b ≤ max * max := Nat.mul_le_mul ha hb
    _ < 2 ^ 16 * 2 ^ 16 := Nat.mul_lt_mul'' hmax hmax

theorem mulDiv_eq_ok (hmax : max < 2 ^ 16) (hpos : 0 < max) (ha : a ≤ max) (hb : b ≤ max) :
    mulDiv a b max = .ok (FixedPoint.mulDiv a b max) := by
  have hprod := mul_lt hmax ha hb
  have hle : FixedPoint.divRound (a * b) max ≤ a := divRound_le hpos (Nat.mul_le_mul_left a hb)
  have hword : FixedPoint.mulDiv a b max = FixedPoint.divRound (a * b) max :=
    word_of_lt (by simp only [wordValues]; omega)
  rw [mulDiv, fit_mul (by omega), ok_bind, divRound_eq_ok hpos (by omega), ok_bind, hword]
  exact onScale_eq_ok (hle.trans ha)

theorem divNorm_eq_ok (hmax : max < 2 ^ 16) (hb : 0 < b) (hab : a ≤ b) (hbmax : b ≤ max) :
    divNorm a b max = .ok (FixedPoint.divNorm a b max) := by
  have hprod := mul_lt hmax (hab.trans hbmax) (le_refl max)
  have hle : FixedPoint.divRound (a * max) b ≤ max :=
    divRound_le hb (by rw [Nat.mul_comm max]; exact Nat.mul_le_mul_right max hab)
  have hword : FixedPoint.divNorm a b max = FixedPoint.divRound (a * max) b := by
    rw [FixedPoint.divNorm, if_neg (by omega), word_of_lt (by simp only [wordValues]; omega),
      Nat.min_eq_left hle]
  rw [divNorm, fit_mul (by omega), ok_bind, divRound_eq_ok hb (by omega), ok_bind, hword]
  exact onScale_eq_ok hle

-- Off the scale the two part: a clamp there is a fault here.
example : divNorm 2 1 255 = .error (.fault .overflow) ∧ FixedPoint.divNorm 2 1 255 = 255 := by
  decide

theorem divRoundAway_eq_ok {src dst k : Nat} (hmax : 0 < max)
    (h : (((src : Int) - dst) * k).natAbs + max / 2 < 2 ^ 63) :
    divRoundAway (((src : Int) - dst) * k) max = .ok (blendStep src dst k max) := by
  rw [divRoundAway, blendStep]
  generalize ((src : Int) - dst) * k = delta at h
  have hne : (max : Int) ≠ 0 := by omega
  have hfit {num : Int} (hnum : num.natAbs ≤ delta.natAbs) :
      fit 63 (num + (max : Int) / 2) = .ok (num + (max : Int) / 2) := fit_eq_ok (by omega)
  split
  · rw [divRound, if_neg hne, hfit le_rfl]
    rfl
  · rw [divRound, if_neg hne, hfit (Int.natAbs_neg delta).le]
    rfl

theorem blend_eq_ok {src dst k : Nat} (hscale : Scale max) (hmax : max < 2 ^ 16)
    (hsrc : src ≤ max) (hdst : dst ≤ max) (hk : k ≤ max) :
    blend src dst k max = .ok (FixedPoint.blend src dst k max) := by
  have hgap : ((src : Int) - dst).natAbs ≤ max := by omega
  have hdelta : (((src : Int) - dst) * k).natAbs < 2 ^ 32 := by
    rw [Int.natAbs_mul, Int.natAbs_natCast]
    exact mul_lt hmax hgap hk
  obtain ⟨hvalue, hle⟩ := blend_eq_nearest hscale hsrc hdst hk
  rw [← blendStep_eq_nearest hscale] at hvalue
  rw [blend, fit_eq_ok (by omega), ok_bind, fit_eq_ok (by omega), ok_bind,
    divRoundAway_eq_ok hscale.pos (by omega), ok_bind, ← hvalue]
  exact onScale_eq_ok hle

end FixedPoint.Strict

open FixedPoint.Strict in
theorem Op.strictTarget_eq_ok (op : Op) {s d max : Nat} (hscale : Scale max) (hmax : max < 2 ^ 16)
    (hs : s ≤ max) (hd : d ≤ max) : op.strictTarget s d max = .ok (op.target s d max) := by
  have hle := op.target_le hscale.pos hs hd
  cases op with
  | multiply => exact mulDiv_eq_ok hmax hscale.pos hs hd
  | divide =>
      have hprod : d * (max + 1) < 2 ^ 48 :=
        calc d * (max + 1) ≤ max * 2 ^ 16 := Nat.mul_le_mul hd hmax
          _ < 2 ^ 16 * 2 ^ 16 := Nat.mul_lt_mul_of_pos_right hmax (by decide)
          _ < 2 ^ 48 := by decide
      have hone : fit 63 ((max : Int) + 1) = .ok ((max + 1 : Nat) : Int) := fit_eq_ok (by omega)
      have hnum : fit 63 (((d * (max + 1) : Nat) : Int) + (s / 2 : Nat)) =
          .ok ((d * (max + 1) + s / 2 : Nat) : Int) := fit_eq_ok (by omega)
      have hden : fit 63 ((s : Int) + 1) = .ok ((s + 1 : Nat) : Int) := fit_eq_ok (by omega)
      rw [strictTarget, hone, ok_bind, fit_mul (by omega), ok_bind, hnum, ok_bind, hden, ok_bind,
        ← Int.natCast_ediv, ← Nat.cast_min]
      exact onScale_eq_ok hle
  | screen =>
      rw [strictTarget, onScale_sub s hs, ok_bind, onScale_sub d hd, ok_bind,
        mulDiv_eq_ok hmax hscale.pos (Nat.sub_le ..) (Nat.sub_le ..), ok_bind]
      exact onScale_sub _ ((mulDiv_le hscale.pos (Nat.sub_le ..)).trans (Nat.sub_le ..))
  | add =>
      have hsum : fit 32 ((s : Int) + d) = .ok ((s + d : Nat) : Int) := fit_eq_ok (by omega)
      rw [strictTarget, hsum, ok_bind, ← Nat.cast_min]
      exact onScale_eq_ok hle
  | «over» | darken | lighten | subtract | copy | erase => exact onScale_eq_ok hle

namespace Format

variable {f : Format} {src buf : Bytes} {s d sa k c : Nat} {ch : Channel} {op : Op}

/-! ### Answers on the scale -/

theorem answers_load (f : Format) (ch : Channel) (buf : Bytes) (start : Nat) :
    (liftM (ch.load f.depth buf start) : Edit Nat).Answers (· ≤ f.depth.max) := by
  apply answers_liftM
  intro v h
  rw [Channel.load] at h
  split at h
  · cases h
    exact f.depth.load_le_max ..
  · cases h

theorem answers_sourceAlpha (f : Format) (src : Bytes) (s : Nat) :
    (liftM (f.sourceAlpha src s) : Edit Nat).Answers (· ≤ f.depth.max) := by
  rw [sourceAlpha]
  split
  · exact f.answers_load _ src s
  · apply answers_liftM
    rintro a ⟨⟩
    exact le_rfl

theorem answers_uniteAlpha (hsa : sa ≤ f.depth.max) :
    (f.uniteAlpha sa d).Answers (· ≤ f.depth.max) := by
  rw [uniteAlpha]
  split
  · refine answers_any.bind fun buf _ => (f.answers_load _ buf d).bind fun da _ => ?_
    split
    · exact answers_any.bind fun _ _ => answers_pure divNorm_le
    · exact answers_pure hsa
  · exact answers_pure hsa

/-! ### The same call -/

namespace Strict

theorem store_eq {v : Nat} (hv : v ≤ f.depth.max) : store f ch d v = ch.store f.depth d v := by
  rw [store, Strict.onScale_eq_ok hv, liftM_ok_bind]

theorem effectiveAlpha_eq_ok {a : Nat} (ha : a ≤ f.depth.max) (hc : c ≤ f.depth.max) :
    effectiveAlpha f.depth a c = .ok (Format.effectiveAlpha f.depth a c) := by
  rw [effectiveAlpha, Format.effectiveAlpha]
  split
  · exact Strict.onScale_eq_ok ha
  · exact Strict.mulDiv_eq_ok f.depth.max_lt f.depth.max_pos ha hc

theorem copyRecord_eq (hsa : sa ≤ f.depth.max) :
    copyRecord f sa src s d = f.copyRecord sa src s d := by
  have hcolors : f.layout.colors.forM (copyChannel f src s d) =
      f.layout.colors.forM (f.copyChannel src s d) :=
    forM_congr fun ch _ => (f.answers_load ch src s).bind_congr fun v hv => store_eq hv
  rw [copyRecord, Format.copyRecord, hcolors]
  cases f.layout.alpha? with
  | none => rfl
  | some ch =>
    dsimp only
    rw [store_eq hsa]

theorem eraseRecord_eq (hsa : sa ≤ f.depth.max) : eraseRecord f sa d = f.eraseRecord sa d := by
  rw [eraseRecord, Format.eraseRecord]
  cases f.layout.alpha? with
  | none => rfl
  | some ch =>
    refine get_bind_congr fun buf => (f.answers_load ch buf d).bind_congr fun da hda => ?_
    have hle : erasedAlpha da sa f.depth.max ≤ da := mulDiv_le f.depth.max_pos (Nat.sub_le ..)
    rw [Strict.onScale_sub sa hsa, liftM_ok_bind,
      Strict.mulDiv_eq_ok f.depth.max_lt f.depth.max_pos hda (Nat.sub_le ..), liftM_ok_bind]
    exact store_eq (hle.trans hda)

theorem uniteAlpha_eq (hpos : 0 < sa) (hsa : sa ≤ f.depth.max) :
    uniteAlpha f sa d = f.uniteAlpha sa d := by
  have hscale := scale_max f.depth
  rw [uniteAlpha, Format.uniteAlpha]
  cases f.layout.alpha? with
  | none => rfl
  | some ch =>
    refine get_bind_congr fun buf => (f.answers_load ch buf d).bind_congr fun da hda => ?_
    split
    · have hle := unitedAlpha_le hscale hda hsa
      have hge := le_unitedAlpha hscale hda hsa
      have hsum : Strict.onScale f.depth.max
          ((da : Int) + mulDiv (f.depth.max - da) sa f.depth.max) =
            .ok (unitedAlpha da sa f.depth.max) := Strict.onScale_eq_ok hle
      rw [Strict.onScale_sub da hda, liftM_ok_bind,
        Strict.mulDiv_eq_ok f.depth.max_lt f.depth.max_pos (Nat.sub_le ..) hsa, liftM_ok_bind, hsum,
        liftM_ok_bind, store_eq hle,
        Strict.divNorm_eq_ok f.depth.max_lt (hpos.trans_le hge) hge hle]
      rfl
    · rfl

theorem blendChannel_eq (op : Op) (hk : k ≤ f.depth.max) :
    blendChannel f op k src s d ch = f.blendChannel op k src s d ch := by
  have hscale := scale_max f.depth
  refine (f.answers_load ch src s).bind_congr fun sc hsc => get_bind_congr fun buf =>
    (f.answers_load ch buf d).bind_congr fun dc hdc => ?_
  have htarget := op.target_le hscale.pos hsc hdc
  rw [op.strictTarget_eq_ok hscale f.depth.max_lt hsc hdc, liftM_ok_bind,
    Strict.blend_eq_ok hscale f.depth.max_lt htarget hdc hk, liftM_ok_bind]
  exact store_eq (blend_eq_nearest hscale htarget hdc hk).2

theorem blendRecord_eq (op : Op) (hpos : 0 < sa) (hsa : sa ≤ f.depth.max) :
    blendRecord f op sa src s d = f.blendRecord op sa src s d := by
  rw [blendRecord, uniteAlpha_eq hpos hsa]
  exact (answers_uniteAlpha hsa).bind_congr fun k hk =>
    forM_congr fun ch _ => blendChannel_eq op hk

theorem layRecord_eq (op : Op) (hsa : sa ≤ f.depth.max) :
    layRecord f op sa src s d = f.layRecord op sa src s d := by
  have hblend : (if sa = 0 then pure () else blendRecord f op sa src s d) =
      if sa = 0 then pure () else f.blendRecord op sa src s d := by
    split
    · rfl
    · exact blendRecord_eq op (by omega) hsa
  cases op with
  | copy => exact copyRecord_eq hsa
  | erase =>
      rw [layRecord, Format.layRecord, eraseRecord_eq hsa]
  | «over» | multiply | divide | screen | darken | lighten | add | subtract => exact hblend

/-- **The same call.** In strict arithmetic a record is composited as ever, with every
operation and cover, whatever is in the buffers. -/
theorem compositeRecord_eq (op : Op) (hc : c ≤ f.depth.max) :
    compositeRecord f op c src s d = f.compositeRecord op c src s d := by
  rw [compositeRecord, Format.compositeRecord]
  split
  · rfl
  · refine (f.answers_sourceAlpha src s).bind_congr fun a ha => ?_
    rw [effectiveAlpha_eq_ok ha hc, liftM_ok_bind]
    exact layRecord_eq op (effectiveAlpha_le ha hc)

end Strict

/-! ### What a record becomes -/

section Result

variable {before after : Bytes} {p : Nat} {c : Int}

/-- No color of the record at byte `p` has passed its target. -/
def Between (f : Format) (op : Op) (src : Bytes) (s : Nat) (before : Bytes) (p : Nat)
    (after : Bytes) : Prop :=
  ∀ ch ∈ f.layout.colors,
    let old := f.depth.load before (p + ch.position)
    let target := op.target (f.depth.load src (s + ch.position)) old f.depth.max
    min old target ≤ f.depth.load after (p + ch.position) ∧
      f.depth.load after (p + ch.position) ≤ max old target

instance (f : Format) (op : Op) (src : Bytes) (s : Nat) (before : Bytes) (p : Nat)
    (after : Bytes) : Decidable (f.Between op src s before p after) :=
  List.decidableBAll _ f.layout.colors

theorem between_of_composited (hop : op ≠ .copy) (hc : Formula.OnScale f.depth.max c)
    (h : f.valuesAt after p =
      Formula.composited op f.depth.max c (f.valuesAt src s) (f.valuesAt before p)) :
    f.Between op src s before p after := by
  intro ch hch
  have hscale := scale_max f.depth
  have hmax := hscale.cast_pos
  have hs := f.depth.load_le_max src (s + ch.position)
  have hd := f.depth.load_le_max before (p + ch.position)
  dsimp only
  obtain rfl | rfl | hsep := op.separable_cases
  · exact absurd rfl hop
  -- Erasing keeps the colors, and the target of a color is then its old value.
  · have hcolors : (f.valuesAt after p).colors = (f.valuesAt before p).colors := by
      rw [h, Formula.composited]
      split <;> rfl
    rw [colors_valuesAt, colors_valuesAt, List.map_inj_left] at hcolors
    have hsame : f.depth.load after (p + ch.position) = f.depth.load before (p + ch.position) := by
      exact_mod_cast hcolors ch hch
    rw [hsame, Op.target]
    exact ⟨min_le_left .., le_max_left ..⟩
  · have hsa := f.onScale_effective src s hc
    have hk := Formula.onScale_factor hmax hsa (f.onScale_alpha before p)
    have hway := @Formula.moved_mem f.depth.max _ (f.depth.load src (s + ch.position))
      (f.depth.load before (p + ch.position)) op hmax hk
    rw [← (channels_of_composited hsep h).2 ch hch, ← op.target_eq hscale hs hd] at hway
    rw [min_comm, max_comm]
    exact_mod_cast hway

/-- A color that is copied passes: 1 over 10 gives 1, and the target is 10. -/
theorem copy_not_between :
    (compositeRecord ⟨.eight, .bgra .eight⟩ .copy 255 #[1, 1, 1, 255] 0 0).on
        #[10, 10, 10, 255] = (.ok (), #[1, 1, 1, 255]) ∧
      ¬ Between ⟨.eight, .bgra .eight⟩ .copy #[1, 1, 1, 255] 0 #[10, 10, 10, 255] 0
        #[1, 1, 1, 255] := by
  constructor <;> decide

/-- Copying does not go part of the way: a color is replaced, or the cover is zero. -/
theorem copied_of_composited {c : Nat}
    (h : f.valuesAt after p =
      Formula.composited .copy f.depth.max c (f.valuesAt src s) (f.valuesAt before p))
    (hch : ch ∈ f.layout.colors) :
    f.depth.load after (p + ch.position) =
      if c = 0 then f.depth.load before (p + ch.position)
      else f.depth.load src (s + ch.position) := by
  have hcolors := congrArg PixelValues.colors h
  rw [Formula.composited, colors_valuesAt] at hcolors
  by_cases hc : c = 0
  · rw [if_pos (by exact_mod_cast hc), colors_valuesAt, List.map_inj_left] at hcolors
    rw [if_pos hc]
    exact_mod_cast hcolors ch hch
  · rw [if_neg (by exact_mod_cast hc), colors_valuesAt, List.map_inj_left] at hcolors
    rw [if_neg hc]
    exact_mod_cast hcolors ch hch

/-- Nothing had to be forced when the record at byte `p` was composited. The union of
alphas is what the part of the way is a quotient by. Copying has no target to move a color
to, and `Op.target` has the old color for it, so it is treated apart, in `copied`. -/
structure Unforced (f : Format) (op : Op) (c : Nat) (src : Bytes) (s : Nat) (before : Bytes)
    (p : Nat) (after : Bytes) : Prop where
  strict : (Strict.compositeRecord f op c src s p).on before = (.ok (), after)
  union :
    let sa := effectiveAlpha f.depth (f.opaqueOr src s) c
    let da := f.opaqueOr before p
    let united := unitedAlpha da sa f.depth.max
    sa ≤ united ∧ da ≤ united ∧ united ≤ f.depth.max ∧ (0 < sa → 0 < united)
  between : op ≠ .copy → f.Between op src s before p after
  copied : op = .copy → ∀ ch ∈ f.layout.colors,
    f.depth.load after (p + ch.position) =
      if c = 0 then f.depth.load before (p + ch.position)
      else f.depth.load src (s + ch.position)

/-- **No allowance.** Compositing a record succeeds, and so it does in strict arithmetic,
with the same result. -/
theorem compositeRecord_unforced {c : Nat} (hw : f.Wide) (op : Op)
    (hsrc : s + f.recordSize ≤ src.size) (hdst : p + f.recordSize ≤ before.size)
    (hc : c ≤ f.depth.max) :
    ∃ after, (f.compositeRecord op c src s p).on before = (.ok (), after) ∧
      f.Unforced op c src s before p after := by
  have hscale := scale_max f.depth
  obtain ⟨after, hon, hvalues⟩ := compositeRecord_ends hw op hsrc hdst hc
  refine ⟨after, hon, ?_, ?_, fun hop => ?_, ?_⟩
  · rw [Strict.compositeRecord_eq op hc]
    exact hon
  · have hsa := effectiveAlpha_le (f.opaqueOr_le src s) hc
    have hda := f.opaqueOr_le before p
    have hge := le_unitedAlpha hscale hda hsa
    exact ⟨hge, Nat.le_add_right .., unitedAlpha_le hscale hda hsa, fun hpos => hpos.trans_le hge⟩
  · exact between_of_composited hop (Formula.onScale_cast hc) hvalues
  · rintro rfl ch hch
    exact copied_of_composited hvalues hch

theorem compositeRecord_unforced_divide :
    Unforced ⟨.sixteen, .bgra .sixteen⟩ .divide 40000
      #[0x34, 0x12, 0x00, 0x00, 0xff, 0xff, 0x00, 0x90] 0
      #[7, 7, 7, 0x00, 0x80, 0x11, 0x22, 0x33, 0x44, 0x10, 0x27] 3
      #[7, 7, 7, 20, 227, 219, 205, 51, 68, 139, 113] := by
  obtain ⟨after, hon, h⟩ := @compositeRecord_unforced ⟨.sixteen, .bgra .sixteen⟩
    #[0x34, 0x12, 0x00, 0x00, 0xff, 0xff, 0x00, 0x90] 0
    #[7, 7, 7, 0x00, 0x80, 0x11, 0x22, 0x33, 0x44, 0x10, 0x27] 3 40000
    (by decide) .divide (by decide) (by decide) (by decide)
  have hrun : (compositeRecord ⟨.sixteen, .bgra .sixteen⟩ .divide 40000
      #[0x34, 0x12, 0x00, 0x00, 0xff, 0xff, 0x00, 0x90] 0 3).on
        #[7, 7, 7, 0x00, 0x80, 0x11, 0x22, 0x33, 0x44, 0x10, 0x27] =
      (.ok (), #[7, 7, 7, 20, 227, 219, 205, 51, 68, 139, 113]) := by decide +kernel
  obtain rfl := congrArg Prod.snd (hon.symm.trans hrun)
  exact h

end Result

end Format

end PixelRecord
