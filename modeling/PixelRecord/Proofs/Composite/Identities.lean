import PixelRecord.Proofs.Composite.Separable
import PixelRecord.Proofs.Composite.Targets

/-!
Identities of fractions that rounding does not break.

Products, quotients and interpolations are rounded one by one, and an equation between
fractions need not hold between the rounded values. Three do. A quotient times its
divisor is the dividend: the part that an effective alpha makes up in the alpha it was
united with, times that alpha, is the effective alpha to the last unit. An interpolation
is the mean of its two ends, rounded once, and the same from either end. And what a
product takes from a value is what the product with the rest of the scale leaves of it,
so that the union of two alphas is their sum without their product, whichever of them was
there first. The first identity holds on every scale. The other two need an odd one, on
which no fraction is a half and rounding looks the same from below and from above.
-/

namespace PixelRecord

open Formula

namespace FixedPoint

/-! ### Means -/

/-- The exact mean of two values, `src` counting for `k` and `dst` for the rest of the scale. -/
def exactBlend (src dst k max : Nat) : ℚ := (src * k + dst * (max - k)) / max

section Blend

variable {max src src' dst dst' k : Nat}

/-- The step of an interpolation is rounded by its sign, halves away from zero. The mean is
rounded without a sign, and is the same. -/
theorem blend_eq_divRound (hs : Scale max) (hsrc : src ≤ max) (hdst : dst ≤ max) (hk : k ≤ max) :
    blend src dst k max = divRound (src * k + dst * (max - k)) max := by
  have hblend : (blend src dst k max : Int) = divRound (src * k + dst * (max - k)) max := by
    rw [(blend_eq_nearest hs hsrc hdst hk).1, add_nearest_step hs.cast_pos,
      divRound_eq_nearest hs.pos]
    push_cast [hk]
    rfl
  exact_mod_cast hblend

theorem blend_swap (hs : Scale max) (hsrc : src ≤ max) (hdst : dst ≤ max) (hk : k ≤ max) :
    blend src dst k max = blend dst src (max - k) max := by
  rw [blend_eq_divRound hs hsrc hdst hk, blend_eq_divRound hs hdst hsrc (Nat.sub_le max k),
    Nat.sub_sub_self hk, Nat.add_comm]

theorem blend_mono (hs : Scale max) (hsrc' : src' ≤ max) (hdst' : dst' ≤ max) (hk : k ≤ max)
    (hsrc : src ≤ src') (hdst : dst ≤ dst') : blend src dst k max ≤ blend src' dst' k max := by
  rw [blend_eq_divRound hs (hsrc.trans hsrc') (hdst.trans hdst') hk,
    blend_eq_divRound hs hsrc' hdst' hk]
  exact divRound_mono (Nat.add_le_add (Nat.mul_le_mul_right k hsrc)
    (Nat.mul_le_mul_right (max - k) hdst))

theorem abs_blend_sub_lt_of_ne (hs : Scale max) (hsrc : src ≤ max) (hdst : dst ≤ max)
    (hk : k ≤ max) {z : Int} (hz : z ≠ blend src dst k max) :
    |(blend src dst k max : ℚ) - exactBlend src dst k max| <
      |(z : ℚ) - exactBlend src dst k max| := by
  have hblend := (blend_eq_nearest hs hsrc hdst hk).1
  rw [add_nearest_step hs.cast_pos] at hblend
  have hexact : exactBlend src dst k max = ((src * k + dst * (max - k) : Int) : ℚ) / max := by
    rw [exactBlend]
    push_cast
    rfl
  rw [hblend] at hz
  rw [hexact, ← Int.cast_natCast (blend src dst k max), hblend]
  exact abs_nearest_sub_lt_of_ne hs.odd hz

end Blend

/-! ### Products and their complements -/

section Union

variable {max a b : Nat}

/-- What a product takes and what is left make up the whole. -/
theorem mulDiv_add_mulDiv_sub (hs : Scale max) (ha : a ≤ max) (hb : b ≤ max) :
    mulDiv a b max + mulDiv a (max - b) max = a := by
  have htaken := mulDiv_eq_nearest hs ha hb
  have hleft := mulDiv_eq_nearest hs ha (Nat.sub_le max b)
  rw [Nat.cast_sub hb, mul_sub, nearest_mul_sub hs.odd] at hleft
  omega

end Union

end FixedPoint

namespace Formula

/-- The union of two alphas is their sum without their product. -/
theorem union_eq_sub {max : Nat} (hodd : max % 2 = 1) (sa da : Int) :
    union max sa da = da + sa - nearest (da * sa) max := by
  have hcovered : (max - da) * sa = sa * max - da * sa := by ring
  rw [union, hcovered, nearest_mul_sub hodd]
  omega

/-- So uniting with an alpha is screening with it. -/
theorem union_eq_screen {max : Nat} (hodd : max % 2 = 1) (sa da : Int) :
    union max sa da = target .screen max sa da := by
  rw [union_eq_sub hodd, target_screen (by omega), Int.mul_comm, Int.add_comm da]

end Formula

namespace Format

open FixedPoint

section Union

variable {max da sa : Nat}

theorem unitedAlpha_eq_sub (hs : Scale max) (hda : da ≤ max) (hsa : sa ≤ max) :
    (unitedAlpha da sa max : Int) = da + sa - mulDiv da sa max := by
  rw [unitedAlpha_eq hs hda hsa, union_eq_sub hs.odd, mulDiv_eq_nearest hs hda hsa]

theorem unitedAlpha_eq_screen (hs : Scale max) (hda : da ≤ max) (hsa : sa ≤ max) :
    unitedAlpha da sa max = Op.target .screen sa da max := by
  have hscreen := Op.target_eq .screen hs hsa hda
  rw [← union_eq_screen hs.odd, ← unitedAlpha_eq hs hda hsa] at hscreen
  exact_mod_cast hscreen.symm

theorem unitedAlpha_comm (hs : Scale max) (hda : da ≤ max) (hsa : sa ≤ max) :
    unitedAlpha da sa max = unitedAlpha sa da max := by
  have hunited : (unitedAlpha da sa max : Int) = unitedAlpha sa da max := by
    rw [unitedAlpha_eq_sub hs hda hsa, unitedAlpha_eq_sub hs hsa hda, mulDiv, mulDiv,
      Nat.mul_comm, Int.add_comm]
  exact_mod_cast hunited

end Union

/-- **Means and complements.** On an odd scale interpolation is the mean of its ends, rounded
once to the only integer that is nearest to it. So it is the same from either end, and grows
with both. The union of two alphas is their sum without their product, which is also the one
screened with the other, whichever came first; and a factor and the rest of the scale split a
value without a remainder. -/
theorem odd_scale_identities :
    (∀ max src dst k : Nat, max % 2 = 1 → max < 2 ^ 31 → src ≤ max → dst ≤ max → k ≤ max →
      blend src dst k max = divRound (src * k + dst * (max - k)) max ∧
      (∀ z : Int, z ≠ blend src dst k max →
        |(blend src dst k max : ℚ) - exactBlend src dst k max| <
          |(z : ℚ) - exactBlend src dst k max|) ∧
      blend src dst k max = blend dst src (max - k) max ∧
      (∀ src' ≤ max, src ≤ src' → blend src dst k max ≤ blend src' dst k max) ∧
      ∀ dst' ≤ max, dst ≤ dst' → blend src dst k max ≤ blend src dst' k max) ∧
    ∀ max a b : Nat, max % 2 = 1 → max < wordValues → a ≤ max → b ≤ max →
      (unitedAlpha a b max : Int) = a + b - mulDiv a b max ∧
      unitedAlpha a b max = Op.target .screen b a max ∧
      unitedAlpha a b max = unitedAlpha b a max ∧
      mulDiv a b max + mulDiv a (max - b) max = a := by
  constructor
  · intro max src dst k hodd hlt hsrc hdst hk
    have hs : Scale max := ⟨hodd, hlt.trans (by decide)⟩
    refine ⟨blend_eq_divRound hs hsrc hdst hk, fun z => abs_blend_sub_lt_of_ne hs hsrc hdst hk,
      blend_swap hs hsrc hdst hk, fun src' hsrc' h => ?_, fun dst' hdst' h => ?_⟩
    · exact blend_mono hs hsrc' hdst hk h le_rfl
    · exact blend_mono hs hsrc hdst' hk le_rfl h
  · intro max a b hodd hlt ha hb
    have hs : Scale max := ⟨hodd, hlt⟩
    exact ⟨unitedAlpha_eq_sub hs ha hb, unitedAlpha_eq_screen hs ha hb, unitedAlpha_comm hs ha hb,
      mulDiv_add_mulDiv_sub hs ha hb⟩

theorem odd_scale_identities_sixteen :
    blend 40000 123 777 65535 = divRound (40000 * 777 + 123 * (65535 - 777)) 65535 ∧
      blend 40000 123 777 65535 = 596 ∧ blend 123 40000 (65535 - 777) 65535 = 596 ∧
      unitedAlpha 40000 30001 65535 = 51690 ∧ Op.target .screen 30001 40000 65535 = 51690 := by
  have hblend := odd_scale_identities.1 65535 40000 123 777 (by decide) (by decide) (by decide)
    (by decide) (by decide)
  have hunion := odd_scale_identities.2 65535 40000 30001 (by decide) (by decide) (by decide)
    (by decide)
  have hvalue : blend 40000 123 777 65535 = 596 := by decide
  have hunited : unitedAlpha 40000 30001 65535 = 51690 := by decide
  exact ⟨hblend.1, hvalue, hblend.2.2.1 ▸ hvalue, hunited, hunion.2.1 ▸ hunited⟩

/-! ### The part of the way and the union -/

variable {f : Format} {src before united after : Bytes} {s p c k sa : Nat} {op : Op}

/-- Whatever the layout, the part that `sa` is said to make up in the union, times the
alpha that is the union now, is `sa`. Where nothing was united, the alpha is full. -/
theorem uniteAlpha_restores (hpos : 0 < sa) (hsa : sa ≤ f.depth.max)
    (hon : (f.uniteAlpha sa p).on before = (.ok k, united)) :
    mulDiv (f.opaqueOr united p) k f.depth.max = sa := by
  have hscale := scale_max f.depth
  have hfull := mulDiv_full hscale.pos hscale.lt_wordValues hsa
  rw [uniteAlpha] at hon
  split at hon
  · next ch halpha =>
    have hworth (buf : Bytes) : f.opaqueOr buf p = f.depth.load buf (p + ch.position) := by
      rw [opaqueOr, halpha]
    by_cases hch : ch.Holds f.depth before.size p
    · have hda := f.depth.load_le_max before (p + ch.position)
      refine Edit.Ends.of_on
        (?_ : Edit.Ends _ before fun k out => mulDiv (f.opaqueOr out p) k f.depth.max = sa) hon
      refine Edit.ends_get_bind (Edit.ends_liftM_bind (Channel.load_eq_ok hch) ?_)
      split
      · have hle := unitedAlpha_le hscale hda hsa
        have hge := le_unitedAlpha hscale hda hsa
        refine ((Channel.store_turns hch hle).ends before rfl).bind fun _ out hout =>
          Edit.ends_pure ?_
        have hstored := Int.ofNat_inj.mp hout.2.2
        rw [hworth, hstored]
        exact mulDiv_divNorm hscale.lt_wordValues (hpos.trans_le hge) hge hle
      · next hopaque =>
        refine Edit.ends_pure ?_
        rw [hworth, hda.eq_of_not_lt hopaque, hfull]
    · have hfault : ch.load f.depth before p = .error (.fault .outOfRange) := if_neg hch
      change (liftM (ch.load f.depth before p) >>= _ : Edit Nat).on before = _ at hon
      rw [Edit.on_bind, Edit.on_liftM, hfault] at hon
      cases hon
  · next hnone =>
    cases hon
    rw [opaqueOr, hnone, hfull]

/-- The colors of the record at byte `p` have gone the part `k` of their way to their
targets. -/
def MovedBy (f : Format) (op : Op) (k : Nat) (src : Bytes) (s : Nat) (before : Bytes) (p : Nat)
    (after : Bytes) : Prop :=
  ∀ ch ∈ f.layout.colors,
    let old := f.depth.load before (p + ch.position)
    f.depth.load after (p + ch.position) =
      blend (op.target (f.depth.load src (s + ch.position)) old f.depth.max) old k f.depth.max

/-- Records of one alpha are opaque to the same degree. -/
theorem opaqueOr_congr (h : (f.valuesAt after p).alpha = (f.valuesAt before p).alpha) :
    f.opaqueOr after p = f.opaqueOr before p := by
  have hworth : (f.opaqueOr after p : Int) = f.opaqueOr before p := by
    rw [opaqueOr_eq, opaqueOr_eq, h]
  exact_mod_cast hworth

theorem movedBy_of_composited (hsep : op.isSeparable = true) (hc : c ≤ f.depth.max)
    (hk : (k : Int) = factor f.depth.max (effective f.depth.max c (f.valuesAt src s))
      (f.valuesAt before p).alpha)
    (h : f.valuesAt after p =
      composited op f.depth.max c (f.valuesAt src s) (f.valuesAt before p)) :
    f.MovedBy op k src s before p after := by
  have hscale := scale_max f.depth
  have hkmax : k ≤ f.depth.max := by
    have hle := (onScale_factor hscale.cast_pos (onScale_effective f src s (onScale_cast hc))
      (f.onScale_alpha before p)).le
    rw [← hk] at hle
    exact_mod_cast hle
  intro ch hch old
  have hs := f.depth.load_le_max src (s + ch.position)
  have hold := f.depth.load_le_max before (p + ch.position)
  have hblend := (blend_eq_nearest hscale (op.target_le hscale.pos hs hold) hold hkmax).1
  have hmoved := (channels_of_composited hsep h).2 ch hch
  rw [← hk, moved, ← op.target_eq hscale hs hold, ← hblend] at hmoved
  exact_mod_cast hmoved

/-- **Nothing is lost.** A quotient times its divisor is the dividend, on every scale. So,
wherever the part `k` that `sa` makes up in a union is worked out, `k` of the alpha that
is the union is `sa`; and compositing a record with a separable operation leaves this alpha
and moves every color by this part. -/
theorem factor_recovers_effective :
    (∀ max a b : Nat, max < wordValues → 0 < b → a ≤ b → b ≤ max →
      mulDiv b (divNorm a b max) max = a) ∧
    ∀ (f : Format) (before : Bytes) (p : Nat),
      (∀ sa k united, 0 < sa → sa ≤ f.depth.max →
        (f.uniteAlpha sa p).on before = (.ok k, united) →
          mulDiv (f.opaqueOr united p) k f.depth.max = sa) ∧
      ∀ (op : Op) (c : Nat) (src : Bytes) (s : Nat), f.Wide → op.isSeparable = true →
        c ≤ f.depth.max → s + f.recordSize ≤ src.size → p + f.recordSize ≤ before.size →
        let sa := effectiveAlpha f.depth (f.opaqueOr src s) c
        0 < sa → ∃ k united after, (f.uniteAlpha sa p).on before = (.ok k, united) ∧
          (f.compositeRecord op c src s p).on before = (.ok (), after) ∧
          f.MovedBy op k src s before p after ∧
          mulDiv (f.opaqueOr after p) k f.depth.max = sa := by
  refine ⟨fun max a b hlt hb hab hbmax => mulDiv_divNorm hlt hb hab hbmax, ?_⟩
  refine fun f before p => ⟨fun sa k united => uniteAlpha_restores, ?_⟩
  intro op c src s hw hsep hc hsrc hdst sa hpos
  have hsa : sa ≤ f.depth.max := effectiveAlpha_le (f.opaqueOr_le src s) hc
  obtain ⟨after, hon, hvalues⟩ := compositeRecord_ends hw op hsrc hdst hc
  obtain ⟨k, united, hunite, -, -, -, hunited, hk⟩ := uniteAlpha_ends hw hdst hpos hsa
  -- The colors are moved after the union was taken, and do not touch it.
  have hkept : (f.valuesAt after p).alpha = (f.valuesAt united p).alpha := by
    rw [hunited, (channels_of_composited hsep hvalues).1, ← effectiveAlpha_eq_effective src s hc]
    rfl
  rw [effectiveAlpha_eq_effective src s hc] at hk
  refine ⟨k, united, after, hunite, hon, movedBy_of_composited hsep hc hk hvalues, ?_⟩
  rw [opaqueOr_congr hkept]
  exact uniteAlpha_restores hpos hsa hunite

theorem factor_recovers_effective_multiply :
    mulDiv 200 (divNorm 77 200 255) 255 = 77 ∧
      (uniteAlpha ⟨.eight, .bgra .eight⟩ 128 4).on #[9, 9, 9, 9, 200, 100, 50, 77] =
        (.ok 197, #[9, 9, 9, 9, 200, 100, 50, 166]) ∧
      mulDiv (opaqueOr ⟨.eight, .bgra .eight⟩ #[9, 9, 9, 9, 200, 100, 50, 166] 4) 197 255 = 128 ∧
      ∃ k united after,
        (uniteAlpha ⟨.eight, .bgra .eight⟩ 128 4).on #[9, 9, 9, 9, 200, 100, 50, 77] =
            (.ok k, united) ∧
        (compositeRecord ⟨.eight, .bgra .eight⟩ .multiply 255 #[10, 20, 30, 128] 0 4).on
            #[9, 9, 9, 9, 200, 100, 50, 77] = (.ok (), after) ∧
        MovedBy ⟨.eight, .bgra .eight⟩ .multiply k #[10, 20, 30, 128] 0
            #[9, 9, 9, 9, 200, 100, 50, 77] 4 after ∧
        mulDiv (opaqueOr ⟨.eight, .bgra .eight⟩ after 4) k 255 = 128 := by
  have hunite : (uniteAlpha ⟨.eight, .bgra .eight⟩ 128 4).on #[9, 9, 9, 9, 200, 100, 50, 77] =
      (.ok 197, #[9, 9, 9, 9, 200, 100, 50, 166]) := by decide +kernel
  have hrecord := factor_recovers_effective.2 ⟨.eight, .bgra .eight⟩
    #[9, 9, 9, 9, 200, 100, 50, 77] 4
  exact ⟨factor_recovers_effective.1 255 77 200 (by decide) (by decide) (by decide) (by decide),
    hunite, hrecord.1 128 197 _ (by decide) (by decide) hunite,
    hrecord.2 .multiply 255 #[10, 20, 30, 128] 0 (by decide) rfl (by decide) (by decide) (by decide)
      (by decide)⟩

end Format

end PixelRecord
