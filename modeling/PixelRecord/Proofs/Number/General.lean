import Mathlib.Algebra.Order.Floor.Semifield
import PixelRecord.Proofs.Number.Numeral

/-!
The general format is correctly rounded.

The digits come from rounding to a count of significant digits, and so does the exponent,
which decides between the two forms. Without an exponent the number is rounded a second
time, to the place of the last digit that was found; it comes out as the same number. Both
forms are then the same digits with a point at different places, and what is left out of
them are zeros behind the point.
-/

namespace PixelRecord

/-- The number that a finite datum stands for. -/
def Binary.value? : Binary → Option ℚ
  | .finite negative c e => some (signed negative (c * 2 ^ e))
  | .nan | .infinity _ => none

theorem Binary.positive_magnitude {c : ℕ} (hc : c ≠ 0) (e : ℤ) : (magnitude c e).Positive :=
  Ratio.Positive.shift ⟨Nat.pos_of_ne_zero hc, one_pos⟩ two_pos e

theorem Binary.value_magnitude (c : ℕ) (e : ℤ) : (magnitude c e).value = c * 2 ^ e := by
  rw [magnitude, Ratio.value_shift two_pos, Ratio.value]
  simp

namespace General

open Numeral

/-- The digits of an exponent, at least two. -/
def exponentDigits (e : ℤ) : List Char :=
  List.replicate (2 - (Nat.toDigits 10 e.natAbs).length) '0' ++ Nat.toDigits 10 e.natAbs

/-- The numeral of a number with `p` digits, which are those of `m`, the first of them with
the exponent `e`. -/
def numeral (negative : Bool) (m p : ℕ) (e : ℤ) : Numeral :=
  if isScientific p e then
    ofScaled negative m (p - 1) (some (e < 0, exponentDigits e))
  else ofScaled negative m (p - 1 - e).toNat none

/-- A numeral writes the number `q` in the general format with `p` digits: with an exponent
exactly if that of `q` is less than -4 or not less than `p`, with the whole part in full, and
with no zero at the end of the fraction. -/
structure Writes (p : ℕ) (q : ℚ) (n : Numeral) : Prop where
  value : n.value = q
  scientific : n.exponent.isSome ↔ Int.log 10 |q| < -4 ∨ p ≤ Int.log 10 |q|
  exponent : ∀ x ∈ n.exponent, 2 ≤ x.2.length ∧ n.scale = Int.log 10 |q|
  whole : n.whole = Nat.toDigits 10 ⌊|q| / 10 ^ n.scale⌋₊
  fraction : n.fraction.getLast? ≠ some '0'

section Numeral

variable {negative : Bool} {m p : ℕ} {e : ℤ}

theorem isScientific_iff : isScientific p e = true ↔ e < -4 ∨ p ≤ e := by
  simp [isScientific]

theorem isDigits_exponentDigits (e : ℤ) : IsDigits (exponentDigits e) :=
  (isDigits_zeros _).append (isDigits_toDigits _)

theorem two_le_length_exponentDigits (e : ℤ) : 2 ≤ (exponentDigits e).length := by
  rw [exponentDigits, List.length_append, List.length_replicate]
  omega

theorem wellFormed_numeral (negative : Bool) (m p : ℕ) (e : ℤ) :
    (numeral negative m p e).WellFormed := by
  unfold numeral
  split
  · apply wellFormed_ofScaled
    rintro x ⟨rfl⟩
    exact ⟨isDigits_exponentDigits e,
      List.ne_nil_of_length_pos (two_pos.trans_le (two_le_length_exponentDigits e))⟩
  · exact wellFormed_ofScaled fun x hx => nomatch hx

theorem scale_ofScaled_exponent (negative : Bool) (m places : ℕ) (e : ℤ) :
    (ofScaled negative m places (some (decide (e < 0), exponentDigits e))).scale = e := by
  simp only [scale, ofScaled, exponentDigits, digitsValue_zeros_append, digitsValue_toDigits,
    decide_eq_true_eq]
  split <;> omega

section Scaled

variable {places : ℕ} {exponent : Option (Bool × List Char)}

/-- The whole part of a number that is `m` in units of its last place. -/
theorem whole_ofScaled {scale : ℤ} :
    (ofScaled negative m places exponent).whole =
      Nat.toDigits 10 ⌊(m * 10 ^ (scale - places) : ℚ) / 10 ^ scale⌋₊ := by
  have hplaces : (m * 10 ^ (scale - places) : ℚ) / 10 ^ scale = m / (10 ^ places : ℕ) := by
    rw [zpow_sub₀ (by norm_num), zpow_natCast]
    push_cast
    field_simp
  rw [hplaces, Nat.floor_div_eq_div]
  rfl

/-- In either form the digits are placed right; what remains is the choice of the form. -/
theorem writes_ofScaled {q : ℚ} (hpos : 0 < q)
    (hq : m * 10 ^ ((ofScaled negative m places exponent).scale - places) = q)
    (hform : exponent.isSome ↔ Int.log 10 q < -4 ∨ p ≤ Int.log 10 q)
    (hexponent : ∀ x ∈ exponent, 2 ≤ x.2.length ∧
      (ofScaled negative m places exponent).scale = Int.log 10 q) :
    Writes p (signed negative q) (ofScaled negative m places exponent) := by
  have habs : |signed negative q| = q := by rw [abs_signed, abs_of_pos hpos]
  refine ⟨?_, ?_, ?_, ?_, getLast?_trimZeros _⟩
  · rw [value_ofScaled, hq]
  · rwa [habs]
  · rwa [habs]
  · rw [habs, ← hq]
    exact whole_ofScaled

end Scaled

theorem writes_numeral (hp : 0 < p) {v : ℚ} (hv : 0 < v) (h : Ratio.Rounded 10 p v m e) :
    Writes p (roundTo 10 p (signed negative v)) (numeral negative m p e) := by
  have hpos := roundTo_pos (by decide : 1 < 10) hp hv
  have hlog := h.log_eq (by decide) hp
  have hq := h.eq
  push_cast at hq
  rw [roundTo_signed]
  unfold numeral
  split
  · next hform =>
    have hplaces : e + 1 - p = e - (p - 1 : ℕ) := by omega
    have hscale := scale_ofScaled_exponent negative m (p - 1) e
    refine writes_ofScaled hpos ?_ ?_ ?_
    · rw [hscale, ← hplaces, hq]
    · rw [hlog]
      exact iff_of_true rfl (isScientific_iff.mp hform)
    · rintro x ⟨rfl⟩
      exact ⟨two_le_length_exponentDigits e, hscale.trans hlog.symm⟩
  · next hform =>
    rw [isScientific_iff] at hform
    have hplaces : e + 1 - p = 0 - ((p - 1 - e).toNat : ℤ) := by omega
    have hscale : (ofScaled negative m (p - 1 - e).toNat none).scale = 0 := rfl
    refine writes_ofScaled hpos ?_ ?_ fun x hx => (nomatch hx)
    · rw [hscale, ← hplaces, hq]
    · rw [hlog]
      exact iff_of_false Bool.false_ne_true hform

end Numeral

/-! ### The text of a number -/

theorem exponentChars_exponentDigits (e : ℤ) :
    exponentChars (some (decide (e < 0), exponentDigits e)) = 'e' :: exponentText e := by
  simp [exponentChars, exponentText, exponentDigits]

/-- The second rounding finds the digits of the first. -/
theorem round_shift_eq {r : Ratio} (hr : r.Positive) {m p : ℕ} {e : ℤ}
    (h : Ratio.Rounded 10 p r.value m e) (hform : isScientific p e ≠ true) :
    (r.shift 10 (p - 1 - e).toNat).round = m := by
  have hplaces : ((p - 1 - e).toNat : ℤ) = p - 1 - e := by
    rw [ne_eq, isScientific_iff] at hform
    omega
  have hround := Ratio.round_eq (hr.shift (by decide : 0 < 10) (p - 1 - e).toNat).den
  rw [Ratio.value_shift (by decide), hplaces, h.again, ← hplaces] at hround
  exact_mod_cast hround

theorem ofRatio_eq {r : Ratio} (hr : r.Positive) {precision m : ℕ} {e : ℤ}
    (hme : r.significant 10 (max precision 1) = (m, e)) :
    ofRatio r precision = (numeral false m (max precision 1) e).chars := by
  have h := Ratio.rounded_significant (by decide : 1 < 10) (le_max_right precision 1) hr
  have hpos : 1 ≤ max precision 1 := le_max_right precision 1
  unfold ofRatio numeral
  dsimp only
  generalize max precision 1 = p at hme h hpos ⊢
  rw [hme] at h ⊢
  dsimp only at h ⊢
  split
  · rw [chars_ofScaled, exponentChars_exponentDigits]
    rfl
  · next hform =>
    rw [chars_ofScaled, round_shift_eq hr h hform, exponentChars, List.append_nil]
    rfl

theorem chars_numeral (negative : Bool) (m p : ℕ) (e : ℤ) :
    (numeral negative m p e).chars = signChars negative ++ (numeral false m p e).chars := by
  unfold numeral
  split <;> simp only [chars_ofScaled] <;> rfl

/-- The characters of a number other than zero are those of a numeral that writes it. -/
theorem chars_writes {x : Binary} {v : ℚ} (hv : x.value? = some v) (hne : v ≠ 0)
    (precision : ℕ) : ∃ n : Numeral, n.WellFormed ∧ n.chars = chars x precision ∧
      Writes (max precision 1) (roundTo 10 (max precision 1) v) n := by
  match x with
  | .nan | .infinity _ => cases hv
  | .finite negative c e =>
    obtain rfl : signed negative (c * 2 ^ e) = v := Option.some.inj hv
    have hc : c ≠ 0 := by
      rintro rfl
      cases negative <;> simp [signed] at hne
    have hr := Binary.positive_magnitude hc e
    have h := Ratio.rounded_significant (by decide : 1 < 10) (le_max_right precision 1) hr
    rcases hme : (Binary.magnitude c e).significant 10 (max precision 1) with ⟨m, k⟩
    rw [hme] at h
    refine ⟨numeral negative m (max precision 1) k, wellFormed_numeral .., ?_, ?_⟩
    · rw [chars_numeral, ← ofRatio_eq hr hme, chars, if_neg hc]
      rfl
    · rw [← Binary.value_magnitude]
      exact writes_numeral (le_max_right precision 1) hr.value h

theorem admits_of_le {precision : ℕ} (h : precision ≤ 1000) (x : Binary) :
    Checked.admits x precision = true := by
  match x with
  | .nan | .infinity _ => rfl
  | .finite negative c e =>
    have hp : max precision 1 ≤ 1000 := max_le h (by decide)
    unfold Checked.admits Checked.admitsRatio
    dsimp only
    generalize max precision 1 = p at hp
    generalize (Ratio.significant 10 p (Binary.magnitude c e)).2 = k
    have hmax : Checked.maxPlaces = 65535 := rfl
    simp only [Bool.or_eq_true, Bool.and_eq_true, decide_eq_true_eq, isScientific_iff]
    omega

/-- **The general format.** With up to 1000 digits every number other than zero has a text,
and the text reads as the number correctly rounded to these digits, at least one. It has an
exponent exactly where the rounded number asks for one; the exponent has a sign and at least
two digits. The whole part is written in full, zeros do not end a fraction, and a point is
only written before digits. -/
theorem text_rounds {x : Binary} {v : ℚ} (hv : x.value? = some v) (hne : v ≠ 0) {precision : ℕ}
    (h : precision ≤ 1000) :
    ∃ text n, Checked.text x precision = .ok text ∧ read? text.toList = some n ∧
      Writes (max precision 1) (roundTo 10 (max precision 1) v) n := by
  obtain ⟨n, hwell, hchars, hwrites⟩ := chars_writes hv hne precision
  refine ⟨General.text x precision, n, ?_, ?_, hwrites⟩
  · rw [Checked.text, if_pos (admits_of_le h x)]
  · rw [read?_eq_some_iff, General.text, String.toList_ofList]
    exact ⟨hwell, hchars⟩

/-- About -999999.7 with six digits: rounding carries into a seventh, which asks for the form
with an exponent. -/
theorem text_rounds_carried :
    let x := Binary.ofBits 0xC12E847F66666666
    let v : ℚ := signed true (8589932015019622 * 2 ^ (-33 : ℤ))
    x.value? = some v ∧ v ≠ 0 ∧ 6 ≤ 1000 ∧ Checked.text x 6 = .ok "-1e+06" ∧
      roundTo 10 6 v = -1000000 ∧ Int.log 10 |roundTo 10 6 v| = 6 := by
  intro x v
  have hv : x.value? = some v := rfl
  have hne : v ≠ 0 := by norm_num [v, signed]
  obtain ⟨text, n, htext, hread, hwrites⟩ := text_rounds hv hne (by decide : 6 ≤ 1000)
  have heval : Checked.text x 6 = .ok "-1e+06" := by rfl
  obtain rfl : "-1e+06" = text := Except.ok.inj (heval.symm.trans htext)
  obtain rfl : ⟨true, ['1'], [], some (false, ['0', '6'])⟩ = n :=
    Option.some.inj ((by decide : read? "-1e+06".toList = some _).symm.trans hread)
  have hone : digitsValue ['1'] = 1 := by decide
  have hsix : digitsValue ['0', '6'] = 6 := by decide
  refine ⟨hv, hne, by decide, heval, ?_, (hwrites.exponent _ rfl).2.symm⟩
  exact hwrites.value.symm.trans (by norm_num [value, scale, signed, hone, hsix])

end General

end PixelRecord
