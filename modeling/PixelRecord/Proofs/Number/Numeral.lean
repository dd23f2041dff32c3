import Mathlib.Data.List.DropRight
import PixelRecord.Number
import PixelRecord.Proofs.Number.Ratio

/-!
Decimal numbers as they are written, and the numbers that they stand for.

`Numeral.read?` takes a text apart at its signs, its point and its exponent; it accepts the
texts that `Numeral.chars` writes and no others, so a text says one number at most. The
pieces from which the general format is put together are numerals: digits with a point among
them, and the same without the zeros that end the fraction. Leaving these out changes the
text, but not the number.
-/

namespace PixelRecord

/-- A decimal number as it is written: the digits before the point and behind it, and the
exponent, if one is given, with its sign. -/
structure Numeral where
  negative : Bool
  whole : List Char
  fraction : List Char
  exponent : Option (Bool × List Char)
  deriving DecidableEq, Repr

namespace Numeral

/-! ### Writing and reading -/

def IsDigits (ds : List Char) : Prop := ∀ c ∈ ds, c.isDigit = true

instance (ds : List Char) : Decidable (IsDigits ds) :=
  decidable_of_iff (ds.all Char.isDigit = true) List.all_eq_true

/-- All places hold digits, and neither the whole part nor a given exponent is without. -/
structure WellFormed (n : Numeral) : Prop where
  whole : IsDigits n.whole
  whole_ne_nil : n.whole ≠ []
  fraction : IsDigits n.fraction
  exponent : ∀ x ∈ n.exponent, IsDigits x.2 ∧ x.2 ≠ []

instance (n : Numeral) : Decidable n.WellFormed :=
  decidable_of_iff (IsDigits n.whole ∧ n.whole ≠ [] ∧ IsDigits n.fraction ∧
      ∀ x ∈ n.exponent, IsDigits x.2 ∧ x.2 ≠ [])
    ⟨fun ⟨hw, hne, hf, he⟩ => ⟨hw, hne, hf, he⟩, fun ⟨hw, hne, hf, he⟩ => ⟨hw, hne, hf, he⟩⟩

def signChars (negative : Bool) : List Char := if negative then ['-'] else []

/-- Digits with a point before the fraction; no point is written where there is none. -/
def withPoint (whole fraction : List Char) : List Char :=
  whole ++ if fraction = [] then [] else '.' :: fraction

/-- An exponent is written with its sign, also where it is not negative. -/
def exponentChars : Option (Bool × List Char) → List Char
  | none => []
  | some (negative, ds) => 'e' :: (if negative then '-' else '+') :: ds

def chars (n : Numeral) : List Char :=
  signChars n.negative ++ (withPoint n.whole n.fraction ++ exponentChars n.exponent)

/-- The pieces of a text, whatever stands in them. -/
def split (cs : List Char) : Numeral :=
  let body := if cs.head? = some '-' then cs.tail else cs
  let digits := body.takeWhile (· != 'e')
  { negative := cs.head? = some '-'
    whole := digits.takeWhile (· != '.')
    fraction := (digits.dropWhile (· != '.')).tail
    exponent :=
      match body.dropWhile (· != 'e') with
      | _ :: sign :: ds => some (sign = '-', ds)
      | _ => none }

/-- The numeral that a text is, if it is one. -/
def read? (cs : List Char) : Option Numeral :=
  if (split cs).WellFormed ∧ (split cs).chars = cs then some (split cs) else none

theorem IsDigits.append {ds ds' : List Char} (h : IsDigits ds) (h' : IsDigits ds') :
    IsDigits (ds ++ ds') :=
  List.forall_mem_append.mpr ⟨h, h'⟩

theorem IsDigits.ne {ds : List Char} (h : IsDigits ds) {c d : Char} (hc : c ∈ ds)
    (hd : d.isDigit = false) : c ≠ d := by
  rintro rfl
  rw [h c hc] at hd
  cases hd

theorem takeWhile_ne_append {c : Char} {ds rest : List Char} (h : ∀ d ∈ ds, d ≠ c) :
    (ds ++ rest).takeWhile (· != c) = ds ++ rest.takeWhile (· != c) :=
  List.takeWhile_append_of_pos fun d hd => by simpa using h d hd

theorem dropWhile_ne_append {c : Char} {ds rest : List Char} (h : ∀ d ∈ ds, d ≠ c) :
    (ds ++ rest).dropWhile (· != c) = rest.dropWhile (· != c) :=
  List.dropWhile_append_of_pos fun d hd => by simpa using h d hd

variable {n : Numeral} {cs : List Char}

theorem WellFormed.withPoint_ne_e (h : n.WellFormed) :
    ∀ c ∈ withPoint n.whole n.fraction, c ≠ 'e' := by
  intro c hc
  rw [withPoint, List.mem_append] at hc
  rcases hc with hc | hc
  · exact h.whole.ne hc rfl
  · split at hc
    · cases hc
    · rcases List.mem_cons.mp hc with rfl | hc
      · decide
      · exact h.fraction.ne hc rfl

theorem WellFormed.head?_chars (h : n.WellFormed) : (n.chars.head? = some '-') = n.negative := by
  obtain ⟨c, whole, hwhole⟩ := List.exists_cons_of_ne_nil h.whole_ne_nil
  have hc : c ≠ '-' := h.whole.ne (hwhole ▸ List.mem_cons_self) rfl
  cases hneg : n.negative <;> simp [chars, signChars, withPoint, hneg, hwhole, hc]

theorem split_chars (h : n.WellFormed) : split n.chars = n := by
  have hbody : (if n.negative = true then n.chars.tail else n.chars) =
      withPoint n.whole n.fraction ++ exponentChars n.exponent := by
    cases hneg : n.negative <;> simp [chars, signChars, hneg]
  have hexponent : (exponentChars n.exponent).takeWhile (· != 'e') = [] := by
    unfold exponentChars
    split <;> rfl
  have hwhole : ∀ c ∈ n.whole, c ≠ '.' := fun c hc => h.whole.ne hc rfl
  have hpoint : (withPoint n.whole n.fraction).takeWhile (· != '.') = n.whole ∧
      ((withPoint n.whole n.fraction).dropWhile (· != '.')).tail = n.fraction := by
    rw [withPoint, takeWhile_ne_append hwhole, dropWhile_ne_append hwhole]
    split
    · next hnil => simp [hnil]
    · simp
  unfold split
  simp only [h.head?_chars, hbody, takeWhile_ne_append h.withPoint_ne_e,
    dropWhile_ne_append h.withPoint_ne_e, hexponent, List.append_nil, hpoint.1, hpoint.2]
  obtain ⟨negative, whole, fraction, exponent⟩ := n
  congr 1
  · cases negative <;> rfl
  · cases exponent with
    | none => rfl
    | some x =>
      obtain ⟨negative, ds⟩ := x
      cases negative <;> simp [exponentChars]

/-- **Reading and writing.** A text reads as a numeral exactly if it is written so. -/
theorem read?_eq_some_iff : read? cs = some n ↔ n.WellFormed ∧ n.chars = cs := by
  unfold read?
  constructor
  · intro h
    split at h
    · next hsplit => exact Option.some.inj h ▸ hsplit
    · cases h
  · rintro ⟨h, rfl⟩
    rw [split_chars h, if_pos ⟨h, rfl⟩]

/-! ### Values -/

def digitsValue (ds : List Char) : ℕ := Nat.ofDigitChars 10 ds 0

/-- The exponent; zero if none is given. -/
def scale (n : Numeral) : ℤ :=
  match n.exponent with
  | none => 0
  | some (negative, ds) => if negative then -digitsValue ds else digitsValue ds

/-- The number that a numeral stands for. -/
def value (n : Numeral) : ℚ :=
  signed n.negative (digitsValue (n.whole ++ n.fraction) * 10 ^ (n.scale - n.fraction.length))

@[simp] theorem digitsValue_toDigits (m : ℕ) : digitsValue (Nat.toDigits 10 m) = m :=
  Nat.ofDigitChars_ten_toDigits

@[simp] theorem digitsValue_zeros_append (k : ℕ) (ds : List Char) :
    digitsValue (List.replicate k '0' ++ ds) = digitsValue ds := by
  rw [digitsValue, Nat.ofDigitChars_append, Nat.ofDigitChars_replicate_zero, mul_zero, digitsValue]

@[simp] theorem digitsValue_append_zeros (ds : List Char) (k : ℕ) :
    digitsValue (ds ++ List.replicate k '0') = 10 ^ k * digitsValue ds := by
  rw [digitsValue, Nat.ofDigitChars_append, Nat.ofDigitChars_replicate_zero, digitsValue]

theorem isDigits_toDigits (m : ℕ) : IsDigits (Nat.toDigits 10 m) := fun _ hc =>
  Nat.isDigit_of_mem_toDigits (by decide) (by decide) hc

theorem isDigits_zeros (k : ℕ) : IsDigits (List.replicate k '0') := fun _ hc =>
  (List.eq_of_mem_replicate hc) ▸ rfl

/-! ### Digits with a point among them -/

/-- The last `k` digits of `m`, zeros included. -/
def lastDigits : ℕ → ℕ → List Char
  | 0, _ => []
  | k + 1, m => lastDigits k (m / 10) ++ [Nat.digitChar (m % 10)]

@[simp] theorem length_lastDigits (k m : ℕ) : (lastDigits k m).length = k := by
  induction k generalizing m with
  | zero => rfl
  | succ k ih => rw [lastDigits, List.length_append, ih, List.length_singleton]

/-- Digits filled up with zeros are those of the quotient by a power of ten and those behind. -/
theorem zeros_append_toDigits (k m : ℕ) :
    List.replicate (k + 1 - (Nat.toDigits 10 m).length) '0' ++ Nat.toDigits 10 m =
      Nat.toDigits 10 (m / 10 ^ k) ++ lastDigits k m := by
  induction k generalizing m with
  | zero =>
    have hlength : 1 - (Nat.toDigits 10 m).length = 0 :=
      Nat.sub_eq_zero_of_le Nat.length_toDigits_pos
    simp [hlength, lastDigits]
  | succ k ih =>
    -- The last digit is set apart, and what is left are the digits of `m / 10`.
    have hlast : List.replicate (k + 1 + 1 - (Nat.toDigits 10 m).length) '0' ++
        Nat.toDigits 10 m =
          (List.replicate (k + 1 - (Nat.toDigits 10 (m / 10)).length) '0' ++
            Nat.toDigits 10 (m / 10)) ++ [Nat.digitChar (m % 10)] := by
      by_cases hm : m < 10
      · rw [Nat.toDigits_of_lt_base hm, Nat.div_eq_of_lt hm, Nat.mod_eq_of_lt hm,
          Nat.toDigits_zero, List.length_singleton, List.length_singleton, Nat.add_sub_cancel,
          Nat.add_sub_cancel, List.replicate_succ']
      · rw [Nat.toDigits_of_base_le (by decide) (by omega), List.length_append,
          List.length_singleton, Nat.add_sub_add_right, List.append_assoc]
    rw [hlast, ih, lastDigits, Nat.div_div_eq_div_mul, ← Nat.pow_succ', List.append_assoc]

theorem digitsValue_lastDigits (k m : ℕ) :
    digitsValue (Nat.toDigits 10 (m / 10 ^ k) ++ lastDigits k m) = m := by
  rw [← zeros_append_toDigits, digitsValue_zeros_append, digitsValue_toDigits]

theorem isDigits_lastDigits (k m : ℕ) : IsDigits (lastDigits k m) := by
  have hall := (isDigits_zeros (k + 1 - (Nat.toDigits 10 m).length)).append (isDigits_toDigits m)
  rw [zeros_append_toDigits] at hall
  exact fun c hc => hall c (List.mem_append_right _ hc)

theorem pointed_eq (m k : ℕ) :
    General.pointed m k = withPoint (Nat.toDigits 10 (m / 10 ^ k)) (lastDigits k m) := by
  unfold General.pointed withPoint
  dsimp only
  rw [zeros_append_toDigits, List.length_append, length_lastDigits, Nat.add_sub_cancel,
    List.take_left, List.drop_left]
  cases k with
  | zero => simp [lastDigits]
  | succ k => simp [lastDigits]

/-! ### Zeros at the end of a fraction -/

/-- A fraction without the zeros that end it. -/
def trimZeros (fraction : List Char) : List Char := fraction.rdropWhile (· == '0')

theorem exists_zeros (fraction : List Char) :
    ∃ k, fraction = trimZeros fraction ++ List.replicate k '0' := by
  refine ⟨(fraction.rtakeWhile (· == '0')).length, ?_⟩
  have hzeros : List.replicate (fraction.rtakeWhile (· == '0')).length '0' =
      fraction.rtakeWhile (· == '0') :=
    (List.eq_replicate_of_mem fun c hc => by simpa using List.mem_rtakeWhile_imp hc).symm
  rw [hzeros, trimZeros]
  exact (List.rdropWhile_append_rtakeWhile ..).symm

theorem getLast?_trimZeros (fraction : List Char) : (trimZeros fraction).getLast? ≠ some '0' := by
  intro h
  have hne : trimZeros fraction ≠ [] := by
    intro hnil
    rw [hnil] at h
    cases h
  rw [List.getLast?_eq_some_getLast hne, Option.some_inj] at h
  exact List.rdropWhile_last_not (· == '0') fraction hne (beq_iff_eq.mpr h)

theorem IsDigits.trimZeros {fraction : List Char} (h : IsDigits fraction) :
    IsDigits (trimZeros fraction) :=
  fun c hc => h c ((List.rdropWhile_prefix _ _).subset hc)

theorem rdropWhile_zeros (whole fraction : List Char) :
    (whole ++ '.' :: fraction).rdropWhile (· == '0') = whole ++ '.' :: trimZeros fraction := by
  induction fraction using List.reverseRecOn with
  | nil => rw [List.rdropWhile_concat]; rfl
  | append_singleton f c ih =>
    rw [← List.cons_append, ← List.append_assoc, List.rdropWhile_concat, trimZeros,
      List.rdropWhile_concat]
    split
    · exact ih
    · rw [List.append_assoc, List.cons_append]

/-- No point is left at the end of digits. -/
theorem IsDigits.rdropWhile_point {ds : List Char} (h : IsDigits ds) (hne : ds ≠ [])
    (cs : List Char) : (cs ++ ds).rdropWhile (· == '.') = cs ++ ds := by
  refine List.rdropWhile_eq_self_iff.mpr fun _ => ?_
  rw [List.getLast_append_of_right_ne_nil _ _ hne, beq_iff_eq]
  exact h.ne (List.getLast_mem hne) rfl

theorem trimFraction_withPoint {whole fraction : List Char} (hwhole : IsDigits whole)
    (hne : whole ≠ []) (hfraction : IsDigits fraction) :
    General.trimFraction (withPoint whole fraction) = withPoint whole (trimZeros fraction) := by
  have htrim (cs : List Char) : ((cs.reverse.dropWhile (· == '0')).dropWhile (· == '.')).reverse =
      (cs.rdropWhile (· == '0')).rdropWhile (· == '.') := by
    rw [List.rdropWhile, List.rdropWhile, List.reverse_reverse]
  unfold General.trimFraction withPoint
  rw [htrim]
  by_cases hnil : fraction = []
  · have hpoint : '.' ∉ whole := fun hmem => hwhole.ne hmem rfl rfl
    rw [if_pos hnil, List.append_nil, if_neg (by simpa using hpoint), hnil, trimZeros,
      List.rdropWhile_nil, if_pos rfl, List.append_nil]
  · rw [if_neg hnil, if_pos (by simp), rdropWhile_zeros]
    split
    · next hzeros =>
      rw [hzeros, List.rdropWhile_concat_pos _ _ _ rfl, List.append_nil]
      exact hwhole.rdropWhile_point hne []
    · next hdigits =>
      have hkept := hfraction.trimZeros.rdropWhile_point hdigits (whole ++ ['.'])
      rwa [List.append_assoc] at hkept

/-- The numeral of `m` with a point before its last `places` digits, without the zeros that
end the fraction. -/
def ofScaled (negative : Bool) (m places : ℕ) (exponent : Option (Bool × List Char)) : Numeral :=
  ⟨negative, Nat.toDigits 10 (m / 10 ^ places), trimZeros (lastDigits places m), exponent⟩

variable {negative : Bool} {m places : ℕ} {exponent : Option (Bool × List Char)}

theorem wellFormed_ofScaled (h : ∀ x ∈ exponent, IsDigits x.2 ∧ x.2 ≠ []) :
    (ofScaled negative m places exponent).WellFormed where
  whole := isDigits_toDigits _
  whole_ne_nil := Nat.toDigits_ne_nil
  fraction := (isDigits_lastDigits _ _).trimZeros
  exponent := h

theorem chars_ofScaled (negative : Bool) (m places : ℕ) (exponent : Option (Bool × List Char)) :
    (ofScaled negative m places exponent).chars = signChars negative ++
      (General.trimFraction (General.pointed m places) ++ exponentChars exponent) := by
  rw [pointed_eq, trimFraction_withPoint (isDigits_toDigits _) Nat.toDigits_ne_nil
    (isDigits_lastDigits _ _)]
  rfl

/-- Trimmed or not, the number is the same. -/
theorem value_ofScaled (negative : Bool) (m places : ℕ) (exponent : Option (Bool × List Char)) :
    (ofScaled negative m places exponent).value = signed negative
      (m * 10 ^ ((ofScaled negative m places exponent).scale - places)) := by
  obtain ⟨k, hk⟩ := exists_zeros (lastDigits places m)
  have hlength : (places : ℤ) = (trimZeros (lastDigits places m)).length + k := by
    exact_mod_cast (by simpa using congrArg List.length hk)
  have hdigits := digitsValue_lastDigits places m
  rw [hk, ← List.append_assoc, digitsValue_append_zeros] at hdigits
  have hm : (m : ℚ) = 10 ^ (k : ℤ) *
      digitsValue (Nat.toDigits 10 (m / 10 ^ places) ++ trimZeros (lastDigits places m)) := by
    rw [zpow_natCast]
    exact_mod_cast hdigits.symm
  have hplace (e : ℤ) : (10 : ℚ) ^ (e - (trimZeros (lastDigits places m)).length) =
      10 ^ (k : ℤ) * 10 ^ (e - places) := by
    rw [← zpow_add₀ (by norm_num), hlength]
    ring_nf
  generalize hscale : (ofScaled negative m places exponent).scale = e
  rw [value, hscale, hm]
  change signed negative
    (digitsValue (Nat.toDigits 10 (m / 10 ^ places) ++ trimZeros (lastDigits places m)) *
      (10 : ℚ) ^ (e - (trimZeros (lastDigits places m)).length)) = _
  rw [hplace]
  ring_nf

end Numeral

end PixelRecord
