import Mathlib.Data.List.TakeWhile
import PixelRecord.Settings
import PixelRecord.Proofs.Json.Printed

/-!
What written documents mean.

A text is written with escapes and means itself; a number that is written is the number; and
of an object whose keys are written from names, `fields?` sees the first value under each
name, unless a name comes twice or, where that is asked for, a key is no name.
-/

namespace PixelRecord.Json

/-! ### Escapes -/

theorem hexValue_hexDigit : ∀ {n : Nat}, n < 16 → hexValue (hexDigit n) = n := by
  decide

theorem isHexDigit_hexDigit : ∀ {n : Nat}, n < 16 → isHexDigit (hexDigit n) = true := by
  decide

/-- The three ways to write a character: as itself, by a letter, and by its number. -/
theorem escapeChar_cases (c : Char) :
    (c ≠ '"' ∧ c ≠ '\\' ∧ ¬c.toNat < 0x20 ∧ escapeChar c = [c]) ∨
      (∃ e, isEscape e = true ∧ escaped e = c ∧ escapeChar c = ['\\', e]) ∨
      (c.toNat < 0x20 ∧ escapeChar c =
        ['\\', 'u', '0', '0', hexDigit (c.toNat / 16), hexDigit (c.toNat % 16)]) := by
  unfold escapeChar
  split
  case h_8 hq hb _ _ _ _ _ =>
    split
    · next hlow => exact .inr (.inr ⟨hlow, rfl⟩)
    · next hlow => exact .inl ⟨hq, hb, hlow, rfl⟩
  all_goals exact .inr (.inl ⟨_, rfl, rfl, rfl⟩)

theorem literal_escapeChar_append (c : Char) {cs l r : List Char}
    (h : literal cs = some (l, r)) :
    literal (escapeChar c ++ cs) = some (escapeChar c ++ l, r) := by
  obtain ⟨hq, hb, hlow, heq⟩ | ⟨e, he, -, heq⟩ | ⟨hlow, heq⟩ := escapeChar_cases c
  · simp [heq, literal_char hq hlow hb, h]
  · simp [heq, literal_escape he, h]
  · have hhex : (isHexDigit '0' && isHexDigit '0' && isHexDigit (hexDigit (c.toNat / 16)) &&
        isHexDigit (hexDigit (c.toNat % 16))) = true := by
      rw [isHexDigit_hexDigit (by omega), isHexDigit_hexDigit (by omega)]
      rfl
    simp [heq, literal_unicode hhex, h]

theorem isLiteral_escape (cs : List Char) : IsLiteral (escape cs) := by
  induction cs with
  | nil => rfl
  | cons c cs ih =>
    rw [IsLiteral, escape, List.flatMap_cons, List.append_assoc]
    exact literal_escapeChar_append c ih

theorem spell_unit {n : Nat} (h : n < 0x20) (ps : List Piece) :
    spell (.unit n :: ps) = (spell ps).map (Char.ofNat n :: ·) := by
  have hhigh : isHigh n = false := by
    simp [isHigh]
    omega
  have hlow : isLow n = false := by
    simp [isLow]
    omega
  rcases ps with _ | ⟨_ | m, ps⟩ <;> simp [spell, hhigh, hlow]

theorem unescape_escapeChar_append (c : Char) (cs : List Char) :
    unescape (escapeChar c ++ cs) = (unescape cs).map (c :: ·) := by
  obtain ⟨-, hb, -, heq⟩ | ⟨e, he, rfl, heq⟩ | ⟨hlow, heq⟩ := escapeChar_cases c
  · rw [heq, List.singleton_append, unescape, pieces.eq_4 _ _
      (fun _ _ _ _ _ hc => absurd hc hb) (fun _ _ hc => absurd hc hb), spell]
    rfl
  · have hu : e ≠ 'u' := by
      rintro rfl
      cases he
    rw [heq, List.cons_append, List.singleton_append, unescape,
      pieces.eq_3 _ _ (fun _ _ _ _ _ hc => absurd hc hu), spell]
    rfl
  · have hzero : hexValue '0' = 0 := rfl
    have hvalue : ((hexValue '0' * 16 + hexValue '0') * 16 + hexValue (hexDigit (c.toNat / 16))) *
        16 + hexValue (hexDigit (c.toNat % 16)) = c.toNat := by
      rw [hzero, hexValue_hexDigit (by omega), hexValue_hexDigit (by omega)]
      omega
    simp only [heq, List.cons_append, List.nil_append, unescape, pieces]
    rw [hvalue, spell_unit hlow, Char.ofNat_toNat]

theorem unescape_escape (cs : List Char) : unescape (escape cs) = some cs := by
  induction cs with
  | nil => rfl
  | cons c cs ih =>
    rw [escape, List.flatMap_cons, unescape_escapeChar_append, ← escape, ih]
    rfl

theorem legible_ofText (s : String) : Legible (ofText s) := .string (isLiteral_escape s.toList)

theorem named?_ofText {α : Type} {all : List α} {name : α → String} {a : α}
    (h : byName? all name (name a).toList = some a) :
    named? all name (ofText (name a)) = some a := by
  rw [ofText, named?, unescape_escape, Option.bind_some, h]

/-! ### Numbers -/

theorem head?_toDigits {n : Nat} (h : n ≠ 0) : (Nat.toDigits 10 n).head? ≠ some '0' := by
  induction n using Nat.base_induction 10 (by decide) with
  | single m hm =>
    have hall : ∀ m < 10, m ≠ 0 → Nat.digitChar m ≠ '0' := by decide
    simpa [Nat.toDigits_of_lt_base hm] using hall m hm h
  | digit m k hk hm ih =>
    rw [← Nat.toDigits_append_toDigits (by decide) hm hk,
      List.head?_append_of_ne_nil _ Nat.toDigits_ne_nil]
    exact ih hm.ne'

theorem isNumber_toDigits (n : Nat) : IsNumber (Nat.toDigits 10 n) := by
  rcases eq_or_ne n 0 with rfl | hn
  · rfl
  obtain ⟨c, cs, hcs⟩ := List.exists_cons_of_ne_nil (Nat.toDigits_ne_nil (b := 10) (n := n))
  have hdigits : ∀ d ∈ c :: cs, d.isDigit = true := by
    intro d hd
    exact Nat.isDigit_of_mem_toDigits (b := 10) (n := n) (by decide) (by decide) (hcs ▸ hd)
  have hzero : c ≠ '0' := by
    rintro rfl
    exact head?_toDigits hn (by rw [hcs, List.head?_cons])
  have hminus : c ≠ '-' := by
    rintro rfl
    exact absurd (hdigits '-' (by simp)) (by decide)
  have hinteger : integerPart (c :: cs) = some (c :: cs, []) := by
    rw [integerPart_cons hzero]
    exact digits_eq_some_iff.mpr ⟨List.takeWhile_eq_self_iff.mpr hdigits,
      List.dropWhile_eq_nil_iff.mpr hdigits, by simp⟩
  rw [IsNumber, hcs, numberText_cons hminus]
  exact unsignedNumber_eq_some_iff.mpr ⟨c :: cs, [], [], [], [], hinteger, rfl, rfl, by simp⟩

theorem legible_ofNat (n : Nat) : Legible (ofNat n) := .number (isNumber_toDigits n)

theorem decimalValue_toDigits (n : Nat) : decimalValue (Nat.toDigits 10 n) = n :=
  Nat.ofDigitChars_ten_toDigits

theorem nat?_ofNat {n bound : Nat} (h : n < bound) : (ofNat n).nat? bound = some n := by
  have hdigits : (Nat.toDigits 10 n).all Char.isDigit = true :=
    List.all_eq_true.mpr fun c hc => Nat.isDigit_of_mem_toDigits (by decide) (by decide) hc
  simp [ofNat, nat?, hdigits, decimalValue_toDigits, h]

@[simp] theorem word?_ofNat (n : UInt64) : (ofNat n.toNat).word? = some n := by
  simp [word?, nat?_ofNat n.toNat_lt]

/-! ### Fields -/

/-- No name of a field comes twice among the keys, and, if `strict`, every key is a name. -/
structure FieldKeys (strict : Bool) (names keys : List String) : Prop where
  once : ∀ name ∈ names, keys.count name ≤ 1
  known : strict = true → ∀ key ∈ keys, key ∈ names

section Fields

variable (strict : Bool) (names : List String) (ms : List (String × Json))

theorem legible_ofMembers {ms : List (String × Json)} (h : ∀ m ∈ ms, Legible m.2) :
    Legible (ofMembers ms) := by
  refine .object ?_ ?_
  · rintro _ hm
    obtain ⟨m, -, rfl⟩ := List.mem_map.mp hm
    exact isLiteral_escape _
  · rintro _ hm
    obtain ⟨m, hmem, rfl⟩ := List.mem_map.mp hm
    exact h m hmem

theorem keyed_escape :
    keyed (ms.map fun (key, value) => (escape key.toList, value)) =
      some (ms.map fun (key, value) => (key.toList, value)) := by
  induction ms with
  | nil => rfl
  | cons m ms ih => simp [keyed, unescape_escape, ih]

theorem field_eq_lookup (name : String) :
    field (ms.map fun (key, value) => (key.toList, value)) name = ms.lookup name := by
  induction ms with
  | nil => rfl
  | cons m ms ih =>
    obtain ⟨key, value⟩ := m
    rw [List.lookup_cons, ← ih]
    rcases eq_or_ne name key with rfl | hne
    · simp [field]
    · rw [beq_false_of_ne hne]
      simp [field, hne.symm, String.toList_inj]

theorem wellKeyed_iff :
    wellKeyed strict names (ms.map fun (key, value) => (key.toList, value)) = true ↔
      FieldKeys strict names (ms.map Prod.fst) := by
  have hcount (name : String) :
      ms.countP (fun m => m.1 = name) = (ms.map Prod.fst).count name := by
    rw [List.count, List.countP_map]
    exact List.countP_congr fun m _ => by simp
  have hiff : wellKeyed strict names (ms.map fun (key, value) => (key.toList, value)) = true ↔
      (∀ name ∈ names, ms.countP (fun m => m.1 = name) ≤ 1) ∧
        (strict = false ∨ ∀ key ∈ ms.map Prod.fst, key ∈ names) := by
    simp [wellKeyed, List.countP_map, Function.comp_def, String.toList_inj]
  simp only [hiff, hcount]
  constructor
  · rintro ⟨honce, hstrict⟩
    exact ⟨honce, fun h => hstrict.resolve_left (by simp [h])⟩
  · rintro ⟨honce, hstrict⟩
    cases strict with
    | false => exact ⟨honce, .inl rfl⟩
    | true => exact ⟨honce, .inr (hstrict rfl)⟩

theorem fields?_ofMembers (h : FieldKeys strict names (ms.map Prod.fst)) :
    fields? strict names (ofMembers ms) = some (names.map fun name => ms.lookup name) := by
  simp only [ofMembers, fields?, keyed_escape, (wellKeyed_iff strict names ms).mpr h, if_true]
  congr
  funext name
  exact field_eq_lookup ms name

theorem fields?_ofMembers_eq_none (h : ¬FieldKeys strict names (ms.map Prod.fst)) :
    fields? strict names (ofMembers ms) = none := by
  simp only [ofMembers, fields?, keyed_escape]
  exact if_neg (mt (wellKeyed_iff strict names ms).mp h)

end Fields

end PixelRecord.Json
