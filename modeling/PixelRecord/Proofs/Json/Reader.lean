import Mathlib.Data.List.Basic
import PixelRecord.Json.Reader

/-!
The parts of JSON text: white space, numbers and string literals.

A part is read from the start of a text, and what follows it is left. So that one statement
serves for a part at the end of a text and for a part in the middle of it, `Extends` says how
a reader of parts treats a text that goes on. A string literal ends by itself; a number has to
be told from what follows it, by `EndsNumber`.
-/

namespace PixelRecord.Json

/-! ### White space -/

def Blanks (w : List Char) : Prop := ∀ c ∈ w, isBlank c = true

theorem skipBlank_append {w : List Char} (h : Blanks w) (cs : List Char) :
    skipBlank (w ++ cs) = skipBlank cs :=
  List.dropWhile_append_of_pos h

theorem skipBlank_cons {c : Char} (h : isBlank c = false) (cs : List Char) :
    skipBlank (c :: cs) = c :: cs :=
  List.dropWhile_cons_of_neg (by simp [h])

@[simp] theorem skipBlank_skipBlank (cs : List Char) :
    skipBlank (skipBlank cs) = skipBlank cs := by
  induction cs with
  | nil => rfl
  | cons c cs ih =>
    cases hc : isBlank c with
    | true => simpa [skipBlank, hc] using ih
    | false => rw [skipBlank_cons hc, skipBlank_cons hc]

theorem blanks_newline (level : Nat) : Blanks (newline level) := by
  intro c hc
  rcases List.mem_cons.mp hc with rfl | hc
  · rfl
  · rw [List.eq_of_mem_replicate hc]
    rfl

/-! ### Numbers and strings -/

/-- A text does not go on a number that stands before it. -/
def EndsNumber (rest : List Char) : Prop :=
  ∀ c ∈ rest.head?, c.isDigit = false ∧ c ≠ '.' ∧ c ≠ 'e' ∧ c ≠ 'E'

/-- What is read from the start of a text is also read where the text goes on. If it was read
to the end of the text, what the text goes on with must not belong to a number. -/
def Extends (p : List Char → Option (List Char × List Char)) : Prop :=
  ∀ {cs t r}, p cs = some (t, r) →
    ∀ rest, (r = [] → EndsNumber rest) → p (cs ++ rest) = some (t, r ++ rest)

theorem endsNumber_nil : EndsNumber [] := fun _ hc => nomatch hc

theorem EndsNumber.takeWhile {rest : List Char} (h : EndsNumber rest) :
    rest.takeWhile Char.isDigit = [] := by
  cases rest with
  | nil => rfl
  | cons c rest => exact List.takeWhile_cons_of_neg (by simp [(h c rfl).1])

theorem EndsNumber.dropWhile {rest : List Char} (h : EndsNumber rest) :
    rest.dropWhile Char.isDigit = rest := by
  cases rest with
  | nil => rfl
  | cons c rest => exact List.dropWhile_cons_of_neg (by simp [(h c rfl).1])

theorem takeWhile_digits_append {cs rest : List Char}
    (h : cs.dropWhile Char.isDigit = [] → EndsNumber rest) :
    (cs ++ rest).takeWhile Char.isDigit = cs.takeWhile Char.isDigit ∧
      (cs ++ rest).dropWhile Char.isDigit = cs.dropWhile Char.isDigit ++ rest := by
  induction cs with
  | nil => exact ⟨(h rfl).takeWhile, (h rfl).dropWhile⟩
  | cons c cs ih =>
    cases hc : c.isDigit with
    | true =>
      obtain ⟨htake, hdrop⟩ := ih fun hcs => h (by simpa [hc] using hcs)
      simp [hc, htake, hdrop]
    | false => simp [hc]

theorem digits_eq_some_iff {cs t r : List Char} :
    digits cs = some (t, r) ↔
      cs.takeWhile Char.isDigit = t ∧ cs.dropWhile Char.isDigit = r ∧ t ≠ [] := by
  unfold digits
  split
  · next h =>
    rw [h]
    simp +contextual [eq_comm]
  · next h => grind

theorem extends_digits : Extends digits := by
  intro cs t r h rest hrest
  obtain ⟨rfl, rfl, hne⟩ := digits_eq_some_iff.mp h
  obtain ⟨htake, hdrop⟩ := takeWhile_digits_append hrest
  exact digits_eq_some_iff.mpr ⟨htake, hdrop, hne⟩

/-- What is read after a character that stands in front of it. -/
theorem Extends.after {p : List Char → Option (List Char × List Char)} (hp : Extends p)
    (c : Char) {cs t r : List Char}
    (h : (p cs).map (fun (ds, rest) => (c :: ds, rest)) = some (t, r)) (rest : List Char)
    (hrest : r = [] → EndsNumber rest) :
    (p (cs ++ rest)).map (fun (ds, rest) => (c :: ds, rest)) = some (t, r ++ rest) := by
  obtain ⟨⟨ds, r'⟩, hds, heq⟩ := Option.map_eq_some_iff.mp h
  cases heq
  rw [hp hds rest hrest]
  rfl

-- Each of the following parts looks at one character and goes on as it says. The equations
-- without that character come first.

theorem integerPart_cons {c : Char} (h : c ≠ '0') (cs : List Char) :
    integerPart (c :: cs) = digits (c :: cs) := by
  unfold integerPart
  split <;> simp_all

theorem fractionPart_cons {c : Char} (h : c ≠ '.') (cs : List Char) :
    fractionPart (c :: cs) = some ([], c :: cs) := by
  unfold fractionPart
  split <;> simp_all

theorem signedDigits_cons {c : Char} (hp : c ≠ '+') (hm : c ≠ '-') (cs : List Char) :
    signedDigits (c :: cs) = digits (c :: cs) := by
  unfold signedDigits
  split <;> simp_all

theorem exponentPart_cons {c : Char} (he : c ≠ 'e') (hE : c ≠ 'E') (cs : List Char) :
    exponentPart (c :: cs) = some ([], c :: cs) := by
  unfold exponentPart
  split <;> simp_all

theorem numberText_cons {c : Char} (h : c ≠ '-') (cs : List Char) :
    numberText (c :: cs) = unsignedNumber (c :: cs) := by
  unfold numberText
  split <;> simp_all

theorem extends_integerPart : Extends integerPart := by
  intro cs t r h rest hrest
  rcases cs with _ | ⟨c, cs⟩
  · cases h
  rcases eq_or_ne c '0' with rfl | hc
  · cases h
    rfl
  · rw [integerPart_cons hc] at h
    rw [List.cons_append, integerPart_cons hc]
    exact extends_digits h rest hrest

theorem extends_fractionPart : Extends fractionPart := by
  intro cs t r h rest hrest
  rcases cs with _ | ⟨c, cs⟩
  · cases h
    rcases rest with _ | ⟨d, rest⟩
    · rfl
    · exact fractionPart_cons (hrest rfl d rfl).2.1 rest
  rcases eq_or_ne c '.' with rfl | hc
  · exact extends_digits.after '.' h rest hrest
  · rw [fractionPart_cons hc] at h
    cases h
    exact fractionPart_cons hc (cs ++ rest)

theorem extends_signedDigits : Extends signedDigits := by
  intro cs t r h rest hrest
  rcases cs with _ | ⟨c, cs⟩
  · cases h
  rcases eq_or_ne c '+' with rfl | hp
  · exact extends_digits.after '+' h rest hrest
  rcases eq_or_ne c '-' with rfl | hm
  · exact extends_digits.after '-' h rest hrest
  · rw [signedDigits_cons hp hm] at h
    rw [List.cons_append, signedDigits_cons hp hm]
    exact extends_digits h rest hrest

theorem extends_exponentPart : Extends exponentPart := by
  intro cs t r h rest hrest
  rcases cs with _ | ⟨c, cs⟩
  · cases h
    rcases rest with _ | ⟨d, rest⟩
    · rfl
    · exact exponentPart_cons (hrest rfl d rfl).2.2.1 (hrest rfl d rfl).2.2.2 rest
  rcases eq_or_ne c 'e' with rfl | he
  · exact extends_signedDigits.after 'e' h rest hrest
  rcases eq_or_ne c 'E' with rfl | hE
  · exact extends_signedDigits.after 'E' h rest hrest
  · rw [exponentPart_cons he hE] at h
    cases h
    exact exponentPart_cons he hE (cs ++ rest)

theorem unsignedNumber_eq_some_iff {cs t r : List Char} :
    unsignedNumber cs = some (t, r) ↔
      ∃ whole r₁ fraction r₂ exponent, integerPart cs = some (whole, r₁) ∧
        fractionPart r₁ = some (fraction, r₂) ∧ exponentPart r₂ = some (exponent, r) ∧
        whole ++ fraction ++ exponent = t := by
  simp [unsignedNumber, Option.bind_eq_some_iff, Prod.exists]

theorem extends_unsignedNumber : Extends unsignedNumber := by
  intro cs t r h rest hrest
  obtain ⟨whole, r₁, fraction, r₂, exponent, hwhole, hfraction, hexponent, rfl⟩ :=
    unsignedNumber_eq_some_iff.mp h
  -- Where an earlier part reaches the end of the text, so do the parts after it.
  have hend₂ : r₂ = [] → EndsNumber rest := by
    rintro rfl
    cases hexponent
    exact hrest rfl
  have hend₁ : r₁ = [] → EndsNumber rest := by
    rintro rfl
    cases hfraction
    exact hend₂ rfl
  exact unsignedNumber_eq_some_iff.mpr ⟨whole, r₁ ++ rest, fraction, r₂ ++ rest, exponent,
    extends_integerPart hwhole rest hend₁, extends_fractionPart hfraction rest hend₂,
    extends_exponentPart hexponent rest hrest, rfl⟩

theorem extends_numberText : Extends numberText := by
  intro cs t r h rest hrest
  rcases cs with _ | ⟨c, cs⟩
  · cases h
  rcases eq_or_ne c '-' with rfl | hc
  · exact extends_unsignedNumber.after '-' h rest hrest
  · rw [numberText_cons hc] at h
    rw [List.cons_append, numberText_cons hc]
    exact extends_unsignedNumber h rest hrest

/-- A number starts with a digit or with its sign. -/
theorem head_of_numberText {c : Char} {cs t r : List Char}
    (h : numberText (c :: cs) = some (t, r)) : c = '-' ∨ c.isDigit := by
  rcases eq_or_ne c '-' with rfl | hm
  · exact .inl rfl
  rw [numberText_cons hm] at h
  obtain ⟨whole, r₁, -, -, -, hwhole, -⟩ := unsignedNumber_eq_some_iff.mp h
  rcases eq_or_ne c '0' with rfl | hz
  · exact .inr rfl
  rw [integerPart_cons hz] at hwhole
  obtain ⟨rfl, -, hne⟩ := digits_eq_some_iff.mp hwhole
  by_contra hc
  rw [not_or] at hc
  exact hne (List.takeWhile_cons_of_neg hc.2)

theorem literal_unicode {a b c d : Char}
    (h : (isHexDigit a && isHexDigit b && isHexDigit c && isHexDigit d) = true) (cs : List Char) :
    literal ('\\' :: 'u' :: a :: b :: c :: d :: cs) =
      (literal cs).map fun (l, rest) => ('\\' :: 'u' :: a :: b :: c :: d :: l, rest) := by
  rw [literal, if_pos h]

theorem literal_escape {e : Char} (h : isEscape e = true) (cs : List Char) :
    literal ('\\' :: e :: cs) = (literal cs).map fun (l, rest) => ('\\' :: e :: l, rest) := by
  have hu : e ≠ 'u' := by
    rintro rfl
    cases h
  rw [literal.eq_4 _ _ (fun _ _ _ _ _ h => absurd h hu), if_pos h]

theorem literal_char {c : Char} (hq : c ≠ '"') (hlow : ¬c.toNat < 0x20) (hb : c ≠ '\\')
    (cs : List Char) :
    literal (c :: cs) = (literal cs).map fun (l, rest) => (c :: l, rest) := by
  rw [literal.eq_5 _ _ hq (fun _ _ _ _ _ hc => absurd hc hb) (fun _ _ hc => absurd hc hb),
    if_neg (by simp [hlow, hb])]

/-- A string literal ends where its closing quote is, whatever the text goes on with. -/
theorem literal_append {cs l r : List Char} (h : literal cs = some (l, r)) (rest : List Char) :
    literal (cs ++ rest) = some (l, r ++ rest) := by
  fun_induction literal cs generalizing l r with
  | case1 | case4 | case6 | case7 => cases h
  | case2 =>
    cases h
    rfl
  | case3 a b c d cs hhex ih =>
    obtain ⟨⟨l, r'⟩, hl, ⟨⟩⟩ := Option.map_eq_some_iff.mp h
    simp only [List.cons_append, literal_unicode hhex, ih hl, Option.map_some]
  | case5 e cs _ hesc ih =>
    obtain ⟨⟨l, r'⟩, hl, ⟨⟩⟩ := Option.map_eq_some_iff.mp h
    simp only [List.cons_append, literal_escape hesc, ih hl, Option.map_some]
  | case8 c cs hq _ _ hc ih =>
    obtain ⟨⟨l, r'⟩, hl, ⟨⟩⟩ := Option.map_eq_some_iff.mp h
    obtain ⟨hlow, hb⟩ : ¬c.toNat < 0x20 ∧ c ≠ '\\' := by simpa using hc
    simp only [List.cons_append, literal_char hq hlow hb, ih hl, Option.map_some]

end PixelRecord.Json
