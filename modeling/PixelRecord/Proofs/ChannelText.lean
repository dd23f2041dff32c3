import Mathlib.Algebra.Order.Round
import PixelRecord.DeviceColor
import PixelRecord.Proofs.Number.General
import PixelRecord.Proofs.Record

/-!
The texts of a record's channels tell which record it is.

The text of a raw value is its digits. The text of a fraction has been rounded twice, to
the 24 bits of a quotient and to six decimal digits, and either time by a small part of the
fraction; on the scale of the depth both together are less than half a step, so the nearest
value of the scale is the one that was written. Every byte of a record belongs to a value,
so records with the same texts are the same.
-/

namespace PixelRecord

/-! ### Fractions -/

section Fraction

open Numeral

variable {v : ℕ}

theorem Binary.value?_quotient {den : ℕ} (hv : 0 < v) (hden : 0 < den) :
    (Binary.quotient v den).value? = some (roundTo 2 Binary.singleBits (v / den)) := by
  have h := Ratio.rounded_significant (by decide : 1 < 2) (by decide : 0 < Binary.singleBits)
    (⟨hv, hden⟩ : Ratio.Positive ⟨v, den⟩)
  rw [Binary.quotient, if_neg hv.ne']
  exact congrArg some h.eq

/-- Rounded to 24 bits and to six digits, a fraction of the scale is off by less than half a
step. -/
theorem abs_fraction_sub_lt (d : Depth) (hv : 0 < v) (hle : v ≤ d.max) :
    |roundTo 10 6 (roundTo 2 24 (v / d.max)) * d.max - v| < 1 / 2 := by
  have hmax : (0 : ℚ) < d.max := by exact_mod_cast d.max_pos
  have hle' : (v : ℚ) ≤ 65535 := by
    have : d.max ≤ 65535 := by cases d <;> decide
    exact_mod_cast hle.trans this
  have hx : (0 : ℚ) < v / d.max := div_pos (by exact_mod_cast hv) hmax
  have hscale : (v : ℚ) / d.max * d.max = v := div_mul_cancel₀ _ hmax.ne'
  generalize (v : ℚ) / d.max = x at hx hscale ⊢
  -- Both errors are relative; the second one is taken from a number that is off already.
  have hbits := abs_roundTo_sub_le_mul (by decide : 1 < 2) 24 hx.ne'
  generalize roundTo 2 24 x = y at hbits ⊢
  norm_num [abs_of_pos hx] at hbits
  obtain ⟨hlow, hhigh⟩ := abs_le.mp hbits
  have hy : 0 < y := by linarith
  have hdigits := abs_roundTo_sub_le_mul (by decide : 1 < 10) 6 hy.ne'
  generalize roundTo 10 6 y = z at hdigits ⊢
  norm_num [abs_of_pos hy] at hdigits
  have herror : |z - x| ≤ x * (1 / 190000) := by
    have htriangle := abs_sub_le z y x
    linarith
  rw [← hscale, ← sub_mul, abs_mul, abs_of_pos hmax]
  calc |z - x| * d.max ≤ x * (1 / 190000) * d.max := mul_le_mul_of_nonneg_right herror hmax.le
    _ = v * (1 / 190000) := by rw [← hscale]; ring
    _ < 1 / 2 := by linarith

/-- The fraction's text reads as a number nearest to the value, on the scale of the depth. -/
theorem read?_fractionText (d : Depth) (hle : v ≤ d.max) :
    ∃ n, read? (Format.fractionText d v).toList = some n ∧ round (n.value * d.max) = (v : ℤ) := by
  rcases Nat.eq_zero_or_pos v with rfl | hv
  · refine ⟨⟨false, ['0'], [], none⟩, by cases d <;> rfl, ?_⟩
    have hzero : digitsValue ['0'] = 0 := rfl
    simp [value, signed, hzero]
  · have hquotient := Binary.value?_quotient hv d.max_pos
    have hx : (0 : ℚ) < v / d.max :=
      div_pos (by exact_mod_cast hv) (by exact_mod_cast d.max_pos)
    have hne := (roundTo_pos (by decide : 1 < 2) (by decide : 0 < Binary.singleBits) hx).ne'
    obtain ⟨n, hwell, hchars, hwrites⟩ := General.chars_writes hquotient hne Format.fractionDigits
    refine ⟨n, read?_eq_some_iff.mpr ⟨hwell, ?_⟩, ?_⟩
    · rw [hchars, Format.fractionText, General.text, String.toList_ofList]
    · rw [hwrites.value]
      change round (roundTo 10 6 (roundTo 2 24 (v / d.max)) * (d.max : ℚ)) = v
      obtain ⟨hlow, hhigh⟩ := abs_lt.mp (abs_fraction_sub_lt d hv hle)
      rw [round_eq_iff, Set.mem_Ico, Int.cast_natCast]
      constructor <;> linarith

end Fraction

/-! ### Texts of a record -/

/-- The integer that a text of digits stands for. -/
def Numeral.natural? (cs : List Char) : Option ℕ :=
  if cs ≠ [] ∧ IsDigits cs then some (digitsValue cs) else none

theorem Numeral.natural?_toDigits (v : ℕ) : natural? (Nat.toDigits 10 v) = some v := by
  rw [natural?, if_pos ⟨Nat.toDigits_ne_nil, isDigits_toDigits v⟩, digitsValue_toDigits]

theorem Layout.kind_of_checkRecords {l : Layout} {size count : Nat} {what : String} {e : Error}
    (h : l.checkRecords size count what = .error e) : e.kind = .buffer := by
  unfold checkRecords at h
  dsimp only at h
  split at h
  · cases h
    rfl
  · split at h
    · cases h
      rfl
    · cases h

namespace Format

variable {f : Format} {buf a b : Bytes} {index : Nat} {ch : Channel}

/-- What the texts of a channel say about its value. -/
structure Tells (f : Format) (buf : Bytes) (index v : Nat) : Prop where
  raw : ∃ text, f.channelText buf index = .ok text ∧ Numeral.natural? text.toList = some v
  fraction : ∃ text n, f.normalizedChannelText buf index = .ok text ∧
    Numeral.read? text.toList = some n ∧ round (n.value * f.depth.max) = (v : ℤ)

/-- Texts say one value at most. -/
theorem Tells.eq_of_raw {v w : Nat} (hv : f.Tells a index v) (hw : f.Tells b index w)
    (h : f.channelText a index = f.channelText b index) : v = w := by
  obtain ⟨text, hok, hread⟩ := hv.raw
  obtain ⟨text', hok', hread'⟩ := hw.raw
  obtain rfl : text = text' := Except.ok.inj (hok.symm.trans (h.trans hok'))
  exact Option.some.inj (hread.symm.trans hread')

theorem Tells.eq_of_fraction {v w : Nat} (hv : f.Tells a index v) (hw : f.Tells b index w)
    (h : f.normalizedChannelText a index = f.normalizedChannelText b index) : v = w := by
  obtain ⟨text, n, hok, hread, hround⟩ := hv.fraction
  obtain ⟨text', n', hok', hread', hround'⟩ := hw.fraction
  obtain rfl : text = text' := Except.ok.inj (hok.symm.trans (h.trans hok'))
  obtain rfl : n = n' := Option.some.inj (hread.symm.trans hread')
  exact_mod_cast hround.symm.trans hround'

theorem channelValue_eq_ok (hw : f.Wide) (hch : f.layout.channels[index]? = some ch)
    (hrecord : f.recordSize ≤ buf.size) (hspace : buf.size < Layout.addressSpace) (what : String) :
    f.channelValue buf index what = .ok (f.depth.load buf ch.position) := by
  have hcheck : f.layout.checkRecords buf.size 1 what = .ok () :=
    Layout.checkRecords_eq_ok_iff.mpr (by
      rw [Nat.one_mul]
      exact ⟨hrecord.trans_lt hspace, hrecord⟩)
  have hholds : ch.Holds f.depth buf.size 0 :=
    hw.holds (List.mem_of_getElem? hch) ((Nat.zero_add _).trans_le hrecord)
  simp only [channelValue, Layout.channel, hch, hcheck]
  rw [Channel.load_eq_ok hholds, Nat.zero_add]

theorem channelValue_of_length_le (h : f.layout.channels.length ≤ index) (what : String) :
    f.channelValue buf index what =
      .error (.refused (.noSuchChannel index f.layout.channels.length)) := by
  simp only [channelValue, Layout.channel, List.getElem?_eq_none h]

theorem channelValue_of_short (hindex : index < f.layout.channels.length)
    (hshort : buf.size < f.recordSize) (what : String) :
    ∃ e, f.channelValue buf index what = .error (.refused e) ∧ e.kind = .buffer := by
  simp only [channelValue, Layout.channel, List.getElem?_eq_getElem hindex]
  cases hcheck : f.layout.checkRecords buf.size 1 what with
  | error e => exact ⟨e, rfl, Layout.kind_of_checkRecords hcheck⟩
  | ok u =>
    have hfit := (Layout.checkRecords_eq_ok_iff.mp hcheck).2
    rw [Nat.one_mul] at hfit
    exact absurd hfit hshort.not_ge

theorem tells (hw : f.Wide) (hch : f.layout.channels[index]? = some ch)
    (hrecord : f.recordSize ≤ buf.size) (hspace : buf.size < Layout.addressSpace) :
    f.Tells buf index (f.depth.load buf ch.position) where
  raw := by
    refine ⟨String.ofList (Nat.toDigits 10 (f.depth.load buf ch.position)), ?_, ?_⟩
    · rw [channelText, channelValue_eq_ok hw hch hrecord hspace]
      rfl
    · rw [String.toList_ofList, Numeral.natural?_toDigits]
  fraction := by
    obtain ⟨n, hread, hround⟩ := read?_fractionText f.depth (f.depth.load_le_max buf ch.position)
    refine ⟨_, n, ?_, hread, hround⟩
    rw [normalizedChannelText, channelValue_eq_ok hw hch hrecord hspace]
    rfl

/-- Equal values of the channels at all indices are equal records. -/
theorem Exact.extract_eq_of_index (he : f.Exact) (ha : f.recordSize ≤ a.size)
    (hb : f.recordSize ≤ b.size)
    (h : ∀ (index : Nat) (ch : Channel), f.layout.channels[index]? = some ch →
      f.depth.load a ch.position = f.depth.load b ch.position) :
    a.extract 0 f.recordSize = b.extract 0 f.recordSize := by
  refine he.extract_eq ha hb (valuesAt_eq_iff.mpr fun ch hch => ?_)
  obtain ⟨index, hindex⟩ := List.mem_iff_getElem?.mp hch
  rw [Nat.zero_add]
  exact h index ch hindex

/-- A call is refused for a reason of some kind. -/
def RefusedFor {α : Type} (kind : ErrorKind) (outcome : Except Failure α) : Prop :=
  ∃ e, outcome = .error (.refused e) ∧ e.kind = kind

/-- **Texts identify records.** The texts of a channel tell its value, the one as an integer
and the other as a fraction of the greatest value; so records of which all texts of one kind
are the same have the same bytes. A channel that is not declared is refused as such, and a
buffer without a whole record as a buffer. -/
theorem texts_identify (he : f.Exact) :
    (∀ buf : Bytes, f.recordSize ≤ buf.size → buf.size < Layout.addressSpace →
        ∀ index ch, f.layout.channels[index]? = some ch →
          f.Tells buf index (f.depth.load buf ch.position)) ∧
      (∀ a b : Bytes, f.recordSize ≤ a.size → a.size < Layout.addressSpace →
        f.recordSize ≤ b.size → b.size < Layout.addressSpace →
        (∀ index < f.layout.channels.length, f.channelText a index = f.channelText b index) ∨
          (∀ index < f.layout.channels.length,
            f.normalizedChannelText a index = f.normalizedChannelText b index) →
        a.extract 0 f.recordSize = b.extract 0 f.recordSize) ∧
      (∀ (buf : Bytes) (index : Nat), f.layout.channels.length ≤ index →
        RefusedFor .channel (f.channelText buf index) ∧
          RefusedFor .channel (f.normalizedChannelText buf index)) ∧
      ∀ (buf : Bytes), buf.size < f.recordSize → ∀ index < f.layout.channels.length,
        RefusedFor .buffer (f.channelText buf index) ∧
          RefusedFor .buffer (f.normalizedChannelText buf index) := by
  refine ⟨?_, ?_, ?_, ?_⟩
  · intro buf hrecord hspace index ch hch
    exact tells he.wide hch hrecord hspace
  · intro a b ha hspace hb hspace' htexts
    refine he.extract_eq_of_index ha hb fun index ch hch => ?_
    have hindex : index < f.layout.channels.length := (List.getElem?_eq_some_iff.mp hch).1
    have htells := tells he.wide hch ha hspace
    have htells' := tells he.wide hch hb hspace'
    rcases htexts with hraw | hfraction
    · exact htells.eq_of_raw htells' (hraw index hindex)
    · exact htells.eq_of_fraction htells' (hfraction index hindex)
  · intro buf index hindex
    simp only [channelText, normalizedChannelText, channelValue_of_length_le hindex]
    exact ⟨⟨_, rfl, rfl⟩, ⟨_, rfl, rfl⟩⟩
  · intro buf hshort index hindex
    obtain ⟨e, hrefused, hkind⟩ := channelValue_of_short hindex hshort "channel_value_text"
    obtain ⟨e', hrefused', hkind'⟩ :=
      channelValue_of_short hindex hshort "normalised_channel_value_text"
    rw [channelText, normalizedChannelText, hrefused, hrefused']
    exact ⟨⟨e, rfl, hkind⟩, ⟨e', rfl, hkind'⟩⟩

/-- A record of 16-bit values, the least and the greatest ones among them. -/
theorem texts_identify_sixteen :
    let f : Format := ⟨.sixteen, .bgra .sixteen⟩
    let buf : Bytes := #[255, 127, 0, 0, 1, 0, 255, 255]
    f.Exact ∧ f.normalizedChannelText buf 0 = .ok "1.5259e-05" ∧
      (∃ n, Numeral.read? "1.5259e-05".toList = some n ∧ round (n.value * 65535) = 1) ∧
      (∀ other : Bytes, other.size = 8 → (∀ index < 4,
        f.normalizedChannelText other index = f.normalizedChannelText buf index) → other = buf) ∧
      RefusedFor .channel (f.channelText buf 4) ∧
      RefusedFor .buffer (f.normalizedChannelText #[255, 127, 0] 3) := by
  intro f buf
  have he : f.Exact := by decide
  obtain ⟨htells, hidentify, hchannel, hbuffer⟩ := texts_identify he
  have htext : f.normalizedChannelText buf 0 = .ok "1.5259e-05" := by decide +kernel
  have hshort : (#[255, 127, 0] : Bytes).size < f.recordSize := by decide
  refine ⟨he, htext, ?_, ?_, (hchannel buf 4 (by decide)).1, (hbuffer _ hshort 3 (by decide)).2⟩
  · obtain ⟨text, n, hok, hread, hround⟩ :=
      (htells buf (by decide) (by decide) 0 _ rfl).fraction
    obtain rfl : "1.5259e-05" = text := Except.ok.inj (htext.symm.trans hok)
    exact ⟨n, hread, hround⟩
  · intro other hsize htexts
    have hrecord : f.recordSize = 8 := rfl
    have hsame := hidentify other buf (by omega) (by rw [hsize]; decide) (by decide) (by decide)
      (.inr htexts)
    rwa [hrecord, Array.extract_eq_self_of_le hsize.le] at hsame

end Format

end PixelRecord
