import Mathlib.Logic.Relation
import PixelRecord.Proofs.FixedPoint
import PixelRecord.Proofs.Mix

/-!
A mix is a function of the weighted collection of its records.

All that a mix takes from its inputs are sums over them, of some value of a record times
its weight; here they are called moments. A change to the inputs that multiplies all
moments by one number cannot be seen in the quotients of moments that are stored, as
rounding looks at the quotient and not at how it is written. Reordering the inputs,
leaving out an input of weight zero, splitting a weight over two inputs and scaling all
weights are such changes, and so is whatever can be put together from them.
-/

namespace PixelRecord

open Edit

namespace FixedPoint

/-- Equal fractions are rounded to the same integer. -/
theorem divRound_congr {num den num' den' : Nat} (hden : 0 < den) (hden' : 0 < den')
    (h : num * den' = num' * den) : divRound num den = divRound num' den' := by
  have hpos : (0 : Int) < den := by exact_mod_cast hden
  have hpos' : (0 : Int) < den' := by exact_mod_cast hden'
  have hcross : (num : Int) * den' = num' * den := by exact_mod_cast h
  have hle := Formula.nearest_le_nearest hpos hpos' hcross.le
  have hge := Formula.nearest_le_nearest hpos' hpos hcross.ge
  rw [← divRound_eq_nearest hden, ← divRound_eq_nearest hden'] at hle hge
  omega

end FixedPoint

/-! ### Collections -/

/-- The inputs of a mix: records, each with its weight. -/
abbrev Weighted := List (Bytes × UInt8)

namespace Weighted

variable {inputs inputs' inputs'' : Weighted}

def records (inputs : Weighted) : List Bytes := inputs.map Prod.fst

def weights (inputs : Weighted) : List UInt8 := inputs.map Prod.snd

/-- One change to the inputs that leaves the weighted collection of records as it is, up
to the unit in which weights are measured. -/
inductive Regrouped : Weighted → Weighted → Prop
  /-- The inputs come in another order. -/
  | perm {inputs inputs' : Weighted} (h : inputs.Perm inputs') : Regrouped inputs inputs'
  /-- An input of weight zero is added. -/
  | idle (p : Bytes) (inputs : Weighted) : Regrouped inputs ((p, 0) :: inputs)
  /-- The weight of a record is split over two inputs. -/
  | split (p : Bytes) {u v : UInt8} (h : u.toNat + v.toNat ≤ 255) (inputs : Weighted) :
      Regrouped ((p, u + v) :: inputs) ((p, u) :: (p, v) :: inputs)
  /-- All weights are multiplied by the factor `num / den`. -/
  | scale {num den : Nat} (hnum : 0 < num) (hden : 0 < den) {inputs inputs' : Weighted}
      (h : List.Forall₂ (fun i i' => i.1 = i'.1 ∧ num * i.2.toNat = den * i'.2.toNat)
        inputs inputs') : Regrouped inputs inputs'

/-- The sum of a value of the records, each times its weight. -/
def moment (value : Bytes → Nat) (inputs : Weighted) : Nat :=
  (inputs.map fun i => value i.1 * i.2.toNat).sum

@[simp] theorem moment_nil (value : Bytes → Nat) : moment value [] = 0 := rfl

@[simp] theorem moment_cons (value : Bytes → Nat) (i : Bytes × UInt8) (inputs : Weighted) :
    moment value (i :: inputs) = value i.1 * i.2.toNat + moment value inputs := by
  simp [moment]

/-- All moments of one collection are those of another times one number. -/
def Proportional (inputs inputs' : Weighted) : Prop :=
  ∃ num den, 0 < num ∧ 0 < den ∧
    ∀ value, num * moment value inputs = den * moment value inputs'

theorem Proportional.refl (inputs : Weighted) : Proportional inputs inputs :=
  ⟨1, 1, Nat.one_pos, Nat.one_pos, fun _ => rfl⟩

theorem Proportional.symm (h : Proportional inputs inputs') : Proportional inputs' inputs := by
  obtain ⟨num, den, hnum, hden, h⟩ := h
  exact ⟨den, num, hden, hnum, fun value => (h value).symm⟩

theorem Proportional.trans (h : Proportional inputs inputs')
    (h' : Proportional inputs' inputs'') : Proportional inputs inputs'' := by
  obtain ⟨num, den, hnum, hden, h⟩ := h
  obtain ⟨num', den', hnum', hden', h'⟩ := h'
  refine ⟨num' * num, den * den', Nat.mul_pos hnum' hnum, Nat.mul_pos hden hden', fun value => ?_⟩
  rw [Nat.mul_assoc, h, Nat.mul_left_comm, h', Nat.mul_assoc]

theorem moment_scaled {num den : Nat}
    (h : List.Forall₂ (fun i i' => i.1 = i'.1 ∧ num * i.2.toNat = den * i'.2.toNat)
      inputs inputs') (value : Bytes → Nat) :
    num * moment value inputs = den * moment value inputs' := by
  induction h with
  | nil => simp
  | cons hfirst _ ih =>
      obtain ⟨hrecord, hweight⟩ := hfirst
      rw [moment_cons, moment_cons, Nat.mul_add, Nat.mul_add, ih, Nat.mul_left_comm, hweight,
        hrecord, Nat.mul_left_comm]

/-- **One change.** -/
theorem Regrouped.proportional (h : Regrouped inputs inputs') : Proportional inputs inputs' := by
  cases h with
  | perm h =>
      refine ⟨1, 1, Nat.one_pos, Nat.one_pos, fun value => ?_⟩
      rw [moment, moment, (h.map _).sum_nat]
  | idle p => exact ⟨1, 1, Nat.one_pos, Nat.one_pos, fun value => by simp⟩
  | @split p u v h rest =>
      refine ⟨1, 1, Nat.one_pos, Nat.one_pos, fun value => ?_⟩
      have hsum : (u + v).toNat = u.toNat + v.toNat := by
        rw [UInt8.toNat_add, Nat.mod_eq_of_lt (Nat.lt_succ_of_le h)]
      simp [hsum, Nat.mul_add, Nat.add_assoc]
  | scale hnum hden h => exact ⟨_, _, hnum, hden, moment_scaled h⟩

/-- **Any number of changes,** made or undone. -/
theorem proportional_of_eqvGen (h : Relation.EqvGen Regrouped inputs inputs') :
    Proportional inputs inputs' := by
  induction h with
  | rel _ _ h => exact h.proportional
  | refl inputs => exact .refl inputs
  | symm _ _ _ ih => exact ih.symm
  | trans _ _ _ _ _ ih ih' => exact ih.trans ih'

theorem Proportional.moment_eq_zero_iff (h : Proportional inputs inputs') (value : Bytes → Nat) :
    moment value inputs = 0 ↔ moment value inputs' = 0 := by
  obtain ⟨num, den, hnum, hden, h⟩ := h
  have hscaled := h value
  constructor
  · intro hzero
    rw [hzero, Nat.mul_zero] at hscaled
    exact (Nat.mul_eq_zero.mp hscaled.symm).resolve_left hden.ne'
  · intro hzero
    rw [hzero, Nat.mul_zero] at hscaled
    exact (Nat.mul_eq_zero.mp hscaled).resolve_left hnum.ne'

/-- So quotients of moments are the same. -/
theorem Proportional.divRound_moment (h : Proportional inputs inputs') (value : Bytes → Nat)
    {share : Bytes → Nat} (hpos : moment share inputs ≠ 0) :
    FixedPoint.divRound (moment value inputs) (moment share inputs) =
      FixedPoint.divRound (moment value inputs') (moment share inputs') := by
  have hpos' := (h.moment_eq_zero_iff share).not.mp hpos
  obtain ⟨num, den, hnum, hden, h⟩ := h
  refine FixedPoint.divRound_congr (Nat.pos_of_ne_zero hpos) (Nat.pos_of_ne_zero hpos') ?_
  apply Nat.eq_of_mul_eq_mul_left (Nat.mul_pos hnum hden)
  calc num * den * (moment value inputs * moment share inputs')
      = num * moment value inputs * (den * moment share inputs') := by ring
    _ = den * moment value inputs' * (num * moment share inputs) := by rw [h value, h share]
    _ = num * den * (moment value inputs' * moment share inputs) := by ring

/-- A value that all records share comes out of a moment as a factor. -/
theorem moment_mul_of_forall {value share : Bytes → Nat} {v : Nat}
    (h : ∀ i ∈ inputs, value i.1 = v) :
    moment (fun p => value p * share p) inputs = v * moment share inputs := by
  induction inputs with
  | nil => simp
  | cons i rest ih =>
      rw [moment_cons, moment_cons, h i List.mem_cons_self,
        ih fun i' hi' => h i' (List.mem_cons_of_mem _ hi'), Nat.mul_add, Nat.mul_assoc]

theorem moment_of_forall {value : Bytes → Nat} {v : Nat} (h : ∀ i ∈ inputs, value i.1 = v) :
    moment value inputs = v * moment (fun _ => 1) inputs := by
  simpa using @moment_mul_of_forall inputs value (fun _ => 1) v h

theorem moment_eq_zero_iff {value : Bytes → Nat} :
    moment value inputs = 0 ↔ ∀ i ∈ inputs, value i.1 * i.2.toNat = 0 := by
  rw [moment, List.sum_eq_zero_iff_forall_eq_nat, List.forall_mem_map]

theorem moment_one_ne_zero (h : ∃ i ∈ inputs, i.2 ≠ 0) : moment (fun _ => 1) inputs ≠ 0 := by
  obtain ⟨i, hi, hweight⟩ := h
  intro hzero
  have hnone : 1 * i.2.toNat = 0 := moment_eq_zero_iff.mp hzero i hi
  exact hweight (UInt8.toNat_inj.mp (by simpa using hnone))

end Weighted

/-! ### The mix of a collection -/

namespace Format

open Weighted

variable {f : Format} {inputs inputs' : Weighted}

@[simp] theorem total_eq_sum (values : List Nat) : total values = values.sum := rfl

/-- What a record counts for with each unit of its weight: its alpha, if the records
have one. -/
def worth (f : Format) (p : Bytes) : Nat :=
  match f.layout.alpha? with
  | none => 1
  | some alpha => f.depth.load p alpha.position

theorem coverage_eq_map (f : Format) (inputs : Weighted) :
    f.coverage inputs.records (inputs.weights.map UInt8.toNat) =
      inputs.map fun i => f.worth i.1 * i.2.toNat := by
  cases halpha : f.layout.alpha? with
  | none => simp [coverage, worth, halpha, weights, Function.comp_def]
  | some alpha =>
    simp [coverage, worth, halpha, column, records, weights, List.zipWith_map, List.zipWith_self]

theorem total_weights (inputs : Weighted) :
    total (inputs.weights.map UInt8.toNat) = moment (fun _ => 1) inputs := by
  simp [moment, weights, Function.comp_def]

theorem total_coverage (f : Format) (inputs : Weighted) :
    total (f.coverage inputs.records (inputs.weights.map UInt8.toNat)) = moment f.worth inputs := by
  rw [coverage_eq_map, total_eq_sum, moment]

/-- A mean of alphas is a quotient of moments. -/
theorem mean_column (f : Format) (ch : Channel) (inputs : Weighted) :
    mean (f.column ch inputs.records) (inputs.weights.map UInt8.toNat) =
      FixedPoint.divRound (moment (fun p => f.depth.load p ch.position) inputs)
        (moment (fun _ => 1) inputs) := by
  rw [mean, total_weights]
  simp [weightedSum, column, records, weights, moment, List.zipWith_map,
    List.zipWith_self]

/-- So is a mean of colors. -/
theorem mean_column_coverage (f : Format) (ch : Channel) (inputs : Weighted) :
    mean (f.column ch inputs.records) (f.coverage inputs.records (inputs.weights.map UInt8.toNat)) =
      FixedPoint.divRound (moment (fun p => f.depth.load p ch.position * f.worth p) inputs)
        (moment f.worth inputs) := by
  rw [mean, total_coverage, coverage_eq_map]
  simp [weightedSum, column, records, moment, List.zipWith_map,
    List.zipWith_self, Nat.mul_assoc]

theorem averaged_congr (f : Format) (h : Proportional inputs inputs')
    (hweights : moment (fun _ => 1) inputs ≠ 0) :
    f.averaged inputs.records (inputs.weights.map UInt8.toNat) =
      f.averaged inputs'.records (inputs'.weights.map UInt8.toNat) := by
  have hcolor (ch : Channel) :
      f.averagedColor inputs.records
          (f.coverage inputs.records (inputs.weights.map UInt8.toNat)) ch =
        f.averagedColor inputs'.records
          (f.coverage inputs'.records (inputs'.weights.map UInt8.toNat)) ch := by
    simp only [averagedColor, total_coverage, mean_column_coverage]
    by_cases hzero : moment f.worth inputs = 0
    · rw [if_pos hzero, if_pos ((h.moment_eq_zero_iff _).mp hzero)]
    · rw [if_neg hzero, if_neg ((h.moment_eq_zero_iff _).not.mp hzero), h.divRound_moment _ hzero]
  simp only [averaged, hcolor, mean_column, h.divRound_moment _ hweights]

theorem records_ne_singleton (h : 2 ≤ inputs.length) (only : Bytes) :
    inputs.records ≠ [only] := by
  intro heq
  have hlength := congrArg List.length heq
  simp only [records, List.length_map, List.length_singleton] at hlength
  omega

/-- Collections with the same quotients of moments have the same mix. -/
theorem mixed_congr (f : Format) (h : Proportional inputs inputs') (hmany : 2 ≤ inputs.length)
    (hmany' : 2 ≤ inputs'.length) :
    f.mixed inputs.records (inputs.weights.map UInt8.toNat) =
      f.mixed inputs'.records (inputs'.weights.map UInt8.toNat) := by
  rw [mixed_of_many (records_ne_singleton hmany), mixed_of_many (records_ne_singleton hmany'),
    total_weights, total_weights]
  by_cases hzero : moment (fun _ => 1) inputs = 0
  · rw [if_pos hzero, if_pos ((h.moment_eq_zero_iff _).mp hzero)]
  · rw [if_neg hzero, if_neg ((h.moment_eq_zero_iff _).not.mp hzero), averaged_congr f h hzero]

/-! ### Copies of one record -/

section Copies

variable {p : Bytes}

theorem averaged_copies (hcopies : ∀ i ∈ inputs, f.valuesAt i.1 0 = f.valuesAt p 0)
    (hweights : ∃ i ∈ inputs, i.2 ≠ 0) (hworth : f.worth p ≠ 0) :
    f.averaged inputs.records (inputs.weights.map UInt8.toNat) = f.valuesAt p 0 := by
  have hone := moment_one_ne_zero hweights
  have hload {ch : Channel} (hch : ch ∈ f.layout.channels) :
      ∀ i ∈ inputs, f.depth.load i.1 ch.position = f.depth.load p ch.position := by
    intro i hi
    simpa using valuesAt_eq_iff.mp (hcopies i hi) ch hch
  have hworths : ∀ i ∈ inputs, f.worth i.1 = f.worth p := by
    intro i hi
    cases halpha : f.layout.alpha? with
    | none => simp [worth, halpha]
    | some alpha => simpa [worth, halpha] using hload (Layout.mem_of_alpha? halpha) i hi
  have hcover : moment f.worth inputs ≠ 0 := by
    rw [moment_of_forall hworths]
    exact Nat.mul_ne_zero hworth hone
  refine PixelValues.ext ?_ ?_
  · refine List.map_congr_left fun ch hch => ?_
    rw [averagedColor, total_coverage, if_neg hcover, mean_column_coverage,
      moment_mul_of_forall (hload (Layout.mem_of_mem_colors hch)),
      FixedPoint.divRound_mul_self (Nat.pos_of_ne_zero hcover),
      f.depth.saturate_of_le (f.depth.load_le_max ..), Nat.zero_add]
  · cases halpha : f.layout.alpha? with
    | none => simp [averaged, halpha]
    | some ch =>
      have hmoment := @moment_of_forall inputs (fun q => f.depth.load q ch.position) _
        (hload (Layout.mem_of_alpha? halpha))
      simp [averaged, halpha, mean_column, hmoment,
        FixedPoint.divRound_mul_self (Nat.pos_of_ne_zero hone),
        f.depth.saturate_of_le (f.depth.load_le_max ..)]

/-- The copy that is made of a single input is what the average of copies comes to. -/
theorem mixed_copies (hcopies : ∀ i ∈ inputs, f.valuesAt i.1 0 = f.valuesAt p 0)
    (hweights : ∃ i ∈ inputs, i.2 ≠ 0) (hworth : f.worth p ≠ 0) :
    f.mixed inputs.records (inputs.weights.map UInt8.toNat) = f.valuesAt p 0 := by
  match inputs with
  | [] => simp at hweights
  | [i] => exact hcopies i List.mem_cons_self
  | i :: i' :: rest =>
    have hmany : 2 ≤ (i :: i' :: rest).length := by simp
    rw [mixed_of_many (records_ne_singleton hmany), total_weights,
      if_neg (moment_one_ne_zero hweights), averaged_copies hcopies hweights hworth]

end Copies

/-! ### Calls -/

section Calls

variable {buf p : Bytes} {records records' : List Bytes} {weights weights' : List UInt8}

theorem mix_turnsEach (he : f.Exact) (h : f.checkMix buf.size records weights = .ok ()) :
    f.TurnsEach (f.mix records weights) buf.size [0] id
      fun _ _ => f.mixed records (weights.map UInt8.toNat) := by
  have hobeys := mix_obeys he records weights buf.size
  rwa [h] at hobeys

/-- Accepted calls with the same mix leave the same buffer. -/
theorem mix_on_eq (he : f.Exact) (h : f.checkMix buf.size records weights = .ok ())
    (h' : f.checkMix buf.size records' weights' = .ok ())
    (hmixed : f.mixed records (weights.map UInt8.toNat) =
      f.mixed records' (weights'.map UInt8.toNat)) :
    ∃ out, (f.mix records weights).on buf = (.ok (), out) ∧
      (f.mix records' weights').on buf = (.ok (), out) := by
  have hturns := mix_turnsEach he h
  have hturns' := mix_turnsEach he h'
  rw [← hmixed] at hturns'
  have hfit : ∀ i ∈ [0], id i + f.recordSize ≤ buf.size := by
    simpa using (accepts_of_checkMix h).1
  obtain ⟨⟨⟩, out, hon, -⟩ := Acts.ends hturns buf rfl
  exact ⟨out, hon, (hturns.on_eq he.wide hturns' hfit) ▸ hon⟩

theorem checkMix_single (h : f.checkMix buf.size records weights = .ok ())
    (hp : p.size = f.recordSize) (w : UInt8) : f.checkMix buf.size [p] [w] = .ok () := by
  rw [checkMix] at h
  dsimp only at h
  split at h
  · cases h
  · split at h
    · cases h
    · obtain ⟨⟨⟩, hout, -⟩ := bind_eq_ok h
      have hspace := (Layout.checkRecords_eq_ok_iff.mp hout).1
      have hin : f.layout.checkRecords p.size 1 "mix_colors input" = .ok () :=
        Layout.checkRecords_eq_ok_iff.mpr ⟨hspace, by rw [hp, Nat.one_mul]⟩
      simp [checkMix, hout, hin, Edit.ok_bind]

/-- A single input is copied as it is. -/
theorem on_mix_single {w : UInt8} (h : f.checkMix buf.size [p] [w] = .ok ())
    (hp : p.size = f.recordSize) :
    (f.mix [p] [w]).on buf = (.ok (), Edit.overwrite buf 0 p.toList) := by
  have hsize := (accepts_of_checkMix h).1
  have hwhole : p.extract 0 f.recordSize = p := by rw [← hp, Array.extract_size]
  have hfit : 0 + p.toList.length ≤ buf.size := by simpa [hp] using hsize
  rw [mix, on_size_bind, h, mixRecord, hwhole]
  exact (on_write 0 p.toList buf).trans (if_pos hfit)

/-- Mixing copies of one record gives it back, as a single input does. Weights must not all
be zero, and a record with alpha must not be transparent. -/
theorem mix_copies (he : f.Exact) (hcopies : ∀ i ∈ inputs, i.1.extract 0 f.recordSize = p)
    (hweights : ∃ i ∈ inputs, i.2 ≠ 0)
    (halpha : ∀ ch, f.layout.alpha? = some ch → f.depth.load p ch.position ≠ 0)
    (hcheck : f.checkMix buf.size inputs.records inputs.weights = .ok ()) :
    (f.mix inputs.records inputs.weights).on buf = (.ok (), Edit.overwrite buf 0 p.toList) ∧
      ∀ w, (f.mix [p] [w]).on buf = (.ok (), Edit.overwrite buf 0 p.toList) := by
  have hrecord : ∀ i ∈ inputs, f.recordSize ≤ i.1.size := fun i hi =>
    (accepts_of_checkMix hcheck).2 i.1 (List.mem_map_of_mem hi)
  have hp : p.size = f.recordSize := by
    obtain ⟨i, hi, -⟩ := hweights
    rw [← hcopies i hi, Array.size_extract, Nat.sub_zero, Nat.min_eq_left (hrecord i hi)]
  have hvalues : ∀ i ∈ inputs, f.valuesAt i.1 0 = f.valuesAt p 0 := by
    intro i hi
    apply he.wide.valuesAt_shift
    intro t ht
    rw [← hcopies i hi, Nat.zero_add, getElem?_extract_of_lt (by omega), Nat.zero_add]
  have hworth : f.worth p ≠ 0 := by
    cases hsome : f.layout.alpha? with
    | none => simp [worth, hsome]
    | some ch => simpa [worth, hsome] using halpha ch hsome
  have hsingle (w : UInt8) := on_mix_single (checkMix_single hcheck hp w) hp
  obtain ⟨out, hon, hon'⟩ := mix_on_eq he hcheck (checkMix_single hcheck hp 0)
    (mixed_copies hvalues hweights hworth)
  rw [hsingle] at hon'
  cases hon'
  exact ⟨hon, hsingle⟩

/-- **The collection decides.** Two accepted calls of at least two inputs each leave the
same buffer, if the inputs of one come from those of the other by reordering, by adding
or leaving out inputs of weight zero, by splitting and joining weights of one record and
by scaling all weights. And copies of one record give that record back, as a single input
does, if not all weights are zero and the record is not transparent. -/
theorem mix_collected (he : f.Exact) (buf : Bytes) :
    (∀ inputs inputs' : Weighted, Relation.EqvGen Regrouped inputs inputs' →
      2 ≤ inputs.length → 2 ≤ inputs'.length →
      f.checkMix buf.size inputs.records inputs.weights = .ok () →
      f.checkMix buf.size inputs'.records inputs'.weights = .ok () →
      ∃ out, (f.mix inputs.records inputs.weights).on buf = (.ok (), out) ∧
        (f.mix inputs'.records inputs'.weights).on buf = (.ok (), out)) ∧
    (∀ (inputs : Weighted) (p : Bytes), (∀ i ∈ inputs, i.1.extract 0 f.recordSize = p) →
      (∃ i ∈ inputs, i.2 ≠ 0) →
      (∀ ch, f.layout.alpha? = some ch → f.depth.load p ch.position ≠ 0) →
      f.checkMix buf.size inputs.records inputs.weights = .ok () →
      (f.mix inputs.records inputs.weights).on buf = (.ok (), Edit.overwrite buf 0 p.toList) ∧
        ∀ w, (f.mix [p] [w]).on buf = (.ok (), Edit.overwrite buf 0 p.toList)) := by
  refine ⟨fun inputs inputs' hregrouped hmany hmany' hcheck hcheck' => ?_,
    fun inputs p hcopies hweights halpha hcheck => mix_copies he hcopies hweights halpha hcheck⟩
  have hproportional := proportional_of_eqvGen hregrouped
  exact mix_on_eq he hcheck hcheck' (mixed_congr f hproportional hmany hmany')

/-- Two records weighted 10 and 20 are mixed like the second weighted 40, the first
weighted 15 and 5 and a third weighted 0; and a record is mixed with itself. -/
theorem mix_collected_regrouped :
    (∃ out,
      (mix ⟨.eight, .bgra .eight⟩ [#[10, 200, 30, 90], #[60, 70, 80, 255]] [10, 20]).on
        #[1, 2, 3, 4, 5] = (.ok (), out) ∧
      (mix ⟨.eight, .bgra .eight⟩
          [#[60, 70, 80, 255], #[10, 200, 30, 90], #[9, 9, 9, 9, 9], #[10, 200, 30, 90]]
          [40, 15, 0, 5]).on #[1, 2, 3, 4, 5] = (.ok (), out)) ∧
    (mix ⟨.eight, .bgra .eight⟩ [#[10, 200, 30, 90], #[10, 200, 30, 90, 7]] [3, 255]).on
      #[1, 2, 3, 4, 5] = (.ok (), #[10, 200, 30, 90, 5]) := by
  have hmixed := @mix_collected ⟨.eight, .bgra .eight⟩ (by decide) #[1, 2, 3, 4, 5]
  have hscale : Relation.EqvGen Regrouped [(#[10, 200, 30, 90], 10), (#[60, 70, 80, 255], 20)]
      [(#[10, 200, 30, 90], 15 + 5), (#[60, 70, 80, 255], 40)] :=
    .rel _ _ (.scale (by decide : 0 < 2) (by decide : 0 < 1)
      (.cons ⟨rfl, by decide⟩ (.cons ⟨rfl, by decide⟩ .nil)))
  have hsplit := hscale.trans _ _ _ (.rel _ _ (.split #[10, 200, 30, 90] (by decide) _))
  have hidle := hsplit.trans _ _ _ (.rel _ _ (.idle #[9, 9, 9, 9, 9] _))
  have horder : List.Perm (α := Bytes × UInt8)
      [(#[9, 9, 9, 9, 9], 0), (#[10, 200, 30, 90], 15), (#[10, 200, 30, 90], 5),
        (#[60, 70, 80, 255], 40)]
      [(#[60, 70, 80, 255], 40), (#[10, 200, 30, 90], 15), (#[9, 9, 9, 9, 9], 0),
        (#[10, 200, 30, 90], 5)] := by decide
  have hregrouped := hidle.trans _ _ _ (.rel _ _ (.perm horder))
  exact ⟨hmixed.1 _ _ hregrouped (by decide) (by decide) (by decide) (by decide),
    (hmixed.2 [(#[10, 200, 30, 90], 3), (#[10, 200, 30, 90, 7], 255)] #[10, 200, 30, 90]
      (by decide) (by decide) (by decide) (by decide)).1⟩

end Calls

end Format

end PixelRecord
