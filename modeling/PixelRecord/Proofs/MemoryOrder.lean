import PixelRecord.DeviceColor
import PixelRecord.Proofs.Composite.Rectangle
import PixelRecord.Proofs.Mix
import PixelRecord.Proofs.Picture
import PixelRecord.Proofs.Rearrangement

/-!
The order of channels in memory is of no consequence.

What a call does has been said of the values of records, and values are numbered
in the order of declaration. So under two layouts that declare the same kinds of
channels a call does the same to the values, and as exact values are all there
is in a record, it does the same to the bytes, each at its place: moving the
records and making the call comes to the same as making the call and moving the
records. A call that is refused is refused under both, as records are equally
long.
-/

namespace PixelRecord

open Edit

namespace Layout.SameKinds

open Format

variable {d : Depth} {l l' : Layout} {size : Nat} {buf : Bytes}

/-! ### Calls that obey the same rules -/

theorem checkRecords_eq (hk : l.SameKinds l') (he : Exact ⟨d, l⟩) (he' : Exact ⟨d, l'⟩)
    (size count : Nat) (what : String) :
    l'.checkRecords size count what = l.checkRecords size count what := by
  rw [checkRecords, checkRecords, hk.recordSize_eq he he']

/-- **The transfer.** Calls that check the same and do the same to the values of
records do the same to records that were moved. -/
theorem on_moveRecords {ι : Type} {steps : List ι} {place : ι → Nat} {e e' : Edit Unit}
    {check : Except Error Unit} {gs gs' : ι → PixelValues → PixelValues} (hk : l.SameKinds l')
    (he : Exact ⟨d, l⟩) (he' : Exact ⟨d, l'⟩)
    (h : Obeys ⟨d, l⟩ e buf.size check steps place gs)
    (h' : Obeys ⟨d, l'⟩ e' buf.size check steps place gs')
    (hok : check = .ok () → l.Separate buf.size (steps.map place) ∧ ∀ i ∈ steps, gs' i = gs i) :
    e'.on (l.moveRecords l' (steps.map place) buf) =
      Prod.map id (l.moveRecords l' (steps.map place)) (e.on buf) := by
  cases check with
  | error err =>
    rw [h buf rfl, h' _ (l.size_moveRecords ..)]
    rfl
  | ok u =>
    obtain ⟨hs, hgs⟩ := hok rfl
    obtain ⟨⟨⟩, out, hon, hsize, hframe, hvalues⟩ := Acts.ends h buf rfl
    obtain ⟨⟨⟩, out', hon', hsize', hframe', hvalues'⟩ :=
      Acts.ends h' (l.moveRecords l' (steps.map place) buf) (l.size_moveRecords ..)
    obtain ⟨hrest, hmoved⟩ := hk.moveRecords_spec he he' hs
    obtain ⟨hrest', hmoved'⟩ := hk.moveRecords_spec he he' (hsize ▸ hs : l.Separate out.size _)
    -- Inside the records the bytes follow from the values; outside, both ways leave the
    -- bytes of `buf`.
    have hrecord := hk.format_recordSize he he'
    have hin : AgreeOn (fun j => ∃ s ∈ steps.map place, s ≤ j ∧ j < s + l.recordSize) out'
        (l.moveRecords l' (steps.map place) out) := by
      rintro j ⟨s, hmem, hj⟩
      have hfit := hs.fit s hmem
      have hmovedSize := l.size_moveRecords l' (steps.map place) out
      have hmovedSize' := l.size_moveRecords l' (steps.map place) buf
      have hbefore := (hmoved s hmem).valuesAt_eq hk
      have hafter := (hmoved' s hmem).valuesAt_eq hk
      obtain ⟨i, hi, rfl⟩ := List.mem_map.mp hmem
      have hvalue := calc
        valuesAt ⟨d, l'⟩ out' (place i)
          = gs' i (valuesAt ⟨d, l'⟩ (l.moveRecords l' (steps.map place) buf) (place i)) :=
            hvalues' i hi
        _ = gs i (valuesAt ⟨d, l⟩ buf (place i)) := by rw [hgs i hi, hbefore]
        _ = valuesAt ⟨d, l⟩ out (place i) := (hvalues i hi).symm
        _ = valuesAt ⟨d, l'⟩ (l.moveRecords l' (steps.map place) out) (place i) := hafter.symm
      exact agreeOn_of_valuesAt he'.wide (by omega) (by omega) hvalue j
        (he'.keeps_iff.mpr (by rwa [hrecord]))
    have hout : AgreeOn (fun j => ¬ ∃ s ∈ steps.map place, s ≤ j ∧ j < s + l.recordSize) out'
        (l.moveRecords l' (steps.map place) out) := by
      have hsame : AgreeOn (fun j => ¬ ∃ s ∈ steps.map place, s ≤ j ∧ j < s + l.recordSize)
          out buf := hframe.mono fun j hj ⟨i, hi, hkeeps⟩ =>
        hj ⟨place i, List.mem_map_of_mem hi, he.keeps_iff.mp hkeeps⟩
      have hsame' : AgreeOn (fun j => ¬ ∃ s ∈ steps.map place, s ≤ j ∧ j < s + l.recordSize)
          out' (l.moveRecords l' (steps.map place) buf) := by
        apply hframe'.mono
        rintro j hj ⟨i, hi, hkeeps⟩
        rw [he'.keeps_iff, hrecord] at hkeeps
        exact hj ⟨place i, List.mem_map_of_mem hi, hkeeps⟩
      exact (hsame'.trans hrest).trans (hsame.symm.trans hrest'.symm)
    rw [hon, hon', eq_of_agreeOn hin hout]
    rfl

/-! ### Calls that write -/

theorem encode_moved (hk : l.SameKinds l') (he : Exact ⟨d, l⟩) (he' : Exact ⟨d, l'⟩)
    (color : DeviceColor) (opacity : Option UInt8) (buf : Bytes) :
    (encode ⟨d, l'⟩ color opacity).on (l.moveRecords l' [0] buf) =
      Prod.map id (l.moveRecords l' [0]) ((encode ⟨d, l⟩ color opacity).on buf) := by
  have h := encode_obeys he.wide color opacity buf.size
  have h' := encode_obeys he'.wide color opacity buf.size
  rw [hk.checkRecords_eq he he'] at h'
  refine hk.on_moveRecords he he' h h' fun hok => ⟨?_, fun _ _ => rfl⟩
  rw [checkRecords_eq_ok_iff, Nat.one_mul] at hok
  exact separate_first hok.2

theorem setAlpha_moved (hk : l.SameKinds l') (he : Exact ⟨d, l⟩) (he' : Exact ⟨d, l'⟩)
    (opacity : UInt8) (count : Nat) (buf : Bytes) :
    (setAlpha ⟨d, l'⟩ opacity count).on
        (l.moveRecords l' ((List.range count).map (· * l.recordSize)) buf) =
      Prod.map id (l.moveRecords l' ((List.range count).map (· * l.recordSize)))
        ((setAlpha ⟨d, l⟩ opacity count).on buf) := by
  have h := setAlpha_obeys he.wide opacity count buf.size
  have h' := setAlpha_obeys he'.wide opacity count buf.size
  rw [checkAlpha, ← hk.hasAlpha_eq, hk.checkRecords_eq he he',
    hk.format_recordSize he he'] at h'
  refine hk.on_moveRecords he he' h h' fun hok => ⟨?_, fun _ _ => rfl⟩
  exact separate_range (checkAlpha_eq_ok_iff.mp hok).2.2

/-! ### Mixing -/

section Mix

variable {inputs : List Bytes}

/-- The first records of some buffers, moved. -/
theorem column_moved (hk : l.SameKinds l') (he : Exact ⟨d, l⟩) (he' : Exact ⟨d, l'⟩)
    (hin : ∀ input ∈ inputs, l.recordSize ≤ input.size) :
    ∀ q ∈ l.channels.zip l'.channels,
      column ⟨d, l⟩ q.1 inputs = column ⟨d, l'⟩ q.2 (inputs.map (l.moveRecords l' [0])) := by
  intro q hq
  rw [column, column, List.map_map]
  apply List.map_congr_left
  intro input hinput
  have hmoved := (hk.moveRecords_spec he he' (separate_first (hin input hinput))).2 0
    (List.mem_singleton_self 0) q hq
  rw [Nat.zero_add, Nat.zero_add] at hmoved
  exact hmoved.symm

theorem averaged_moved (hk : l.SameKinds l') (he : Exact ⟨d, l⟩) (he' : Exact ⟨d, l'⟩)
    (hin : ∀ input ∈ inputs, l.recordSize ≤ input.size) (weights : List Nat) :
    averaged ⟨d, l'⟩ (inputs.map (l.moveRecords l' [0])) weights =
      averaged ⟨d, l⟩ inputs weights := by
  have hcolumn := hk.column_moved he he' hin
  have hcoverage : coverage ⟨d, l'⟩ (inputs.map (l.moveRecords l' [0])) weights =
      coverage ⟨d, l⟩ inputs weights := by
    have halpha : l.alpha?.map (fun ch => column ⟨d, l⟩ ch inputs) =
        l'.alpha?.map fun ch => column ⟨d, l'⟩ ch (inputs.map (l.moveRecords l' [0])) :=
      hk.map_alpha? hcolumn
    unfold coverage
    cases hsome : l.alpha? <;> cases hsome' : l'.alpha? <;> simp_all
  refine PixelValues.ext (hk.map_colors fun q hq => ?_).symm (hk.map_alpha? fun q hq => ?_).symm
  · rw [averagedColor, averagedColor, hcolumn q hq, hcoverage]
  · rw [hcolumn q hq]

theorem mixed_moved (hk : l.SameKinds l') (he : Exact ⟨d, l⟩) (he' : Exact ⟨d, l'⟩)
    (hin : ∀ input ∈ inputs, l.recordSize ≤ input.size) (weights : List Nat) :
    mixed ⟨d, l'⟩ (inputs.map (l.moveRecords l' [0])) weights = mixed ⟨d, l⟩ inputs weights := by
  -- A single input is copied with all its bytes, otherwise only columns are looked at.
  by_cases hone : ∃ only, inputs = [only]
  · obtain ⟨only, rfl⟩ := hone
    have hrecord := hin only (List.mem_singleton_self only)
    exact ((hk.moveRecords_spec he he' (separate_first hrecord)).2 0
      (List.mem_singleton_self 0)).valuesAt_eq hk
  · have hmany : ∀ only, inputs ≠ [only] := fun only h => hone ⟨only, h⟩
    have hmany' : ∀ only, inputs.map (l.moveRecords l' [0]) ≠ [only] := fun only h => by
      obtain ⟨first, hfirst, _⟩ := List.map_eq_singleton_iff.mp h
      exact hone ⟨first, hfirst⟩
    have hzero : valuesAt ⟨d, l'⟩ (Array.replicate (Format.recordSize ⟨d, l'⟩) 0) 0 =
        valuesAt ⟨d, l⟩ (Array.replicate (Format.recordSize ⟨d, l⟩) 0) 0 := by
      have hblank : Moved d l l' (Array.replicate (Format.recordSize ⟨d, l⟩) 0)
          (Array.replicate (Format.recordSize ⟨d, l'⟩) 0) 0 := fun q hq => by
        rw [d.load_replicate_zero, d.load_replicate_zero]
      exact hblank.valuesAt_eq hk
    rw [mixed_of_many hmany, mixed_of_many hmany', hzero, hk.averaged_moved he he' hin]

end Mix

theorem checkMix_moved (hk : l.SameKinds l') (he : Exact ⟨d, l⟩) (he' : Exact ⟨d, l'⟩)
    (size : Nat) (inputs : List Bytes) (weights : List UInt8) :
    checkMix ⟨d, l'⟩ size (inputs.map (l.moveRecords l' [0])) weights =
      checkMix ⟨d, l⟩ size inputs weights := by
  unfold checkMix
  simp only [List.isEmpty_map, List.length_map, hk.checkRecords_eq he he',
    List.forM_eq_forM, List.forM_map, size_moveRecords]

theorem mix_moved (hk : l.SameKinds l') (he : Exact ⟨d, l⟩) (he' : Exact ⟨d, l'⟩)
    (inputs : List Bytes) (weights : List UInt8) (buf : Bytes) :
    (mix ⟨d, l'⟩ (inputs.map (l.moveRecords l' [0])) weights).on (l.moveRecords l' [0] buf) =
      Prod.map id (l.moveRecords l' [0]) ((mix ⟨d, l⟩ inputs weights).on buf) := by
  have h := mix_obeys he inputs weights buf.size
  have h' := mix_obeys he' (inputs.map (l.moveRecords l' [0])) weights buf.size
  rw [hk.checkMix_moved he he'] at h'
  apply hk.on_moveRecords he he' h h'
  intro hok
  obtain ⟨hsize, hin⟩ := accepts_of_checkMix hok
  refine ⟨separate_first hsize, fun _ _ => ?_⟩
  rw [hk.mixed_moved he he' hin]

/-! ### Compositing -/

theorem separate_places {what : Composition} {stride : Nat}
    (h : Fits size stride what.rows what.cols l.recordSize) :
    l.Separate size (what.places stride l.recordSize) where
  apart := by
    refine List.pairwise_map.mpr (what.nodup_cells.imp_of_mem fun {i k} hi hk hne => ?_)
    obtain ⟨r, c⟩ := i
    obtain ⟨r', c'⟩ := k
    exact h.cell_apart (Composition.mem_cells.mp hi).2 (Composition.mem_cells.mp hk).2 hne
  fit := by
    refine List.forall_mem_map.mpr fun (r, c) hmem => ?_
    obtain ⟨hrow, hcol⟩ := Composition.mem_cells.mp hmem
    exact h.cell_le hrow hcol

theorem separate_of_checkComposite {stride : Nat} {src : Surface} {mask : Option Mask}
    {what : Composition} (h : checkComposite ⟨d, l⟩ size stride src mask what = .ok ()) :
    l.Separate size (what.places stride l.recordSize) ∧
      l.Separate src.bytes.size (what.places src.stride l.recordSize) := by
  rw [checkComposite] at h
  split at h
  · next hempty =>
    have hcells : what.cells = [] := by
      apply List.eq_nil_iff_forall_not_mem.mpr
      rintro ⟨r, c⟩ hmem
      have hcell := Composition.mem_cells.mp hmem
      omega
    have hnone (n unit stride : Nat) : l.Separate n (what.places stride unit) := by
      rw [Composition.places, hcells]
      exact ⟨.nil, fun s hs => by cases hs⟩
    exact ⟨hnone .., hnone ..⟩
  · have haccepts := accepts_of_check h
    exact ⟨separate_places haccepts.dst, separate_places haccepts.src⟩

theorem checkComposite_moved (hk : l.SameKinds l') (he : Exact ⟨d, l⟩) (he' : Exact ⟨d, l'⟩)
    (size stride : Nat) (src : Surface) (starts : List Nat) (mask : Option Mask)
    (what : Composition) :
    checkComposite ⟨d, l'⟩ size stride ⟨l.moveRecords l' starts src.bytes, src.stride⟩ mask what =
      checkComposite ⟨d, l⟩ size stride src mask what := by
  unfold checkComposite checkComposition
  rw [hk.format_recordSize he he']
  simp only [size_moveRecords]

theorem composite_moved (hk : l.SameKinds l') (he : Exact ⟨d, l⟩) (he' : Exact ⟨d, l'⟩)
    (stride : Nat) (src : Surface) (mask : Option Mask) (what : Composition) (buf : Bytes) :
    (composite ⟨d, l'⟩ stride
        ⟨l.moveRecords l' (what.places src.stride l.recordSize) src.bytes, src.stride⟩ mask what).on
        (l.moveRecords l' (what.places stride l.recordSize) buf) =
      Prod.map id (l.moveRecords l' (what.places stride l.recordSize))
        ((composite ⟨d, l⟩ stride src mask what).on buf) := by
  have h := composite_obeys he.wide buf.size stride src mask what
  have h' := composite_obeys he'.wide buf.size stride
    ⟨l.moveRecords l' (what.places src.stride l.recordSize) src.bytes, src.stride⟩ mask what
  rw [hk.checkComposite_moved he he',
    hk.format_recordSize he he'] at h'
  apply hk.on_moveRecords he he' h h'
  intro hok
  obtain ⟨hdst, hsrc⟩ := separate_of_checkComposite hok
  refine ⟨hdst, fun (r, c) hmem => funext fun v => ?_⟩
  have hmoved := (hk.moveRecords_spec he he' hsrc).2 _ (List.mem_map_of_mem hmem)
  have hvalues := hmoved.valuesAt_eq hk
  dsimp only at hvalues
  simp only [cellFormula]
  rw [hk.format_recordSize he he', hvalues]

/-! ### Calls that read -/

theorem decodeAt_moved (hk : l.SameKinds l') (he : Exact ⟨d, l⟩) (he' : Exact ⟨d, l'⟩) {a b : Bytes}
    {start : Nat} (h : Moved d l l' a b start) (ha : start + l.recordSize ≤ a.size)
    (hb : b.size = a.size) : decodeAt ⟨d, l'⟩ b start = decodeAt ⟨d, l⟩ a start := by
  have hb' : start + Format.recordSize ⟨d, l'⟩ ≤ b.size := by
    rw [hb, hk.format_recordSize he he']
    exact ha
  rw [decodeAt_eq_ok he'.wide hb', decodeAt_eq_ok he.wide ha, h.valuesAt_eq hk]

theorem decode_moved (hk : l.SameKinds l') (he : Exact ⟨d, l⟩) (he' : Exact ⟨d, l'⟩) (buf : Bytes) :
    decode ⟨d, l'⟩ (l.moveRecords l' [0] buf) = decode ⟨d, l⟩ buf := by
  unfold decode
  rw [size_moveRecords, hk.checkRecords_eq he he']
  cases hcheck : l.checkRecords buf.size 1 "to_device" with
  | error e => rfl
  | ok u =>
    have hrecord := (checkRecords_eq_ok_iff.mp hcheck).2
    rw [Nat.one_mul] at hrecord
    exact hk.decodeAt_moved he he' ((hk.moveRecords_spec he he' (separate_first hrecord)).2 0
      (List.mem_singleton_self 0)) ((Nat.zero_add _).trans_le hrecord) (size_moveRecords ..)

/-- The channels at an index correspond. -/
theorem channel_cases (hk : l.SameKinds l') (index : Nat) :
    (∃ q ∈ l.channels.zip l'.channels, l.channel index = .ok q.1 ∧ l'.channel index = .ok q.2) ∨
      ∃ e, l.channel index = .error e ∧ l'.channel index = .error e := by
  have hlength := hk.length_eq
  unfold Layout.channel
  by_cases hindex : index < l.channels.length
  · have hindex' : index < l'.channels.length := hlength ▸ hindex
    refine .inl ⟨(l.channels[index], l'.channels[index]), ?_, ?_, ?_⟩
    · exact List.mem_of_getElem? (List.getElem?_zip_eq_some.mpr
        ⟨List.getElem?_eq_getElem hindex, List.getElem?_eq_getElem hindex'⟩)
    · rw [List.getElem?_eq_getElem hindex]
    · rw [List.getElem?_eq_getElem hindex']
  · refine .inr ⟨.noSuchChannel index l.channels.length, ?_, ?_⟩
    · rw [List.getElem?_eq_none (by omega)]
    · rw [List.getElem?_eq_none (by omega), hlength]

theorem channelValue_moved (hk : l.SameKinds l') (he : Exact ⟨d, l⟩) (he' : Exact ⟨d, l'⟩)
    (buf : Bytes) (index : Nat) (what : String) :
    channelValue ⟨d, l'⟩ (l.moveRecords l' [0] buf) index what =
      channelValue ⟨d, l⟩ buf index what := by
  unfold channelValue
  obtain ⟨q, hq, hch, hch'⟩ | ⟨e, hch, hch'⟩ := hk.channel_cases index
  · rw [hch, hch', size_moveRecords, hk.checkRecords_eq he he']
    cases hcheck : l.checkRecords buf.size 1 what with
    | error e => rfl
    | ok u =>
      have hrecord := (checkRecords_eq_ok_iff.mp hcheck).2
      rw [Nat.one_mul] at hrecord
      have hmoved := (hk.moveRecords_spec he he' (separate_first hrecord)).2 0
        (List.mem_singleton_self 0) q hq
      obtain ⟨hmem, hmem'⟩ := List.of_mem_zip hq
      have hholds : q.1.Holds d buf.size 0 := he.wide.holds hmem ((Nat.zero_add _).trans_le hrecord)
      have hholds' : q.2.Holds d (l.moveRecords l' [0] buf).size 0 := by
        refine he'.wide.holds hmem' ((Nat.zero_add _).trans_le ?_)
        rw [size_moveRecords, hk.format_recordSize he he']
        exact hrecord
      dsimp only
      rw [Channel.load_eq_ok hholds, Channel.load_eq_ok hholds', hmoved]
  · rw [hch, hch']

theorem writePicture_moved (hk : l.SameKinds l') (he : Exact ⟨d, l⟩) (he' : Exact ⟨d, l'⟩)
    (src : Bytes) (width height : Nat) (out : Bytes) :
    (writePicture ⟨d, l'⟩
        (l.moveRecords l' ((List.range (width * height)).map (· * l.recordSize)) src)
        width height).on out =
      (writePicture ⟨d, l⟩ src width height).on out := by
  have hcheck' : ∀ n, checkSource ⟨d, l'⟩ n width height = checkSource ⟨d, l⟩ n width height := by
    intro n
    simp only [checkSource, hk.checkRecords_eq he he']
  unfold writePicture
  rw [size_moveRecords, hcheck']
  cases hcheck : checkSource ⟨d, l⟩ src.size width height with
  | error e =>
    rw [on_bind, on_bind, on_require]
  | ok u =>
    have hfit : width * height * l.recordSize ≤ src.size := (checkSource_eq_ok_iff.mp hcheck).2.2
    have hmoved := (hk.moveRecords_spec he he' (separate_range hfit)).2
    rw [forM_congr fun i hi => ?_]
    unfold writePixel
    rw [hk.format_recordSize he he']
    have hpixel := record_le (f := ⟨d, l⟩) (List.mem_range.mp hi) hfit
    rw [hk.decodeAt_moved he he' (hmoved _ (List.mem_map_of_mem hi)) hpixel (size_moveRecords ..)]

end Layout.SameKinds

/-! ### Every call -/

/-- To move records from the first layout to the second and work with them there
comes to the same as to work with them under the first layout and then move
them. The records that are moved are those that a call works with. -/
structure Interchangeable (d : Depth) (l l' : Layout) : Prop where
  encode : ∀ color opacity buf,
    (Format.encode ⟨d, l'⟩ color opacity).on (l.moveRecords l' [0] buf) =
      Prod.map id (l.moveRecords l' [0]) ((Format.encode ⟨d, l⟩ color opacity).on buf)
  setAlpha : ∀ opacity count buf,
    (Format.setAlpha ⟨d, l'⟩ opacity count).on
        (l.moveRecords l' ((List.range count).map (· * l.recordSize)) buf) =
      Prod.map id (l.moveRecords l' ((List.range count).map (· * l.recordSize)))
        ((Format.setAlpha ⟨d, l⟩ opacity count).on buf)
  mix : ∀ inputs weights buf,
    (Format.mix ⟨d, l'⟩ (inputs.map (l.moveRecords l' [0])) weights).on
        (l.moveRecords l' [0] buf) =
      Prod.map id (l.moveRecords l' [0]) ((Format.mix ⟨d, l⟩ inputs weights).on buf)
  composite : ∀ (stride : Nat) (src : Surface) (mask : Option Mask) (what : Composition) buf,
    (Format.composite ⟨d, l'⟩ stride
        ⟨l.moveRecords l' (what.places src.stride l.recordSize) src.bytes, src.stride⟩ mask what).on
        (l.moveRecords l' (what.places stride l.recordSize) buf) =
      Prod.map id (l.moveRecords l' (what.places stride l.recordSize))
        ((Format.composite ⟨d, l⟩ stride src mask what).on buf)
  decode : ∀ buf, Format.decode ⟨d, l'⟩ (l.moveRecords l' [0] buf) = Format.decode ⟨d, l⟩ buf
  channelText : ∀ buf index,
    Format.channelText ⟨d, l'⟩ (l.moveRecords l' [0] buf) index =
      Format.channelText ⟨d, l⟩ buf index
  normalizedChannelText : ∀ buf index,
    Format.normalizedChannelText ⟨d, l'⟩ (l.moveRecords l' [0] buf) index =
      Format.normalizedChannelText ⟨d, l⟩ buf index
  writePicture : ∀ src width height out,
    (Format.writePicture ⟨d, l'⟩
        (l.moveRecords l' ((List.range (width * height)).map (· * l.recordSize)) src)
        width height).on out =
      (Format.writePicture ⟨d, l⟩ src width height).on out

/-- **Memory order.** Layouts that declare channels of the same kinds, each exactly as
wide as a value, are interchangeable, wherever their channels lie. -/
theorem interchangeable_of_sameKinds {d : Depth} {l l' : Layout} (hk : l.SameKinds l')
    (he : Format.Exact ⟨d, l⟩) (he' : Format.Exact ⟨d, l'⟩) : Interchangeable d l l' where
  encode := hk.encode_moved he he'
  setAlpha := hk.setAlpha_moved he he'
  mix := hk.mix_moved he he'
  composite := hk.composite_moved he he'
  decode := hk.decode_moved he he'
  channelText buf index := by
    rw [Format.channelText, Format.channelText, hk.channelValue_moved he he']
  normalizedChannelText buf index := by
    rw [Format.normalizedChannelText, Format.normalizedChannelText, hk.channelValue_moved he he']
  writePicture := hk.writePicture_moved he he'

/-- Red, green, blue and alpha of one byte each, declared and stored in this order. -/
def Layout.rgba8 : Layout where
  channels := [⟨"red", 0, 1, .color⟩, ⟨"green", 1, 1, .color⟩, ⟨"blue", 2, 1, .color⟩,
    ⟨"alpha", 3, 1, .alpha⟩]
  recordSize := 4
  accepted := by
    simp [Layout.extent, Layout.byPosition, Layout.runEnd, List.mergeSort, Channel.stop,
      Channel.isAlpha]

theorem interchangeable_bgra8_rgba8 :
    (Layout.bgra .eight).SameKinds Layout.rgba8 ∧ Format.Exact ⟨.eight, .bgra .eight⟩ ∧
      Format.Exact ⟨.eight, .rgba8⟩ ∧
      (Layout.bgra .eight).moveRecords .rgba8 [0] #[3, 2, 1, 4] = #[1, 2, 3, 4] ∧
      Interchangeable .eight (.bgra .eight) .rgba8 :=
  ⟨rfl, by decide, by decide, by decide,
    interchangeable_of_sameKinds rfl (by decide) (by decide)⟩

end PixelRecord
