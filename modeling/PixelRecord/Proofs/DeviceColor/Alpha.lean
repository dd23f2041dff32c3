import PixelRecord.Strict
import PixelRecord.Proofs.DeviceColor
import PixelRecord.Proofs.Layout.Acceptance

/-!
An opacity for a run of records.

Setting the alpha of a run goes from record to record, and in each to the alpha channel.
Every record then reads as the color it had with the new opacity, and all bytes but those
of the alpha values are as they were: bytes of other channels, bytes of the alpha channel
that hold no part of its value, and whatever lies behind the run. Since a call leaves
nothing of an alpha that it sets, of several calls on the same run the last one is seen; and
since records are set one by one, a run may be cut in two anywhere.
-/

namespace PixelRecord

open Edit

/-- An opacity that was set is read again, with the color that was there. -/
theorem Depth.device_withOpacity (d : Depth) (opacity : UInt8) {v : PixelValues}
    (h : v.alpha.isSome = true) :
    d.device (d.withOpacity opacity v) = ((d.device v).1, opacity) := by
  obtain ⟨a, ha⟩ := Option.isSome_iff_exists.mp h
  simp [device, withOpacity, ha]

/-- Nothing is left of an opacity that was set before. -/
theorem Depth.withOpacity_withOpacity (d : Depth) (opacity opacity' : UInt8) (v : PixelValues) :
    d.withOpacity opacity (d.withOpacity opacity' v) = d.withOpacity opacity v := by
  simp [withOpacity, Function.comp_def]

namespace Format

variable {f : Format} {size count : Nat} {buf : Bytes} {ch : Channel}

/-- Byte `j` holds a part of the alpha of one of the first `count` records. -/
def HoldsAlpha (f : Format) (count j : Nat) : Prop :=
  ∃ i < count, ∃ ch, f.layout.alpha? = some ch ∧ ch.Keeps f.depth (i * f.recordSize) j

/-- `after` is `before` with an opacity given to the first `count` records. -/
structure AlphaSet (f : Format) (opacity : UInt8) (count : Nat) (before after : Bytes) : Prop where
  size : after.size = before.size
  records : ∀ i < count, ∃ color old, f.decode (f.record before i) = .ok (color, old) ∧
    f.decode (f.record after i) = .ok (color, opacity)
  frame : ∀ j, ¬ f.HoldsAlpha count j → after[j]? = before[j]?

/-- The loop writes to no other bytes. -/
theorem setAlphas_acts (hw : f.Wide) (halpha : f.layout.alpha? = some ch) (opacity : UInt8)
    (h : count * f.recordSize ≤ size) :
    ((List.range count).forM fun i =>
        ch.store f.depth (i * f.recordSize) (f.depth.widen opacity) : Edit Unit).Acts size
      (f.HoldsAlpha count) fun _ _ => True := by
  have hmem := Layout.mem_of_alpha? halpha
  have hsep : (List.range count).Pairwise fun i k =>
      ∀ j, ch.Keeps f.depth (i * f.recordSize) j → ¬ ch.Keeps f.depth (k * f.recordSize) j := by
    refine List.pairwise_lt_range.imp fun {i k} hlt j hj hj' => ?_
    have hbefore := (hw.mem_record (keeps_of_mem hmem hj)).2
    have hafter := (hw.mem_record (keeps_of_mem hmem hj')).1
    have hnext := record_le (f := f) hlt le_rfl
    omega
  have hstores : ∀ i ∈ List.range count,
      ch.Turns f.depth (ch.store f.depth (i * f.recordSize) (f.depth.widen opacity)) size
        (i * f.recordSize) fun _ => f.depth.widen opacity := by
    intro i hi
    have hrecord := record_le (List.mem_range.mp hi) h
    exact Channel.store_turns (hw.holds hmem hrecord) (f.depth.widen_le_max opacity)
  refine (Acts.forM hsep hstores).mono (fun _ _ _ _ _ _ => id) ?_ fun _ _ _ _ => trivial
  rintro j ⟨i, hi, hj⟩
  exact ⟨i, List.mem_range.mp hi, ch, halpha, hj⟩

theorem setAlpha_turnsEach (hw : f.Wide) (halpha : f.layout.hasAlpha = true) (opacity : UInt8)
    (hspace : size < Layout.addressSpace) (h : count * f.recordSize ≤ size) :
    f.TurnsEach (f.setAlpha opacity count) size (List.range count) (· * f.recordSize)
      fun _ => f.depth.withOpacity opacity := by
  have hobeys := setAlpha_obeys hw opacity count size
  rwa [checkAlpha_eq_ok_iff.mpr ⟨halpha, h.trans_lt hspace, h⟩] at hobeys

theorem setAlpha_ends (hw : f.Wide) (halpha : f.layout.hasAlpha = true) (opacity : UInt8)
    (hspace : buf.size < Layout.addressSpace) (h : count * f.recordSize ≤ buf.size) :
    (f.setAlpha opacity count).Ends buf fun _ out => f.AlphaSet opacity count buf out := by
  obtain ⟨ch, hch⟩ := Option.isSome_iff_exists.mp halpha
  have hcheck : f.layout.checkRecords buf.size count "set_alpha" = .ok () :=
    Layout.checkRecords_eq_ok_iff.mpr ⟨h.trans_lt hspace, h⟩
  obtain ⟨⟨⟩, out, hon, hsize, hframe, -⟩ := (setAlphas_acts hw hch opacity h).ends buf rfl
  have hset : (f.setAlpha opacity count).on buf = (.ok (), out) := by
    rw [setAlpha, hch]
    simp only [on_size_bind, hcheck]
    exact hon
  have hturns := setAlpha_turnsEach hw halpha opacity hspace h
  obtain ⟨-, -, hvalues⟩ := (Acts.ends hturns buf rfl).of_on hset
  refine ⟨(), out, hset, hsize, fun i hi => ?_, hframe⟩
  have hbefore := decode_record hw hi (h.trans_lt hspace) h
  have hafter := decode_record hw hi (h.trans_lt hspace) (hsize ▸ h)
  rw [hvalues i (List.mem_range.mpr hi), Depth.device_withOpacity] at hafter
  · exact ⟨_, _, hbefore, hafter⟩
  · rw [alpha_valuesAt, hch, Option.map_some, Option.isSome_some]

/-- An opacity that is set right after another one is all that is left. -/
theorem setAlpha_setAlpha (hw : f.Wide) (halpha : f.layout.hasAlpha = true)
    (opacity opacity' : UInt8) (hspace : buf.size < Layout.addressSpace)
    (h : count * f.recordSize ≤ buf.size) :
    (do f.setAlpha opacity' count; f.setAlpha opacity count).on buf =
      (f.setAlpha opacity count).on buf := by
  have hset (opacity : UInt8) := setAlpha_turnsEach hw halpha opacity hspace h
  have htwice := ((hset opacity').seq (hset opacity)).congr (fun _ _ => rfl) fun _ _ =>
    funext fun v => (f.depth.withOpacity_withOpacity opacity opacity' v).symm
  exact htwice.on_eq hw (hset opacity) fun i hi => record_le (List.mem_range.mp hi) h

/-- So the last of several opacities is. -/
theorem setAlpha_last (hw : f.Wide) (halpha : f.layout.hasAlpha = true) (earlier : List UInt8)
    (opacity : UInt8) (hspace : buf.size < Layout.addressSpace)
    (h : count * f.recordSize ≤ buf.size) :
    ((earlier ++ [opacity]).forM fun o => f.setAlpha o count).on buf =
      (f.setAlpha opacity count).on buf := by
  induction earlier generalizing buf with
  | nil =>
      obtain ⟨⟨⟩, out, hon, -⟩ := setAlpha_ends hw halpha opacity hspace h
      rw [List.nil_append, on_forM_cons, hon]
      rfl
  | cons first rest ih =>
      obtain ⟨⟨⟩, mid, hon, hmid⟩ := setAlpha_ends hw halpha first hspace h
      rw [List.cons_append, on_forM_cons, hon]
      dsimp only
      rw [ih (hmid.size ▸ hspace) (hmid.size ▸ h),
        ← setAlpha_setAlpha hw halpha opacity first hspace h, on_bind, hon]

/-- A run may be cut in two, the second part being the run at the start of the rest. -/
theorem setAlpha_add (hw : f.Wide) (halpha : f.layout.hasAlpha = true) (opacity : UInt8)
    {m n : Nat} (hspace : buf.size < Layout.addressSpace)
    (h : (m + n) * f.recordSize ≤ buf.size) :
    (f.setAlpha opacity (m + n)).on buf =
      (do f.setAlpha opacity m; Edit.beyond (m * f.recordSize) (f.setAlpha opacity n)).on buf := by
  have hcut : (m + n) * f.recordSize = m * f.recordSize + n * f.recordSize := Nat.add_mul ..
  have hrest : n * f.recordSize ≤ buf.size - m * f.recordSize := by omega
  have hwhole := setAlpha_turnsEach hw halpha opacity hspace h
  have hfirst : f.TurnsEach (f.setAlpha opacity m) buf.size (List.range m) (· * f.recordSize)
      fun _ => f.depth.withOpacity opacity :=
    setAlpha_turnsEach hw halpha opacity hspace (by omega)
  have hsecond : f.TurnsEach (f.setAlpha opacity n) (buf.size - m * f.recordSize) (List.range n)
      (· * f.recordSize) fun _ => f.depth.withOpacity opacity :=
    setAlpha_turnsEach hw halpha opacity (by omega) hrest
  have hrecords := hsecond.beyond hw (by omega) fun i hi =>
    record_le (List.mem_range.mp hi) hrest
  -- Record `i` of the rest is record `m + i` of the buffer.
  have hbehind : f.TurnsEach (Edit.beyond (m * f.recordSize) (f.setAlpha opacity n)) buf.size
      ((List.range n).map (m + ·)) (· * f.recordSize) fun _ => f.depth.withOpacity opacity :=
    hrecords.rename (fun i _ => Nat.add_mul m i f.recordSize) fun _ _ => rfl
  have hboth := hfirst.append hw hbehind fun i hi k hk => by
    obtain ⟨k, -, rfl⟩ := List.mem_map.mp hk
    have hlt := List.mem_range.mp hi
    exact record_le (by omega) le_rfl
  rw [← List.range_add] at hboth
  exact hwhole.on_eq hw hboth fun i hi => record_le (List.mem_range.mp hi) h

/-! ### Chunk by chunk -/

theorem setAlphaByChunks_obeys (hw : f.Wide) (opacity : UInt8) (count size : Nat) :
    f.Obeys (f.setAlphaByChunks opacity count) size (f.checkAlpha size count) (List.range count)
      (· * f.recordSize) fun _ => f.depth.withOpacity opacity := by
  unfold setAlphaByChunks checkAlpha Layout.hasAlpha
  cases halpha : f.layout.alpha? with
  | none => exact fun buf _ => rfl
  | some ch =>
    apply obeys_of_check (fun n => f.layout.checkRecords n count "set_alpha")
    intro h
    have hfit := (Layout.checkRecords_eq_ok_iff.mp h).2
    refine Acts.of_size ?_
    dsimp only
    rw [take_cells f.layout.recordSize_pos hfit]
    apply hw.turnsEach_forM (List.pairwise_lt_range.imp fun hlt => record_le hlt le_rfl)
    intro i hi
    have hstore : f.Turns (ch.store f.depth 0 (f.depth.widen opacity))
        (i * f.recordSize + f.recordSize - i * f.recordSize) 0 (f.depth.withOpacity opacity) :=
      hw.turns_alpha halpha (Channel.store_turns
        (hw.holds (Layout.mem_of_alpha? halpha) (by omega)) (f.depth.widen_le_max opacity))
    exact hstore.within hw le_rfl (record_le (List.mem_range.mp hi) hfit)

/-- Going through the chunks is going through the records. -/
theorem setAlphaByChunks_on (hw : f.Wide) (opacity : UInt8) (count : Nat) (buf : Bytes) :
    (f.setAlphaByChunks opacity count).on buf = (f.setAlpha opacity count).on buf := by
  refine (setAlphaByChunks_obeys hw opacity count buf.size).on_eq hw
    (setAlpha_obeys hw opacity count buf.size) fun hok i hi => ?_
  exact record_le (List.mem_range.mp hi) (checkAlpha_eq_ok_iff.mp hok).2.2

/-- **Opacity of a run.** In a layout with alpha a run that fits can be given any opacity.
Each of its records then reads as its old color with this opacity, and no byte is changed
but those of the alpha values. The last of several opacities is all that is left, and the
run may be cut in two. To go through the chunks of the buffer is the same. -/
theorem setAlpha_run (hw : f.Wide) (halpha : f.layout.hasAlpha = true) (opacity : UInt8)
    (hspace : buf.size < Layout.addressSpace) :
    (∀ count, count * f.recordSize ≤ buf.size → ∃ out,
        (f.setAlpha opacity count).on buf = (.ok (), out) ∧ f.AlphaSet opacity count buf out) ∧
      (∀ (earlier : List UInt8) (count : Nat), count * f.recordSize ≤ buf.size →
        ((earlier ++ [opacity]).forM fun o => f.setAlpha o count).on buf =
          (f.setAlpha opacity count).on buf) ∧
      (∀ m n, (m + n) * f.recordSize ≤ buf.size →
        (f.setAlpha opacity (m + n)).on buf =
          (do f.setAlpha opacity m
              Edit.beyond (m * f.recordSize) (f.setAlpha opacity n)).on buf) ∧
      ∀ count, (f.setAlphaByChunks opacity count).on buf = (f.setAlpha opacity count).on buf := by
  refine ⟨fun count h => ?_, fun earlier count h => ?_, fun m n h => ?_,
    fun count => setAlphaByChunks_on hw opacity count buf⟩
  · obtain ⟨⟨⟩, out, hon, hout⟩ := setAlpha_ends hw halpha opacity hspace h
    exact ⟨out, hon, hout⟩
  · exact setAlpha_last hw halpha earlier opacity hspace h
  · exact setAlpha_add hw halpha opacity hspace h

/-- Two records and a part of a third, with an alpha channel wider than its value. -/
theorem setAlpha_run_two_records :
    let f : Format := ⟨.eight, [⟨"alpha", 0, 2, .alpha⟩, ⟨"gray", 2, 1, .color⟩], 3,
      Layout.extent_eq_ok_iff_describes.mpr (by decide)⟩
    let buf : Bytes := #[10, 99, 1, 20, 98, 2, 30, 97]
    (∃ out, (f.setAlpha 128 2).on buf = (.ok (), out) ∧
        f.decode (f.record out 1) = .ok (⟨2, 0, 0⟩, 128) ∧ out[6]? = some 30) ∧
      (([7, 200] ++ [128] : List UInt8).forM fun o => f.setAlpha o 2).on buf =
        (f.setAlpha 128 2).on buf ∧
      (f.setAlpha 128 2).on buf =
        (do f.setAlpha 128 1; Edit.beyond (1 * 3) (f.setAlpha 128 1)).on buf := by
  intro f buf
  obtain ⟨hset, hlast, hcut, -⟩ :=
    @setAlpha_run f buf (by decide) (by decide) 128 (by decide)
  refine ⟨?_, hlast [7, 200] 2 (by decide), hcut 1 1 (by decide)⟩
  obtain ⟨out, hon, hout⟩ := hset 2 (by decide)
  obtain ⟨color, old, hbefore, hafter⟩ := hout.records 1 (by decide)
  have hcolor : f.decode (f.record buf 1) = .ok (⟨2, 0, 0⟩, 20) := by rfl
  obtain ⟨rfl, -⟩ := Prod.mk.inj (Except.ok.inj (hcolor.symm.trans hbefore))
  refine ⟨out, hon, hafter, hout.frame 6 ?_⟩
  rintro ⟨i, hi, ch, hch, -, hlast⟩
  obtain rfl : (⟨"alpha", 0, 2, .alpha⟩ : Channel) = ch := Option.some.inj hch
  change 6 < i * 3 + 0 + 1 at hlast
  omega

end Format

end PixelRecord
