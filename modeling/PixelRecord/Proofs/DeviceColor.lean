import PixelRecord.Proofs.Record

/-!
Device colors as values of records.

Reading a record gives what its values stand for, and writing a color into it
replaces the values of the first three colors and, with an opacity, that of
alpha. Neither depends on where in the record the values lie. What is said here
of one record is all that pictures and compositions need to know of it.
-/

namespace PixelRecord

open Edit

/-! ### Paired lists -/

section Zip

variable {α β : Type} {xs : List α} {ys : List β}

theorem pairwise_zip_fst {r : α → α → Prop} (h : xs.Pairwise r) :
    (xs.zip ys).Pairwise fun p q => r p.1 q.1 := by
  apply List.pairwise_iff_getElem.mpr
  intro i k hi hk hlt
  simp only [List.getElem_zip]
  exact List.pairwise_iff_getElem.mp h i k _ _ hlt

theorem pairwise_zip_snd {r : β → β → Prop} (h : ys.Pairwise r) :
    (xs.zip ys).Pairwise fun p q => r p.2 q.2 := by
  apply List.pairwise_iff_getElem.mpr
  intro i k hi hk hlt
  simp only [List.getElem_zip]
  exact List.pairwise_iff_getElem.mp h i k _ _ hlt

/-- What the second list is too short for is not among the pairs. -/
theorem ne_fst_of_mem_zip (hnodup : xs.Nodup) {i : Nat} {x : α} (hx : xs[i]? = some x)
    (hy : ys[i]? = none) {p : α × β} (hp : p ∈ xs.zip ys) : x ≠ p.1 := by
  rintro rfl
  obtain ⟨k, hk⟩ := List.mem_iff_getElem?.mp hp
  obtain ⟨hxk, hyk⟩ := List.getElem?_zip_eq_some.mp hk
  have hlt := (List.getElem?_eq_some_iff.mp hx).1
  obtain rfl := (List.getElem?_inj hlt hnodup).mp (hx.trans hxk.symm)
  rw [hy] at hyk
  cases hyk

end Zip

/-! ### Colors as values -/

/-- The color and opacity that the values of a record stand for. -/
def Depth.device (d : Depth) (v : PixelValues) : DeviceColor × UInt8 :=
  (DeviceColor.ofComponents ((v.colors.take 3).map fun c => d.narrow c.toNat),
    (v.alpha.map fun a => d.narrow a.toNat).getD opaqueOpacity)

/-- The values of a record after a color and, if given, an opacity were written
into it. -/
def Depth.painted (d : Depth) (color : DeviceColor) (opacity : Option UInt8) (v : PixelValues) :
    PixelValues where
  colors := v.colors.mapIdx fun i old =>
    (color.components[i]?.map fun c => (d.widen c : Int)).getD old
  alpha := v.alpha.map fun old => (opacity.map fun o => (d.widen o : Int)).getD old

/-- The values of a record with alpha after it was given an opacity. -/
def Depth.withOpacity (d : Depth) (opacity : UInt8) (v : PixelValues) : PixelValues :=
  ⟨v.colors, v.alpha.map fun _ => (d.widen opacity : Int)⟩

namespace Format

variable {f : Format} {size start : Nat} {buf : Bytes}

/-! ### Reading -/

theorem decodeAt_eq_ok (hw : f.Wide) (h : start + f.recordSize ≤ buf.size) :
    f.decodeAt buf start = .ok (f.depth.device (f.valuesAt buf start)) := by
  have hload {ch : Channel} (hch : ch ∈ f.layout.channels) :
      ch.load f.depth buf start = .ok (f.depth.load buf (start + ch.position)) :=
    Channel.load_eq_ok (hw.holds hch h)
  have hcolors : ((f.layout.colors.take 3).mapM fun ch => do
      return f.depth.narrow (← ch.load f.depth buf start) : Except Failure (List UInt8)) =
      .ok ((f.layout.colors.take 3).map fun ch =>
        f.depth.narrow (f.depth.load buf (start + ch.position))) := by
    apply mapM_eq_ok
    intro ch hch
    rw [hload (Layout.mem_of_mem_colors (List.mem_of_mem_take hch))]
    rfl
  rw [decodeAt, hcolors]
  simp only [Depth.device, colors_valuesAt, alpha_valuesAt]
  cases halpha : f.layout.alpha? with
  | none =>
    simp [bind, Except.bind, pure, Except.pure, ← List.map_take, Function.comp_def]
  | some ch =>
    simp [bind, Except.bind, pure, Except.pure, ← List.map_take, Function.comp_def,
      hload (Layout.mem_of_alpha? halpha)]

theorem decode_eq_ok (hw : f.Wide) (hspace : f.recordSize < Layout.addressSpace)
    (h : f.recordSize ≤ buf.size) : f.decode buf = .ok (f.depth.device (f.valuesAt buf 0)) := by
  have hcheck : f.layout.checkRecords buf.size 1 "to_device" = .ok () :=
    Layout.checkRecords_eq_ok_iff.mpr ⟨by rwa [Nat.one_mul], by rwa [Nat.one_mul]⟩
  rw [decode, hcheck]
  exact decodeAt_eq_ok hw ((Nat.zero_add _).trans_le h)

/-- The bytes of the `i`-th record. -/
def record (f : Format) (buf : Bytes) (i : Nat) : Bytes :=
  buf.extract (i * f.recordSize) (i * f.recordSize + f.recordSize)

/-- A record lies in a buffer that holds `count` of them. -/
theorem record_le {i count : Nat} (hi : i < count) (h : count * f.recordSize ≤ size) :
    i * f.recordSize + f.recordSize ≤ size := by
  rw [← Nat.succ_mul]
  exact (Nat.mul_le_mul_right _ hi).trans h

/-- A buffer that is large enough has all the chunks that are asked for. -/
theorem take_cells {step count : Nat} (hstep : 0 < step) (h : count * step ≤ size) :
    (List.range (size / step)).take count = List.range count := by
  rw [List.take_range, Nat.min_eq_left ((Nat.le_div_iff_mul_le hstep).mpr h)]

theorem size_record {i : Nat} (h : i * f.recordSize + f.recordSize ≤ buf.size) :
    (f.record buf i).size = f.recordSize := by
  rw [record, Array.size_extract]
  omega

/-- A record that was cut out of a buffer has the values that it has in its place. -/
theorem valuesAt_record (hw : f.Wide) (i : Nat) :
    f.valuesAt (f.record buf i) 0 = f.valuesAt buf (i * f.recordSize) := by
  apply hw.valuesAt_shift
  intro t ht
  rw [record, getElem?_extract_of_lt (by omega), Nat.zero_add]

theorem decodeAt_record (hw : f.Wide) {i : Nat}
    (h : i * f.recordSize + f.recordSize ≤ buf.size) :
    f.decodeAt (f.record buf i) 0 =
      .ok (f.depth.device (f.valuesAt buf (i * f.recordSize))) := by
  rw [decodeAt_eq_ok hw ((Nat.zero_add _).trans_le (size_record h).ge), valuesAt_record hw]

theorem decode_record (hw : f.Wide) {i count : Nat} (hi : i < count)
    (hspace : count * f.recordSize < Layout.addressSpace) (h : count * f.recordSize ≤ buf.size) :
    f.decode (f.record buf i) = .ok (f.depth.device (f.valuesAt buf (i * f.recordSize))) := by
  have hone : f.recordSize ≤ count * f.recordSize := Nat.le_mul_of_pos_left _ (by omega)
  rw [decode_eq_ok hw (hone.trans_lt hspace) (size_record (record_le hi h)).ge,
    valuesAt_record hw]

/-! ### Writing -/

theorem mem_of_mem_zip_colors {bytes : List UInt8} {p : Channel × UInt8}
    (hp : p ∈ f.layout.colors.zip bytes) : p.1 ∈ f.layout.channels :=
  Layout.mem_of_mem_colors (List.of_mem_zip hp).1

/-- The colors of a record after the components were stored in their channels. -/
theorem colors_of_stored (hw : f.Wide) (color : DeviceColor) {a b : Bytes}
    (hframe : AgreeOn (fun j => ¬ ∃ p ∈ f.layout.colors.zip color.components,
      p.1.Keeps f.depth 0 j) b a)
    (hpost : ∀ p ∈ f.layout.colors.zip color.components,
      (f.depth.load b (0 + p.1.position) : Int) = f.depth.widen p.2) :
    (f.valuesAt b 0).colors = (f.depth.painted color none (f.valuesAt a 0)).colors := by
  ext1 i
  simp only [Depth.painted, colors_valuesAt, List.getElem?_map, List.getElem?_mapIdx,
    Option.map_map]
  cases hch : f.layout.colors[i]? with
  | none => rfl
  | some ch =>
    have hchannel := Layout.mem_of_mem_colors (List.mem_of_getElem? hch)
    cases hc : color.components[i]? with
    | some c =>
      have hp : (ch, c) ∈ f.layout.colors.zip color.components :=
        List.mem_of_getElem? (List.getElem?_zip_eq_some.mpr ⟨hch, hc⟩)
      exact congrArg some (hpost _ hp)
    | none =>
      -- Nothing was stored in this channel, as those with components are other channels.
      have hkept : f.depth.load b (0 + ch.position) = f.depth.load a (0 + ch.position) := by
        refine Channel.load_congr (hframe.mono fun j hj ⟨p, hp, hj'⟩ => ?_)
        exact hw.not_keeps hchannel (mem_of_mem_zip_colors hp)
          (ne_fst_of_mem_zip (Layout.nodup_colors f.layout) hch hc hp) hj hj'
      exact congrArg (fun n : Nat => some (n : Int)) hkept

/-- Each component is stored in its channel, and no other byte is changed. -/
theorem paintColors_acts (hw : f.Wide) (color : DeviceColor) (h : f.recordSize ≤ size) :
    ((f.layout.colors.zip color.components).forM fun (ch, v) =>
      ch.store f.depth 0 (f.depth.widen v) : Edit Unit).Acts size
      (fun j => ∃ p ∈ f.layout.colors.zip color.components, p.1.Keeps f.depth 0 j)
      fun _ b => ∀ p ∈ f.layout.colors.zip color.components,
        (f.depth.load b (0 + p.1.position) : Int) = f.depth.widen p.2 := by
  have hsep : (f.layout.colors.zip color.components).Pairwise fun p q =>
      ∀ j, p.1.Keeps f.depth 0 j → ¬ q.1.Keeps f.depth 0 j :=
    (pairwise_zip_fst (Layout.nodup_colors f.layout)).imp_of_mem fun hp hq hne _ =>
      hw.not_keeps (mem_of_mem_zip_colors hp) (mem_of_mem_zip_colors hq) hne
  have hstores : ∀ p ∈ f.layout.colors.zip color.components,
      p.1.Turns f.depth (p.1.store f.depth 0 (f.depth.widen p.2)) size 0
        fun _ => f.depth.widen p.2 := by
    intro p hp
    exact Channel.store_turns (hw.holds (mem_of_mem_zip_colors hp) (by omega))
      (f.depth.widen_le_max p.2)
  exact Acts.forM hsep hstores

/-- The colors that a device color names take its components, the others stay. -/
theorem paintColors_turns (hw : f.Wide) (color : DeviceColor) (h : f.recordSize ≤ size) :
    f.Turns ((f.layout.colors.zip color.components).forM fun (ch, v) =>
      ch.store f.depth 0 (f.depth.widen v)) size 0 (f.depth.painted color none) := by
  refine turns_of_acts (paintColors_acts hw color h) ?_ fun a b hframe hpost => ?_
  · rintro j ⟨p, hp, hj⟩
    exact keeps_of_mem (mem_of_mem_zip_colors hp) hj
  · have halpha : (f.valuesAt b 0).alpha = (f.valuesAt a 0).alpha :=
      hw.alpha_eq_of_colors
        (hframe.mono fun j hj ⟨p, hp, hj'⟩ => hj ⟨p.1, (List.of_mem_zip hp).1, hj'⟩)
    have hkeep : (f.depth.painted color none (f.valuesAt a 0)).alpha = (f.valuesAt a 0).alpha :=
      Option.map_id'
    exact PixelValues.ext (colors_of_stored hw color hframe hpost) (halpha.trans hkeep.symm)

/-- Writing a color and an opacity. -/
theorem paint_turns (hw : f.Wide) (color : DeviceColor) (opacity : Option UInt8)
    (h : f.recordSize ≤ size) :
    f.Turns (do
      (f.layout.colors.zip color.components).forM fun (ch, v) =>
        ch.store f.depth 0 (f.depth.widen v)
      match opacity, f.layout.alpha? with
      | some o, some ch => ch.store f.depth 0 (f.depth.widen o)
      | _, _ => pure ()) size 0 (f.depth.painted color opacity) := by
  have hcolors := paintColors_turns hw color h
  cases opacity with
  | none => exact (hcolors.seq turns_pure).congr fun a => rfl
  | some o =>
    cases halpha : f.layout.alpha? with
    | none =>
      refine (hcolors.seq turns_pure).congr fun a => PixelValues.ext rfl ?_
      rw [Function.comp, id, Depth.painted, Depth.painted, alpha_valuesAt, halpha]
      rfl
    | some ch =>
      have hstore := Channel.store_turns (hw.holds (Layout.mem_of_alpha? halpha)
        ((Nat.zero_add _).trans_le h)) (f.depth.widen_le_max o)
      refine (hcolors.seq (hw.turns_alpha halpha hstore)).congr fun a => PixelValues.ext rfl ?_
      simp [Depth.painted, Function.comp_def]

theorem encode_obeys (hw : f.Wide) (color : DeviceColor) (opacity : Option UInt8) (size : Nat) :
    f.Obeys (f.encode color opacity) size (f.layout.checkRecords size 1 "native_color") [0] id
      fun _ => f.depth.painted color opacity := by
  apply obeys_of_check (fun n => f.layout.checkRecords n 1 "native_color")
  intro h
  rw [Layout.checkRecords_eq_ok_iff, Nat.one_mul] at h
  exact (paint_turns hw color opacity h.2).each

/-- Giving the alpha of `count` records in a row an opacity. -/
theorem setAlphas_turnsEach (hw : f.Wide) {ch : Channel} (halpha : f.layout.alpha? = some ch)
    (opacity : UInt8) {count : Nat} (h : count * f.recordSize ≤ size) :
    f.TurnsEach ((List.range count).forM fun i =>
        ch.store f.depth (i * f.recordSize) (f.depth.widen opacity)) size (List.range count)
      (· * f.recordSize) fun _ => f.depth.withOpacity opacity := by
  apply hw.turnsEach_forM (List.pairwise_lt_range.imp fun hlt => record_le hlt le_rfl)
  intro i hi
  have hrecord := record_le (List.mem_range.mp hi) h
  exact hw.turns_alpha halpha (Channel.store_turns
    (hw.holds (Layout.mem_of_alpha? halpha) hrecord) (f.depth.widen_le_max opacity))

/-- What has to hold for the alpha of `count` records to be set. -/
def checkAlpha (f : Format) (size count : Nat) : Except Error Unit :=
  if f.layout.hasAlpha then f.layout.checkRecords size count "set_alpha" else .error .noAlpha

theorem checkAlpha_eq_ok_iff {count : Nat} :
    f.checkAlpha size count = .ok () ↔ f.layout.hasAlpha = true ∧
      count * f.recordSize < Layout.addressSpace ∧ count * f.recordSize ≤ size := by
  rw [checkAlpha]
  split
  · next halpha => rw [Layout.checkRecords_eq_ok_iff, and_iff_right halpha]
  · next hnone => simp [hnone]

theorem setAlpha_obeys (hw : f.Wide) (opacity : UInt8) (count size : Nat) :
    f.Obeys (f.setAlpha opacity count) size (f.checkAlpha size count) (List.range count)
      (· * f.recordSize) fun _ => f.depth.withOpacity opacity := by
  unfold setAlpha checkAlpha Layout.hasAlpha
  cases halpha : f.layout.alpha? with
  | none => exact fun buf _ => rfl
  | some ch =>
    apply obeys_of_check (fun n => f.layout.checkRecords n count "set_alpha")
    intro h
    exact setAlphas_turnsEach hw halpha opacity (Layout.checkRecords_eq_ok_iff.mp h).2

end Format

end PixelRecord
