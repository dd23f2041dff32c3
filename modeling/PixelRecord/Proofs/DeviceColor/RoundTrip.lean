import Mathlib.Algebra.Order.Ring.Int
import PixelRecord.Proofs.DeviceColor

/-!
Device colors there and back.

A color that was written is read again: narrowing undoes widening, and the channels
that are written one after the other have no byte in common. The other way round
is not the identity. A 16-bit value that is read as a byte and written back has its
high byte in both places, which is off by at most 255 and is read as the same byte.
-/

namespace PixelRecord

open Edit

namespace DeviceColor

/-- A color of at most three components has these components. -/
theorem getElem?_components_ofComponents {cs : List UInt8} (h : cs.length ≤ 3) {i : Nat}
    (hi : i < cs.length) : (ofComponents cs).components[i]? = cs[i]? := by
  match cs, h with
  | [], _ => cases hi
  | [_], _ | [_, _], _ | [_, _, _], _ =>
    simp only [List.length_cons, List.length_nil] at hi
    obtain rfl | rfl | rfl : i = 0 ∨ i = 1 ∨ i = 2 := by omega
    all_goals first | rfl | omega

end DeviceColor

namespace Depth

/-- What is left of a value that is read as a byte and written back. -/
def coarse (d : Depth) (v : Int) : Int := d.widen (d.narrow v.toNat)

theorem coarse_eight {v : Nat} (h : v ≤ max .eight) : coarse .eight v = v := by
  simp only [max] at h
  simp [coarse, widen, narrow]
  omega

theorem abs_coarse_sub_le (d : Depth) {v : Nat} (h : v ≤ d.max) : |d.coarse v - v| ≤ 255 := by
  cases d with
  | eight =>
      rw [coarse_eight h, sub_self]
      decide
  | sixteen =>
      simp only [max] at h
      have hbyte : (narrow .sixteen v).toNat = v / 256 := by
        simp [narrow]
        omega
      rw [coarse, widen, Int.toNat_natCast, hbyte, abs_le]
      omega

/-- Nothing is lost that reading would show. -/
theorem device_map_coarse (d : Depth) (v : PixelValues) :
    d.device (v.map d.coarse) = d.device v := by
  have hnarrow (c : Int) : d.narrow (d.coarse c).toNat = d.narrow c.toNat := by
    rw [coarse, Int.toNat_natCast, narrow_widen]
  simp only [device, PixelValues.map, ← List.map_take, List.map_map, Option.map_map,
    Function.comp_def, hnarrow]

/-- Reading what was written: the components that there are colors for, and the
opacity that was given, or else the one that was there. -/
theorem device_painted (d : Depth) (color : DeviceColor) (opacity : Option UInt8)
    (v : PixelValues) :
    d.device (d.painted color opacity v) =
      (DeviceColor.ofComponents (color.components.take v.colors.length),
        (v.alpha.map fun a => opacity.getD (d.narrow a.toNat)).getD opaqueOpacity) := by
  have hcolors : (((d.painted color opacity v).colors.take 3).map fun c => d.narrow c.toNat) =
      color.components.take v.colors.length := by
    ext1 i
    simp only [painted, List.getElem?_map, List.getElem?_take, List.getElem?_mapIdx]
    by_cases hi : i < 3
    · obtain ⟨c, hc⟩ : ∃ c, color.components[i]? = some c :=
        ⟨_, List.getElem?_eq_getElem (by simpa [DeviceColor.components] using hi)⟩
      rw [if_pos hi, hc]
      by_cases hlen : i < v.colors.length
      · simp [hlen]
      · simp [hlen]
    · have hnone : color.components[i]? = none := by
        simpa [DeviceColor.components] using hi
      simp [hi, hnone]
  have halpha : ((d.painted color opacity v).alpha.map fun a => d.narrow a.toNat) =
      v.alpha.map fun a => opacity.getD (d.narrow a.toNat) := by
    cases opacity <;> simp [painted, Function.comp_def]
  rw [device, hcolors, halpha]

/-- Writing what was read, into a record of as many values. -/
theorem painted_device (d : Depth) {v v' : PixelValues} (h : v.colors.length ≤ 3)
    (hcolors : v'.colors.length = v.colors.length) (halpha : v'.alpha.isSome = v.alpha.isSome) :
    d.painted (d.device v).1 (some (d.device v).2) v' = v.map d.coarse := by
  refine PixelValues.ext ?_ ?_
  · have hbytes : (v.colors.take 3).map (fun c => d.narrow c.toNat) =
        v.colors.map fun c => d.narrow c.toNat := by
      rw [List.take_of_length_le h]
    ext1 i
    simp only [painted, device, PixelValues.map, hbytes, List.getElem?_mapIdx, List.getElem?_map]
    by_cases hi : i < v.colors.length
    · rw [DeviceColor.getElem?_components_ofComponents (by simpa using h) (by simpa using hi)]
      simp [hi, hcolors, coarse]
    · simp [hi, hcolors]
  · simp only [painted, device, PixelValues.map]
    cases hv : v.alpha with
    | none => simpa [hv] using halpha
    | some a =>
      obtain ⟨a', ha'⟩ := Option.isSome_iff_exists.mp (halpha.trans (hv ▸ rfl))
      simp [ha', coarse]

end Depth

namespace Format

variable {f : Format} {size : Nat} {buf out : Bytes} {color : DeviceColor}
  {opacity : Option UInt8}

/-! ### The bytes that are written -/

/-- Byte `j` is one of those that a color and, if given, an opacity are written to. -/
def Painted (f : Format) (opacity : Option UInt8) (j : Nat) : Prop :=
  (∃ ch ∈ f.layout.colors.take 3, ch.Keeps f.depth 0 j) ∨
    opacity.isSome = true ∧ ∃ ch, f.layout.alpha? = some ch ∧ ch.Keeps f.depth 0 j

theorem Painted.keeps {j : Nat} (h : f.Painted opacity j) : f.Keeps 0 j := by
  rcases h with ⟨ch, hch, hj⟩ | ⟨-, ch, halpha, hj⟩
  · exact keeps_of_mem (Layout.mem_of_mem_colors (List.mem_of_mem_take hch)) hj
  · exact keeps_of_mem (Layout.mem_of_alpha? halpha) hj

theorem paint_acts (hw : f.Wide) (color : DeviceColor) (opacity : Option UInt8)
    (h : f.recordSize ≤ size) :
    (do
      (f.layout.colors.zip color.components).forM fun (ch, v) =>
        ch.store f.depth 0 (f.depth.widen v)
      match opacity, f.layout.alpha? with
      | some o, some ch => ch.store f.depth 0 (f.depth.widen o)
      | _, _ => pure () : Edit Unit).Acts size (f.Painted opacity) fun _ _ => True := by
  have hcolors := paintColors_acts hw color h
  have hpainted {opacity : Option UInt8} {j : Nat}
      (hj : ∃ p ∈ f.layout.colors.zip color.components, p.1.Keeps f.depth 0 j) :
      f.Painted opacity j := by
    obtain ⟨p, hp, hj⟩ := hj
    refine .inl ⟨p.1, ?_, hj⟩
    obtain ⟨i, hi⟩ := List.mem_iff_getElem?.mp hp
    obtain ⟨hch, hc⟩ := List.getElem?_zip_eq_some.mp hi
    have hlt : i < 3 := (List.getElem?_eq_some_iff.mp hc).1
    exact List.mem_of_getElem? (by rw [List.getElem?_take, if_pos hlt, hch])
  split
  · next o ch halpha =>
    have hstore := Channel.store_turns (hw.holds (Layout.mem_of_alpha? halpha)
      ((Nat.zero_add _).trans_le h)) (f.depth.widen_le_max o)
    refine (hcolors.seq hstore ?_).mono (fun _ _ _ _ _ _ _ => trivial) ?_ fun _ _ _ _ => trivial
    · rintro j ⟨p, hp, hj⟩
      exact hw.not_keeps (mem_of_mem_zip_colors hp) (Layout.mem_of_alpha? halpha)
        (Layout.ne_of_color_of_alpha (List.of_mem_zip hp).1 halpha) hj
    · rintro j (hj | hj)
      · exact hpainted hj
      · exact .inr ⟨rfl, ch, halpha, hj⟩
  · rw [bind_pure_unit]
    exact hcolors.mono (fun _ _ _ _ _ _ _ => trivial) (fun _ => hpainted) fun _ _ _ _ => trivial

/-- Writing a color succeeds on every buffer of at least one record. -/
theorem encode_ends (hw : f.Wide) (hspace : f.recordSize < Layout.addressSpace)
    (color : DeviceColor) (opacity : Option UInt8) (h : f.recordSize ≤ buf.size) :
    (f.encode color opacity).Ends buf fun _ out => out.size = buf.size ∧
      AgreeOn (fun j => ¬ f.Painted opacity j) out buf ∧
      f.valuesAt out 0 = f.depth.painted color opacity (f.valuesAt buf 0) := by
  have hcheck : f.layout.checkRecords buf.size 1 "native_color" = .ok () :=
    Layout.checkRecords_eq_ok_iff.mpr ⟨by rwa [Nat.one_mul], by rwa [Nat.one_mul]⟩
  have hobeys := encode_obeys hw color opacity buf.size
  rw [hcheck] at hobeys
  have hvalues := Acts.ends hobeys buf rfl
  have hframe : (f.encode color opacity).Ends buf fun _ out =>
      out.size = buf.size ∧ AgreeOn (fun j => ¬ f.Painted opacity j) out buf ∧ True :=
    ends_require_bind hcheck ((paint_acts hw color opacity h).ends buf rfl)
  obtain ⟨⟨⟩, out, hon, hsize, hkept, -⟩ := hframe
  exact ⟨(), out, hon, hsize, hkept, (hvalues.of_on hon).2.2 0 (List.mem_singleton_self 0)⟩

/-! ### There and back -/

/-- What writing a color and, if given, an opacity makes of `before`. -/
structure Encoded (f : Format) (color : DeviceColor) (opacity : Option UInt8)
    (before after : Bytes) : Prop where
  size : after.size = before.size
  /-- The components that there are colors for are read again, the others as zero.
  So is the opacity, or the one that was there if none was given. -/
  decodes : ∃ old, f.decode before = .ok old ∧
    f.decode after = .ok (DeviceColor.ofComponents (color.components.take f.layout.colors.length),
      if f.layout.hasAlpha then opacity.getD old.2 else opaqueOpacity)
  /-- Bytes that hold neither a component nor a given opacity are as they were. -/
  frame : ∀ j, ¬ f.Painted opacity j → after[j]? = before[j]?

/-- What writing the color and opacity of `before` into a record leaves there. -/
structure Reencoded (f : Format) (before after : Bytes) : Prop where
  decodes : f.decode after = f.decode before
  near : ∀ ch ∈ f.layout.channels,
    |(f.depth.load after ch.position : Int) - f.depth.load before ch.position| ≤ 255
  /-- At 8 bit the values are the same, and where they fill the record, the record. -/
  values : f.depth = .eight → AgreeOn (f.Keeps 0) after before
  record : f.depth = .eight → f.Exact → ∀ j < f.recordSize, after[j]? = before[j]?

theorem encoded_of_ends (hw : f.Wide) (hspace : f.recordSize < Layout.addressSpace)
    (h : f.recordSize ≤ buf.size) (hsize : out.size = buf.size)
    (hframe : AgreeOn (fun j => ¬ f.Painted opacity j) out buf)
    (hvalues : f.valuesAt out 0 = f.depth.painted color opacity (f.valuesAt buf 0)) :
    f.Encoded color opacity buf out where
  size := hsize
  frame := hframe
  decodes := by
    refine ⟨_, decode_eq_ok hw hspace h, ?_⟩
    rw [decode_eq_ok hw hspace (hsize ▸ h), hvalues, Depth.device_painted, Depth.device,
      colors_valuesAt, alpha_valuesAt, List.length_map, Layout.hasAlpha]
    cases f.layout.alpha? with
    | none => rfl
    | some ch => rfl

theorem reencoded_of_valuesAt (hw : f.Wide) (hspace : f.recordSize < Layout.addressSpace)
    (h : f.recordSize ≤ buf.size) (hout : f.recordSize ≤ out.size)
    (hvalues : f.valuesAt out 0 = (f.valuesAt buf 0).map f.depth.coarse) :
    f.Reencoded buf out := by
  have hchannels := valuesAt_eq_map_iff.mp hvalues
  simp only [Nat.zero_add] at hchannels
  have hsame (height : f.depth = .eight) : AgreeOn (f.Keeps 0) out buf := by
    refine agreeOn_of_valuesAt hw ((Nat.zero_add _).trans_le hout) ((Nat.zero_add _).trans_le h)
      (valuesAt_eq_iff.mpr fun ch hch => ?_)
    have hload := hchannels ch hch
    have hle := f.depth.load_le_max buf ch.position
    rw [height] at hload hle ⊢
    rw [Depth.coarse_eight hle] at hload
    simpa using hload
  refine ⟨?_, fun ch hch => ?_, hsame, fun height he j hj => ?_⟩
  · rw [decode_eq_ok hw hspace hout, decode_eq_ok hw hspace h, hvalues, Depth.device_map_coarse]
  · rw [hchannels ch hch]
    exact f.depth.abs_coarse_sub_le (f.depth.load_le_max ..)
  · exact hsame height j (he.keeps_iff.mpr ⟨Nat.zero_le j, by rwa [Nat.zero_add]⟩)

/-- **There and back.** A color that is written is read again, and no byte is touched
that is not for it. A color of at most three components that is read can be written
back, into any record, and leaves what it was read from: the same record at 8 bit,
and at 16 bit one that no reader tells apart. -/
theorem device_round_trip (hw : f.Wide) (hspace : f.recordSize < Layout.addressSpace) :
    (∀ (buf : Bytes) (color : DeviceColor) (opacity : Option UInt8), f.recordSize ≤ buf.size →
      ∃ out, (f.encode color opacity).on buf = (.ok (), out) ∧ f.Encoded color opacity buf out) ∧
    (f.layout.colors.length ≤ 3 →
      ∀ buf dst : Bytes, f.recordSize ≤ buf.size → f.recordSize ≤ dst.size →
        ∃ color opacity out, f.decode buf = .ok (color, opacity) ∧
          (f.encode color (some opacity)).on dst = (.ok (), out) ∧ f.Reencoded buf out ∧
          (f.depth = .eight → dst = buf → out = buf)) := by
  refine ⟨fun buf color opacity h => ?_, fun hthree buf dst h hdst => ?_⟩
  · obtain ⟨⟨⟩, out, hon, hsize, hframe, hvalues⟩ := encode_ends hw hspace color opacity h
    exact ⟨out, hon, encoded_of_ends hw hspace h hsize hframe hvalues⟩
  · obtain ⟨⟨⟩, out, hon, hsize, hframe, hvalues⟩ := encode_ends hw hspace
      (f.depth.device (f.valuesAt buf 0)).1 (some (f.depth.device (f.valuesAt buf 0)).2) hdst
    rw [f.depth.painted_device (by simpa using hthree) (by simp) (by simp)] at hvalues
    have hback := reencoded_of_valuesAt hw hspace h (hsize ▸ hdst) hvalues
    refine ⟨_, _, out, decode_eq_ok hw hspace h, hon, hback, ?_⟩
    rintro height rfl
    exact eq_of_agreeOn (hback.values height) (hframe.mono fun j hj hp => hj hp.keeps)

theorem device_round_trip_sixteen :
    (∃ out, (encode ⟨.sixteen, .bgra .sixteen⟩ ⟨1, 2, 3⟩ none).on
          #[1, 2, 3, 4, 5, 6, 7, 8, 9] = (.ok (), out) ∧
        Encoded ⟨.sixteen, .bgra .sixteen⟩ ⟨1, 2, 3⟩ none #[1, 2, 3, 4, 5, 6, 7, 8, 9] out) ∧
      ∃ color opacity out,
        decode ⟨.sixteen, .bgra .sixteen⟩ #[1, 2, 3, 4, 5, 6, 7, 8, 9] = .ok (color, opacity) ∧
          (encode ⟨.sixteen, .bgra .sixteen⟩ color (some opacity)).on #[0, 0, 0, 0, 0, 0, 0, 0] =
            (.ok (), out) ∧
          Reencoded ⟨.sixteen, .bgra .sixteen⟩ #[1, 2, 3, 4, 5, 6, 7, 8, 9] out := by
  obtain ⟨hthere, hback⟩ := device_round_trip (f := ⟨.sixteen, .bgra .sixteen⟩) (by decide)
    (by decide)
  obtain ⟨color, opacity, out, hread, hwritten, hsame, _⟩ :=
    hback (by decide) #[1, 2, 3, 4, 5, 6, 7, 8, 9] #[0, 0, 0, 0, 0, 0, 0, 0] (by decide) (by decide)
  exact ⟨hthere _ _ _ (by decide), color, opacity, out, hread, hwritten, hsame⟩

end Format

end PixelRecord
