import Mathlib.Tactic.Linarith
import PixelRecord.Composite.Formula
import PixelRecord.Proofs.Edit
import PixelRecord.Proofs.Layout

/-!
The values of a record in a buffer.

A value lies in the first bytes of its channel. Where every channel is wide
enough, those bytes of different channels, and of records that do not overlap,
have nothing in common, so storing one value leaves all others as they were.
Where every channel is exactly as wide as a value, the values of a record are
the record: buffers with equal values there have equal bytes there.
-/

namespace PixelRecord

open Edit

/-! ### Stored values -/

namespace Depth

theorem load_shift (d : Depth) {a b : Bytes} {i k : Nat}
    (h : ∀ t < d.bytes, a[i + t]? = b[k + t]?) : d.load a i = d.load b k := by
  cases d with
  | eight =>
      simp only [load, Array.getD_eq_getD_getElem?]
      rw [← Nat.add_zero i, ← Nat.add_zero k, h 0 (by simp [bytes])]
  | sixteen =>
      simp only [load, Array.getD_eq_getD_getElem?]
      rw [h 1 (by simp [bytes]), ← Nat.add_zero i, ← Nat.add_zero k, h 0 (by simp [bytes])]

theorem load_congr (d : Depth) {a b : Bytes} {i : Nat}
    (h : ∀ j, i ≤ j → j < i + d.bytes → a[j]? = b[j]?) : d.load a i = d.load b i :=
  d.load_shift fun t ht => h (i + t) (Nat.le_add_right ..) (Nat.add_lt_add_left ht i)

theorem load_replicate_zero (d : Depth) (n i : Nat) : d.load (Array.replicate n 0) i = 0 := by
  have hzero (k : Nat) : (Array.replicate n (0 : UInt8)).getD k 0 = 0 := by
    rw [Array.getD_eq_getD_getElem?, Array.getElem?_replicate]
    split <;> rfl
  cases d <;> simp [load, hzero]

/-- The bytes of a value are determined by the value. -/
theorem getElem?_of_load_eq (d : Depth) {a b : Bytes} {i k : Nat} (ha : i + d.bytes ≤ a.size)
    (hb : k + d.bytes ≤ b.size) (h : d.load a i = d.load b k) {t : Nat} (ht : t < d.bytes) :
    a[i + t]? = b[k + t]? := by
  have hget (buf : Bytes) (m : Nat) (hm : m < buf.size) : buf[m]? = some (buf.getD m 0) := by
    simp [Array.getD_eq_getD_getElem?, hm]
  rw [hget a _ (by omega), hget b _ (by omega), Option.some_inj, ← UInt8.toNat_inj]
  cases d with
  | eight =>
      simp only [bytes, load] at ht h
      obtain rfl : t = 0 := by omega
      exact h
  | sixteen =>
      simp only [bytes, load] at ht h
      have hlow := (a.getD i 0).toNat_lt
      have hlow' := (b.getD k 0).toNat_lt
      obtain rfl | rfl : t = 0 ∨ t = 1 := by omega
      · simp only [Nat.add_zero]
        omega
      · omega

theorem saturate_of_le (d : Depth) {v : Nat} (h : v ≤ d.max) : d.saturate v = v :=
  Nat.min_eq_left h

theorem saturate_le (d : Depth) (v : Nat) : d.saturate v ≤ d.max := Nat.min_le_right ..

end Depth

/-! ### Channels -/

namespace Channel

/-- Byte `j` holds a part of the channel's value in the record at `start`. -/
def Keeps (ch : Channel) (d : Depth) (start j : Nat) : Prop :=
  start + ch.position ≤ j ∧ j < start + ch.position + d.bytes

variable {ch ch' : Channel} {d : Depth} {size start : Nat}

theorem load_eq_ok {buf : Bytes} (h : ch.Holds d buf.size start) :
    ch.load d buf start = .ok (d.load buf (start + ch.position)) := if_pos h

theorem load_congr {a b : Bytes} (h : AgreeOn (ch.Keeps d start) a b) :
    d.load a (start + ch.position) = d.load b (start + ch.position) :=
  d.load_congr fun j hj hj' => h j ⟨hj, hj'⟩

theorem ends_store {buf : Bytes} {v : Nat} {post : Unit → Bytes → Prop}
    (h : ch.Holds d buf.size start)
    (hpost : post () (d.store buf (start + ch.position) (d.saturate v))) :
    (ch.store d start v).Ends buf post :=
  ⟨(), _, by rw [on_store, if_pos h], hpost⟩

/-- On every buffer of `size` bytes the call succeeds, changes no byte but those of
the channel's value in the record at `start`, and turns the value `v` into
`g v`. -/
def Turns (ch : Channel) (d : Depth) (e : Edit Unit) (size start : Nat) (g : Int → Int) : Prop :=
  e.Acts size (ch.Keeps d start) fun a b =>
    (d.load b (start + ch.position) : Int) = g (d.load a (start + ch.position))

theorem looksAt_load (ch : Channel) (d : Depth) (start : Nat) (g : Int → Int) :
    LooksAt (ch.Keeps d start) fun a b =>
      (d.load b (start + ch.position) : Int) = g (d.load a (start + ch.position)) := by
  intro a b a' b' ha hb hpost
  rw [← load_congr ha, ← load_congr hb]
  exact hpost

/-- A value above the scale is stored as the greatest one. -/
theorem store_saturated_turns (h : ch.Holds d size start) (v : Nat) :
    ch.Turns d (ch.store d start v) size start fun _ => (d.saturate v : Nat) where
  looksAt := ch.looksAt_load d start fun _ => (d.saturate v : Nat)
  ends buf hbuf := by
    subst hbuf
    refine ends_store h ⟨d.size_store .., fun j hj => ?_, ?_⟩
    · refine d.getElem?_store_of_ne _ _ ?_
      by_contra hne
      exact hj ⟨by omega, by omega⟩
    · have hstop : start + ch.position + ch.size ≤ buf.size := by
        rw [Nat.add_assoc]
        exact h.2
      have hwidth := h.1
      rw [d.load_store _ (d.saturate_le v) (by omega)]

theorem store_turns (h : ch.Holds d size start) {v : Nat} (hv : v ≤ d.max) :
    ch.Turns d (ch.store d start v) size start fun _ => v := by
  have hturns := store_saturated_turns h v
  rwa [d.saturate_of_le hv] at hturns

/-- Storing what is worked out from the value that is there. -/
theorem update_turns (h : ch.Holds d size start) {g : Nat → Nat} {g' : Int → Int}
    (hg : ∀ v ≤ d.max, g v ≤ d.max ∧ (g v : Int) = g' v) :
    ch.Turns d (do ch.store d start (g (← ch.load d (← get) start))) size start g' where
  looksAt := ch.looksAt_load d start g'
  ends buf hbuf := by
    have hv := hg _ (d.load_le_max buf (start + ch.position))
    refine ends_get_bind (ends_liftM_bind (load_eq_ok (hbuf ▸ h)) ?_)
    rw [← hv.2]
    exact (store_turns h hv.1).ends buf hbuf

/-- The values of channels without a common byte have none either. -/
theorem Keeps.not_of_apart {j : Nat} (hj : ch.Keeps d start j) (hsep : ch.Apart ch')
    (hw : d.bytes ≤ ch.size) (hw' : d.bytes ≤ ch'.size) : ¬ ch'.Keeps d start j := by
  intro hj'
  simp only [Keeps] at hj hj'
  simp only [Apart, stop] at hsep
  omega

end Channel

/-! ### Records -/

def PixelValues.map (g : Int → Int) (v : PixelValues) : PixelValues :=
  ⟨v.colors.map g, v.alpha.map g⟩

theorem PixelValues.map_id (v : PixelValues) : v.map id = v := by
  rw [map, List.map_id, Option.map_id, id]

namespace Format

/-- Every channel can hold a value of the depth. -/
def Wide (f : Format) : Prop := ∀ ch ∈ f.layout.channels, f.depth.bytes ≤ ch.size

/-- Every channel is exactly as wide as a value of the depth. -/
def Exact (f : Format) : Prop := ∀ ch ∈ f.layout.channels, ch.size = f.depth.bytes

instance (f : Format) : Decidable f.Wide := inferInstanceAs (Decidable (∀ ch ∈ _, _))

instance (f : Format) : Decidable f.Exact := inferInstanceAs (Decidable (∀ ch ∈ _, _))

/-- Byte `j` holds a part of a value of the record at `start`. -/
def Keeps (f : Format) (start j : Nat) : Prop :=
  ∃ ch ∈ f.layout.channels, ch.Keeps f.depth start j

variable {f : Format} {size start : Nat} {ch ch' : Channel} {a b : Bytes}

theorem stop_le_recordSize (hch : ch ∈ f.layout.channels) : ch.stop ≤ f.recordSize :=
  Layout.stop_le_recordSize hch

theorem Exact.wide (h : f.Exact) : f.Wide := fun ch hch => (h ch hch).ge

theorem Wide.holds (hw : f.Wide) (hch : ch ∈ f.layout.channels)
    (hrec : start + f.recordSize ≤ size) : ch.Holds f.depth size start :=
  ⟨hw ch hch, (Nat.add_le_add_left (stop_le_recordSize hch) start).trans hrec⟩

theorem Wide.not_keeps (hw : f.Wide) (hch : ch ∈ f.layout.channels)
    (hch' : ch' ∈ f.layout.channels) (hne : ch ≠ ch') {j : Nat} (hj : ch.Keeps f.depth start j) :
    ¬ ch'.Keeps f.depth start j :=
  hj.not_of_apart (Layout.apart_of_ne hch hch' hne) (hw ch hch) (hw ch' hch')

/-- The values of a record lie in the record. -/
theorem Wide.mem_record (hw : f.Wide) {j : Nat} (hj : f.Keeps start j) :
    start ≤ j ∧ j < start + f.recordSize := by
  obtain ⟨ch, hch, hlow, hhigh⟩ := hj
  have hwidth := hw ch hch
  have hstop := stop_le_recordSize hch
  simp only [Channel.stop] at hstop
  exact ⟨by omega, by omega⟩

/-- Values as wide as their channels fill the record. -/
theorem Exact.keeps_iff (he : f.Exact) {j : Nat} :
    f.Keeps start j ↔ start ≤ j ∧ j < start + f.recordSize := by
  refine ⟨he.wide.mem_record, fun ⟨hlow, hhigh⟩ => ?_⟩
  -- Some channel has the byte, and there is nothing in a channel but its value.
  obtain ⟨ch, hch, hbytes⟩ := Layout.exists_channel (show j - start < f.recordSize by omega)
  have hsize := he ch hch
  simp only [Channel.Has, Channel.stop] at hbytes
  exact ⟨ch, hch, by omega, by omega⟩

theorem keeps_of_mem (hch : ch ∈ f.layout.channels) {j : Nat} (hj : ch.Keeps f.depth start j) :
    f.Keeps start j := ⟨ch, hch, hj⟩

@[simp] theorem colors_valuesAt : (f.valuesAt a start).colors =
    f.layout.colors.map fun ch => (f.depth.load a (start + ch.position) : Int) := rfl

@[simp] theorem alpha_valuesAt : (f.valuesAt a start).alpha =
    f.layout.alpha?.map fun ch => (f.depth.load a (start + ch.position) : Int) := rfl

/-- Values of a record that come from those of another, channel by channel. -/
theorem valuesAt_eq_map_iff {start' : Nat} {g : Int → Int} :
    f.valuesAt a start = (f.valuesAt b start').map g ↔ ∀ ch ∈ f.layout.channels,
      (f.depth.load a (start + ch.position) : Int) = g (f.depth.load b (start' + ch.position)) := by
  simp only [valuesAt, PixelValues.map, PixelValues.mk.injEq, List.map_map, List.map_inj_left,
    Option.map_map, Function.comp_def]
  constructor
  · rintro ⟨hcolors, halpha⟩ ch hch
    rcases Layout.mem_channels.mp hch with hcolor | hsome
    · exact hcolors ch hcolor
    · rw [hsome] at halpha
      exact Option.some_inj.mp halpha
  · intro h
    refine ⟨fun ch hch => h ch (Layout.mem_of_mem_colors hch), ?_⟩
    cases hsome : f.layout.alpha? with
    | none => rfl
    | some ch =>
      rw [Option.map_some, Option.map_some, h ch (Layout.mem_of_alpha? hsome)]

/-- Equal values of a record, channel by channel. -/
theorem valuesAt_eq_iff {start' : Nat} :
    f.valuesAt a start = f.valuesAt b start' ↔ ∀ ch ∈ f.layout.channels,
      f.depth.load a (start + ch.position) = f.depth.load b (start' + ch.position) := by
  rw [← PixelValues.map_id (f.valuesAt b start'), valuesAt_eq_map_iff]
  simp only [id, Int.natCast_inj]

theorem valuesAt_congr (h : AgreeOn (f.Keeps start) a b) :
    f.valuesAt a start = f.valuesAt b start :=
  valuesAt_eq_iff.mpr fun _ hch => Channel.load_congr (h.mono fun _ hj => keeps_of_mem hch hj)

/-- Records with the same bytes have the same values, wherever they start. -/
theorem Wide.valuesAt_shift (hw : f.Wide) {start' : Nat}
    (h : ∀ t < f.recordSize, a[start + t]? = b[start' + t]?) :
    f.valuesAt a start = f.valuesAt b start' := by
  refine valuesAt_eq_iff.mpr fun ch hch => f.depth.load_shift fun t ht => ?_
  have hwidth := hw ch hch
  have hstop := stop_le_recordSize hch
  simp only [Channel.stop] at hstop
  rw [Nat.add_assoc, Nat.add_assoc]
  exact h _ (by omega)

/-- Equal values of a record are equal bytes where the values lie. -/
theorem agreeOn_of_valuesAt (hw : f.Wide) (ha : start + f.recordSize ≤ a.size)
    (hb : start + f.recordSize ≤ b.size) (h : f.valuesAt a start = f.valuesAt b start) :
    AgreeOn (f.Keeps start) a b := by
  rintro j ⟨ch, hch, hlow, hhigh⟩
  have hwidth := hw ch hch
  have hstop := stop_le_recordSize hch
  simp only [Channel.stop] at hstop
  have hload := valuesAt_eq_iff.mp h ch hch
  have hget := f.depth.getElem?_of_load_eq (by omega) (by omega) hload
    (show j - (start + ch.position) < f.depth.bytes by omega)
  rwa [Nat.add_sub_cancel' hlow] at hget

/-- Equal values are equal records, as every byte belongs to a value. -/
theorem Exact.extract_eq (he : f.Exact) (ha : f.recordSize ≤ a.size)
    (hb : f.recordSize ≤ b.size) (h : f.valuesAt a 0 = f.valuesAt b 0) :
    a.extract 0 f.recordSize = b.extract 0 f.recordSize := by
  have hagree := agreeOn_of_valuesAt he.wide (by omega) (by omega) h
  apply Array.ext_getElem?
  intro j
  by_cases hj : j < f.recordSize
  · rw [getElem?_extract_of_lt hj, getElem?_extract_of_lt hj, Nat.zero_add]
    exact hagree j (he.keeps_iff.mpr ⟨Nat.zero_le _, by omega⟩)
  · rw [Array.getElem?_eq_none (by simp; omega), Array.getElem?_eq_none (by simp; omega)]

/-! ### Calls on a record -/

/-- On every buffer of `size` bytes the call succeeds, changes no byte that does
not hold a value of the record at `start`, and turns the values `v` of that
record into `g v`. -/
def Turns (f : Format) (e : Edit Unit) (size start : Nat) (g : PixelValues → PixelValues) : Prop :=
  e.Acts size (f.Keeps start) fun a b => f.valuesAt b start = g (f.valuesAt a start)

variable {e e' : Edit Unit} {g g' : PixelValues → PixelValues}

theorem looksAt_valuesAt (f : Format) (start : Nat) (g : PixelValues → PixelValues) :
    LooksAt (f.Keeps start) (fun a b => f.valuesAt b start = g (f.valuesAt a start)) := by
  intro a b a' b' ha hb hpost
  rw [← valuesAt_congr ha, ← valuesAt_congr hb]
  exact hpost

/-- What a call on a part of a record does, said of the values of the record. -/
theorem turns_of_acts {region : Nat → Prop} {post : Bytes → Bytes → Prop}
    (h : e.Acts size region post) (hsub : ∀ j, region j → f.Keeps start j)
    (himp : ∀ a b, AgreeOn (fun j => ¬ region j) b a → post a b →
      f.valuesAt b start = g (f.valuesAt a start)) : f.Turns e size start g :=
  h.mono (f.looksAt_valuesAt start g) hsub himp

theorem Turns.congr (h : f.Turns e size start g)
    (heq : ∀ a, g (f.valuesAt a start) = g' (f.valuesAt a start)) : f.Turns e size start g' :=
  turns_of_acts h (fun _ hj => hj) fun a _ _ hpost => hpost.trans (heq a)

theorem turns_pure : f.Turns (pure ()) size start id :=
  acts_pure (f.looksAt_valuesAt start id) fun _ => rfl

theorem Turns.seq (h : f.Turns e size start g) (h' : f.Turns e' size start g') :
    f.Turns (e >>= fun _ => e') size start (g' ∘ g) :=
  Acts.comp h h' (f.looksAt_valuesAt start (g' ∘ g)) fun _ _ _ hpost hpost' =>
    hpost'.trans (congrArg g' hpost)

/-- The values of other channels are as they were where only the bytes of one
have changed. -/
theorem Wide.load_eq_of_ne (hw : f.Wide) (hch : ch ∈ f.layout.channels)
    (hch' : ch' ∈ f.layout.channels) (hne : ch ≠ ch')
    (h : AgreeOn (fun j => ¬ ch'.Keeps f.depth start j) a b) :
    f.depth.load a (start + ch.position) = f.depth.load b (start + ch.position) :=
  Channel.load_congr (h.mono fun _ hj => hw.not_keeps hch hch' hne hj)

/-- A call on the alpha channel leaves the colors as they were. -/
theorem Wide.turns_alpha (hw : f.Wide) (halpha : f.layout.alpha? = some ch) {g : Int → Int}
    (h : ch.Turns f.depth e size start g) :
    f.Turns e size start fun v => ⟨v.colors, v.alpha.map g⟩ := by
  have hmem := Layout.mem_of_alpha? halpha
  apply turns_of_acts h (fun _ hj => keeps_of_mem hmem hj)
  intro a b hframe hpost
  simp only [valuesAt, halpha, Option.map_some, hpost, PixelValues.mk.injEq, and_true]
  apply List.map_congr_left
  intro color hcolor
  rw [hw.load_eq_of_ne (Layout.mem_of_mem_colors hcolor) hmem
    (Layout.ne_of_color_of_alpha hcolor halpha) hframe]

/-- Where only the bytes of colors have changed, the alpha is as it was. -/
theorem Wide.alpha_eq_of_colors (hw : f.Wide)
    (h : AgreeOn (fun j => ¬ ∃ ch ∈ f.layout.colors, ch.Keeps f.depth start j) a b) :
    (f.valuesAt a start).alpha = (f.valuesAt b start).alpha := by
  rw [alpha_valuesAt, alpha_valuesAt]
  cases halpha : f.layout.alpha? with
  | none => rfl
  | some alpha =>
    have hload : f.depth.load a (start + alpha.position) =
        f.depth.load b (start + alpha.position) := by
      refine Channel.load_congr (h.mono fun j hj ⟨ch, hch, hj'⟩ => ?_)
      exact hw.not_keeps (Layout.mem_of_mem_colors hch) (Layout.mem_of_alpha? halpha)
        (Layout.ne_of_color_of_alpha hch halpha) hj' hj
    rw [Option.map_some, Option.map_some, hload]

/-- A loop over the colors whose steps are calls on one channel each leaves the
alpha as it was. -/
theorem Wide.turns_colors (hw : f.Wide) {k : Channel → Edit Unit} {g : Channel → Int → Int}
    (h : ∀ ch ∈ f.layout.colors, ch.Turns f.depth (k ch) size start (g ch)) :
    f.Turns (f.layout.colors.forM k) size start fun v =>
      ⟨List.zipWith g f.layout.colors v.colors, v.alpha⟩ := by
  have hsep : f.layout.colors.Pairwise fun ch ch' =>
      ∀ j, ch.Keeps f.depth start j → ¬ ch'.Keeps f.depth start j :=
    (Layout.nodup_colors f.layout).imp_of_mem fun hch hch' hne j =>
      hw.not_keeps (Layout.mem_of_mem_colors hch) (Layout.mem_of_mem_colors hch') hne
  refine turns_of_acts (Acts.forM hsep h) ?_ fun a b hframe hpost => ?_
  · rintro j ⟨ch, hch, hj⟩
    exact keeps_of_mem (Layout.mem_of_mem_colors hch) hj
  · have halpha := hw.alpha_eq_of_colors hframe
    have hcolors : (f.valuesAt b start).colors =
        List.zipWith g f.layout.colors (f.valuesAt a start).colors := by
      simp only [colors_valuesAt, List.zipWith_map_right, List.zipWith_self]
      exact List.map_congr_left hpost
    rw [← hcolors, ← halpha]

/-! ### Calls on several records -/

section Each

variable {ι : Type} {steps : List ι} {place : ι → Nat} {gs : ι → PixelValues → PixelValues}

/-- On every buffer of `size` bytes the call succeeds, changes no byte that does
not hold a value of a record at one of the places, and turns the values `v` of
the record at `place i` into `gs i v`. -/
def TurnsEach (f : Format) (e : Edit Unit) (size : Nat) (steps : List ι) (place : ι → Nat)
    (gs : ι → PixelValues → PixelValues) : Prop :=
  e.Acts size (fun j => ∃ i ∈ steps, f.Keeps (place i) j) fun a b =>
    ∀ i ∈ steps, f.valuesAt b (place i) = gs i (f.valuesAt a (place i))

/-- Records that follow one another do not see each other's calls. -/
theorem Wide.turnsEach_forM (hw : f.Wide) {k : ι → Edit Unit}
    (hsep : steps.Pairwise fun i i' => place i + f.recordSize ≤ place i')
    (h : ∀ i ∈ steps, f.Turns (k i) size (place i) (gs i)) :
    f.TurnsEach (steps.forM k) size steps place gs := by
  refine Acts.forM (hsep.imp fun {i i'} hle j hj hj' => ?_) h
  have hbefore := (hw.mem_record hj).2
  have hafter := (hw.mem_record hj').1
  omega

theorem looksAt_valuesAt_each (f : Format) (steps : List ι) (place : ι → Nat)
    (gs : ι → PixelValues → PixelValues) :
    LooksAt (fun j => ∃ i ∈ steps, f.Keeps (place i) j) fun a b =>
      ∀ i ∈ steps, f.valuesAt b (place i) = gs i (f.valuesAt a (place i)) := by
  intro a b a' b' ha hb hpost i hi
  have hkeeps (j : Nat) (hj : f.Keeps (place i) j) : ∃ i ∈ steps, f.Keeps (place i) j :=
    ⟨i, hi, hj⟩
  exact f.looksAt_valuesAt (place i) (gs i) a b a' b' (ha.mono hkeeps) (hb.mono hkeeps)
    (hpost i hi)

theorem Turns.each (h : f.Turns e size start g) :
    f.TurnsEach e size [start] id fun _ => g := by
  refine Acts.mono h (f.looksAt_valuesAt_each _ _ _)
    (fun j hj => ⟨start, List.mem_singleton_self _, hj⟩) fun a b _ hpost i hi => ?_
  obtain rfl := List.mem_singleton.mp hi
  exact hpost

/-- Steps may be named in another way, if what they do to which record is the same. -/
theorem TurnsEach.rename {κ : Type} {name : κ → ι} {steps : List κ} {place' : κ → Nat}
    {gs' : κ → PixelValues → PixelValues} (h : f.TurnsEach e size steps place' gs')
    (hplace : ∀ i ∈ steps, place (name i) = place' i)
    (hgs : ∀ i ∈ steps, gs (name i) = gs' i) :
    f.TurnsEach e size (steps.map name) place gs := by
  refine Acts.mono h (f.looksAt_valuesAt_each _ _ _) ?_ fun a b _ hpost => ?_
  · rintro j ⟨i, hi, hj⟩
    exact ⟨name i, List.mem_map_of_mem hi, (hplace i hi).symm ▸ hj⟩
  · refine List.forall_mem_map.mpr fun i hi => ?_
    rw [hplace i hi, hgs i hi]
    exact hpost i hi

theorem TurnsEach.congr {place' : ι → Nat} {gs' : ι → PixelValues → PixelValues}
    (h : f.TurnsEach e size steps place' gs') (hplace : ∀ i ∈ steps, place i = place' i)
    (hgs : ∀ i ∈ steps, gs i = gs' i) : f.TurnsEach e size steps place gs := by
  have hsame := @TurnsEach.rename f size e ι place gs ι id steps place' gs' h hplace hgs
  rwa [List.map_id] at hsame

/-- Two calls on the same records, one after the other. -/
theorem TurnsEach.seq {gs' : ι → PixelValues → PixelValues}
    (h : f.TurnsEach e size steps place gs) (h' : f.TurnsEach e' size steps place gs') :
    f.TurnsEach (e >>= fun _ => e') size steps place fun i => gs' i ∘ gs i :=
  Acts.comp h h' (f.looksAt_valuesAt_each _ _ _) fun _ _ _ hpost hpost' i hi =>
    (hpost' i hi).trans (congrArg (gs' i) (hpost i hi))

/-- A call on some records, and one on records behind them. -/
theorem TurnsEach.append (hw : f.Wide) {steps' : List ι} (h : f.TurnsEach e size steps place gs)
    (h' : f.TurnsEach e' size steps' place gs)
    (hsep : ∀ i ∈ steps, ∀ i' ∈ steps', place i + f.recordSize ≤ place i') :
    f.TurnsEach (e >>= fun _ => e') size (steps ++ steps') place gs := by
  have hseq := Acts.seq h h' fun j ⟨i, hi, hj⟩ ⟨i', hi', hj'⟩ => by
    have hbefore := (hw.mem_record hj).2
    have hafter := (hw.mem_record hj').1
    have hplaces := hsep i hi i' hi'
    omega
  refine hseq.mono (f.looksAt_valuesAt_each _ _ _) ?_ fun a b _ ⟨hpost, hpost'⟩ i hi => ?_
  · rintro j (⟨i, hi, hj⟩ | ⟨i, hi, hj⟩)
    · exact ⟨i, List.mem_append_left _ hi, hj⟩
    · exact ⟨i, List.mem_append_right _ hi, hj⟩
  · exact (List.mem_append.mp hi).elim (hpost i) (hpost' i)

/-- The records of a part are records of the buffer. -/
theorem TurnsEach.within {stop : Nat} (hw : f.Wide)
    (h : f.TurnsEach e (stop - start) steps place gs) (hle : start ≤ stop) (hstop : stop ≤ size)
    (hfit : ∀ i ∈ steps, place i + f.recordSize ≤ stop - start) :
    f.TurnsEach (Edit.within start stop e) size steps (fun i => start + place i) gs := by
  have hvalues {buf : Bytes} {i : ι} (hi : i ∈ steps) :
      f.valuesAt (buf.extract start stop) (place i) = f.valuesAt buf (start + place i) := by
    have hrecord := hfit i hi
    apply hw.valuesAt_shift
    intro t ht
    rw [getElem?_extract_of_lt (by omega), Nat.add_assoc]
  have hpart := Acts.within h hle hstop fun j ⟨i, hi, hj⟩ =>
    (hw.mem_record hj).2.trans_le (hfit i hi)
  refine hpart.mono (f.looksAt_valuesAt_each _ _ _) ?_ fun a b _ hpost i hi => ?_
  · rintro j ⟨hj, i, hi, ch, hch, hlow, hhigh⟩
    refine ⟨i, hi, ch, hch, ?_⟩
    simp only [Channel.Keeps]
    omega
  · rw [← hvalues hi, ← hvalues hi]
    exact hpost i hi

theorem turns_of_each {i : ι} (h : f.TurnsEach e size [i] place gs) :
    f.Turns e size (place i) (gs i) := by
  refine Acts.mono h (f.looksAt_valuesAt _ _) ?_ fun _ _ _ hpost =>
    hpost i (List.mem_singleton_self i)
  rintro j ⟨i', hi', hj⟩
  rwa [List.mem_singleton.mp hi'] at hj

/-- A call on the record that a part starts with. -/
theorem Turns.within {stop : Nat} (hw : f.Wide) (h : f.Turns e (stop - start) 0 g)
    (hle : start + f.recordSize ≤ stop) (hstop : stop ≤ size) :
    f.Turns (Edit.within start stop e) size start g :=
  turns_of_each (h.each.within hw (by omega) hstop fun i hi => by
    rw [List.mem_singleton.mp hi, id]
    omega)

/-- So are those of a part that goes on to the end. -/
theorem TurnsEach.beyond (hw : f.Wide) (h : f.TurnsEach e (size - start) steps place gs)
    (hle : start ≤ size) (hfit : ∀ i ∈ steps, place i + f.recordSize ≤ size - start) :
    f.TurnsEach (Edit.beyond start e) size steps (fun i => start + place i) gs where
  looksAt := f.looksAt_valuesAt_each _ _ _
  ends buf hbuf := by
    subst hbuf
    obtain ⟨a, out, hon, hpost⟩ := Acts.ends (h.within hw hle (Nat.le_refl _) hfit) buf rfl
    exact ⟨a, out, (on_beyond start e).trans hon, hpost⟩

/-- Nothing is left open of a call by what it makes of which records. -/
theorem TurnsEach.on_eq (hw : f.Wide) {buf : Bytes}
    (h : f.TurnsEach e buf.size steps place gs) (h' : f.TurnsEach e' buf.size steps place gs)
    (hfit : ∀ i ∈ steps, place i + f.recordSize ≤ buf.size) : e.on buf = e'.on buf := by
  refine Acts.on_eq h h' fun out out' hsize hsize' hvalues hvalues' => ?_
  rintro j ⟨i, hi, hj⟩
  have hrecord := hfit i hi
  exact agreeOn_of_valuesAt hw (hsize ▸ hrecord) (hsize' ▸ hrecord)
    ((hvalues i hi).trans (hvalues' i hi).symm) j hj

/-- Calls that make the same of a record leave the same bytes there, whatever they make of
other records. -/
theorem TurnsEach.agreeOn_record (hw : f.Wide) {buf : Bytes}
    {gs' : ι → PixelValues → PixelValues} (h : f.TurnsEach e buf.size steps place gs)
    (h' : f.TurnsEach e' buf.size steps place gs') {i : ι} (hi : i ∈ steps)
    (hfit : place i + f.recordSize ≤ buf.size)
    (hgs : gs i (f.valuesAt buf (place i)) = gs' i (f.valuesAt buf (place i)))
    (hsep : ∀ i' ∈ steps, i' ≠ i →
      place i + f.recordSize ≤ place i' ∨ place i' + f.recordSize ≤ place i) :
    AgreeOn (fun j => place i ≤ j ∧ j < place i + f.recordSize) (e.on buf).2 (e'.on buf).2 := by
  obtain ⟨⟨⟩, out, hon, hsize, hframe, hvalues⟩ := Acts.ends h buf rfl
  obtain ⟨⟨⟩, out', hon', hsize', hframe', hvalues'⟩ := Acts.ends h' buf rfl
  have hvalue := (hvalues i hi).trans (hgs.trans (hvalues' i hi).symm)
  have hkept := agreeOn_of_valuesAt hw (hsize ▸ hfit) (hsize' ▸ hfit) hvalue
  rw [hon, hon']
  intro j hj
  by_cases hkeeps : f.Keeps (place i) j
  · exact hkept j hkeeps
  -- A byte of the record that holds no value of it holds none of any other record.
  · have hfree : ¬ ∃ i' ∈ steps, f.Keeps (place i') j := by
      rintro ⟨i', hi', hkeeps'⟩
      have hne : i' ≠ i := by
        rintro rfl
        exact hkeeps hkeeps'
      have hrecord := hw.mem_record hkeeps'
      have happart := hsep i' hi' hne
      omega
    exact (hframe j hfree).trans (hframe' j hfree).symm

/-! ### Calls with a contract check -/

/-- On every buffer of `size` bytes the call is refused where the check says so,
and otherwise turns the records at the places as `gs` says. -/
def Obeys (f : Format) (e : Edit Unit) (size : Nat) (check : Except Error Unit) (steps : List ι)
    (place : ι → Nat) (gs : ι → PixelValues → PixelValues) : Prop :=
  match check with
  | .ok () => f.TurnsEach e size steps place gs
  | .error err => ∀ buf : Bytes, buf.size = size → e.on buf = (.error (.refused err), buf)

/-- A call that looks at the size of its buffer first need only be looked at on
buffers that it accepts. -/
theorem obeys_of_check (check : Nat → Except Error Unit)
    (h : check size = .ok () → f.TurnsEach e size steps place gs) :
    f.Obeys (do Edit.require (check (← Edit.size)); e) size (check size) steps place gs := by
  cases hcheck : check size with
  | error err =>
    intro buf hbuf
    rw [on_size_bind, hbuf, hcheck]
    rfl
  | ok u =>
    refine ⟨f.looksAt_valuesAt_each steps place gs, fun buf hbuf => ?_⟩
    obtain ⟨a, out, hon, hpost⟩ := (h hcheck).ends buf hbuf
    refine ⟨a, out, ?_, hpost⟩
    rw [on_size_bind, hbuf, hcheck]
    exact hon

theorem Obeys.of_on {buf out : Bytes} {check : Except Error Unit}
    (h : f.Obeys e buf.size check steps place gs) (hon : e.on buf = (.ok (), out)) :
    check = .ok () ∧ f.TurnsEach e buf.size steps place gs := by
  cases check with
  | error err =>
    rw [h buf rfl] at hon
    cases hon
  | ok u => exact ⟨rfl, h⟩

theorem Obeys.congr {check : Except Error Unit} {gs' : ι → PixelValues → PixelValues}
    (h : f.Obeys e size check steps place gs')
    (hgs : check = .ok () → ∀ i ∈ steps, gs i = gs' i) :
    f.Obeys e size check steps place gs := by
  cases check with
  | error err => exact h
  | ok u => exact TurnsEach.congr h (fun _ _ => rfl) (hgs rfl)

/-- The check alone decides whether the call succeeds. -/
theorem Obeys.outcome {buf : Bytes} {check : Except Error Unit}
    (h : f.Obeys e buf.size check steps place gs) :
    (check = .ok () ∧ ∃ out, e.on buf = (.ok (), out)) ∨
      ∃ err, check = .error err ∧ e.on buf = (.error (.refused err), buf) := by
  cases check with
  | error err => exact .inr ⟨err, rfl, h buf rfl⟩
  | ok u =>
    obtain ⟨⟨⟩, out, hon, -⟩ := Acts.ends h buf rfl
    exact .inl ⟨rfl, out, hon⟩

/-- Calls with the same check succeed or are refused together. -/
theorem Obeys.answer_eq {buf : Bytes} {check : Except Error Unit}
    {gs' : ι → PixelValues → PixelValues} (h : f.Obeys e buf.size check steps place gs)
    (h' : f.Obeys e' buf.size check steps place gs') : (e.on buf).1 = (e'.on buf).1 := by
  cases check with
  | error err => rw [h buf rfl, h' buf rfl]
  | ok u =>
    obtain ⟨⟨⟩, out, hon, -⟩ := Acts.ends h buf rfl
    obtain ⟨⟨⟩, out', hon', -⟩ := Acts.ends h' buf rfl
    rw [hon, hon']

/-- They leave the same bytes at a record that they make the same of. -/
theorem Obeys.agreeOn_record (hw : f.Wide) {buf : Bytes} {check : Except Error Unit}
    {gs' : ι → PixelValues → PixelValues} (h : f.Obeys e buf.size check steps place gs)
    (h' : f.Obeys e' buf.size check steps place gs') {i : ι} (hi : i ∈ steps)
    (hgs : gs i (f.valuesAt buf (place i)) = gs' i (f.valuesAt buf (place i)))
    (hplaces : check = .ok () → place i + f.recordSize ≤ buf.size ∧ ∀ i' ∈ steps, i' ≠ i →
      place i + f.recordSize ≤ place i' ∨ place i' + f.recordSize ≤ place i) :
    AgreeOn (fun j => place i ≤ j ∧ j < place i + f.recordSize) (e.on buf).2 (e'.on buf).2 := by
  cases check with
  | error err =>
    rw [h buf rfl, h' buf rfl]
    exact .refl
  | ok u =>
    obtain ⟨hfit, hsep⟩ := hplaces rfl
    exact TurnsEach.agreeOn_record hw h h' hi hfit hgs hsep

/-- Calls that are refused in the same cases, and otherwise make the same of the same
records, are one call. -/
theorem Obeys.on_eq {buf : Bytes} {check : Except Error Unit} (hw : f.Wide)
    (h : f.Obeys e buf.size check steps place gs) (h' : f.Obeys e' buf.size check steps place gs)
    (hfit : check = .ok () → ∀ i ∈ steps, place i + f.recordSize ≤ buf.size) :
    e.on buf = e'.on buf := by
  cases check with
  | error err => rw [h buf rfl, h' buf rfl]
  | ok u => exact TurnsEach.on_eq hw h h' (hfit rfl)

theorem Obeys.orderly {buf : Bytes} {check : Except Error Unit}
    (h : f.Obeys e buf.size check steps place gs) : e.Orderly buf := by
  cases check with
  | error err =>
    rw [Orderly, h buf rfl]
  | ok u => exact Acts.orderly h

end Each

end Format

end PixelRecord
