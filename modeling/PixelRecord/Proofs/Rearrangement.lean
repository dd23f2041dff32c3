import PixelRecord.Proofs.DeviceColor

/-!
Moving records from one layout to another.

Two layouts that declare channels of the same kinds in the same order differ
only in where the channels lie. `moveRecords` takes the bytes of every channel
of some records from their places in the first layout to those in the second. As
channels are exactly as wide as values, this fills the records again and leaves
their values as they are, now read under the second layout; which is all that
has to be known about it. Moving is described as a loop of writes, so that the
rule for loops says what it does.
-/

namespace PixelRecord

open Edit

/-! ### Layouts with the same kinds of channels -/

/-- Two layouts that declare channels of the same kinds in the same order. -/
def Layout.SameKinds (l l' : Layout) : Prop :=
  l.channels.map Channel.kind = l'.channels.map Channel.kind

section Kinds

variable {α : Type} {v v' : Channel → α}

/-- Corresponding channels are selected together by what only looks at the kind. -/
theorem map_filter_of_kinds {xs ys : List Channel} {p : Channel → Bool}
    (hp : ∀ ch ch' : Channel, ch.kind = ch'.kind → p ch = p ch')
    (hkinds : xs.map Channel.kind = ys.map Channel.kind)
    (h : ∀ q ∈ xs.zip ys, v q.1 = v' q.2) : (xs.filter p).map v = (ys.filter p).map v' := by
  induction xs generalizing ys with
  | nil =>
      rw [List.map_nil, eq_comm, List.map_eq_nil_iff] at hkinds
      rw [hkinds]
      rfl
  | cons x xs ih =>
      match ys, hkinds with
      | y :: ys, hkinds =>
        -- `p` keeps both first channels or drops both.
        obtain ⟨hkind, hrest⟩ := List.cons.inj hkinds
        have hfirst := h (x, y) List.mem_cons_self
        have hothers := ih hrest fun q hq => h q (List.mem_cons_of_mem _ hq)
        rw [List.filter_cons, List.filter_cons, hp x y hkind]
        split
        · rw [List.map_cons, List.map_cons, hothers, hfirst]
        · exact hothers

namespace Layout.SameKinds

variable {l l' : Layout}

theorem length_eq (hk : l.SameKinds l') : l.channels.length = l'.channels.length := by
  have hlength := congrArg List.length hk
  rwa [List.length_map, List.length_map] at hlength

theorem map_colors (hk : l.SameKinds l')
    (h : ∀ q ∈ l.channels.zip l'.channels, v q.1 = v' q.2) :
    l.colors.map v = l'.colors.map v' := by
  refine map_filter_of_kinds (fun ch ch' hkind => ?_) hk h
  rw [Channel.isAlpha, Channel.isAlpha, hkind]

theorem map_alpha? (hk : l.SameKinds l')
    (h : ∀ q ∈ l.channels.zip l'.channels, v q.1 = v' q.2) :
    l.alpha?.map v = l'.alpha?.map v' := by
  have hfilter : (l.channels.filter Channel.isAlpha).map v =
      (l'.channels.filter Channel.isAlpha).map v' := by
    refine map_filter_of_kinds (fun ch ch' hkind => ?_) hk h
    rw [Channel.isAlpha, Channel.isAlpha, hkind]
  have hhead := congrArg List.head? hfilter
  rwa [List.head?_map, List.head?_map, List.head?_filter, List.head?_filter] at hhead

theorem hasAlpha_eq (hk : l.SameKinds l') : l.hasAlpha = l'.hasAlpha := by
  have halpha : l.alpha?.map (fun _ => ()) = l'.alpha?.map fun _ => () :=
    hk.map_alpha? fun _ _ => rfl
  rw [Layout.hasAlpha, Layout.hasAlpha, ← Option.isSome_map, halpha, Option.isSome_map]

end Layout.SameKinds

end Kinds

/-! ### Moving records -/

namespace Layout

/-- The bytes of every channel of the record at byte `start`, and the place that the
channel has in `l'`. -/
def moves (l l' : Layout) (buf : Bytes) (start : Nat) : List (Nat × List UInt8) :=
  (l.channels.zip l'.channels).map fun q =>
    (start + q.2.position, (buf.extract (start + q.1.position) (start + q.1.stop)).toList)

/-- The buffer with the channels of the record at byte `start` moved from their
places in `l` to their places in `l'`. -/
def moveRecord (l l' : Layout) (buf : Bytes) (start : Nat) : Bytes :=
  (moves l l' buf start).foldl (fun out (place, bytes) => overwrite out place bytes) buf

/-- The buffer with the channels of the records that start at the bytes `starts`
moved from their places in `l` to their places in `l'`. -/
def moveRecords (l l' : Layout) (starts : List Nat) (buf : Bytes) : Bytes :=
  starts.foldl (moveRecord l l') buf

end Layout

theorem size_foldl_overwrite (writes : List (Nat × List UInt8)) (buf : Bytes) :
    (writes.foldl (fun out (place, bytes) => overwrite out place bytes) buf).size = buf.size := by
  induction writes generalizing buf with
  | nil => rfl
  | cons first rest ih =>
      rw [List.foldl_cons, ih]
      exact size_overwrite ..

@[simp] theorem Layout.size_moveRecords (l l' : Layout) (starts : List Nat) (buf : Bytes) :
    (l.moveRecords l' starts buf).size = buf.size := by
  induction starts generalizing buf with
  | nil => rfl
  | cons first rest ih =>
      rw [Layout.moveRecords, List.foldl_cons]
      exact (ih _).trans (size_foldl_overwrite ..)

/-- Writes that fit, as a loop. -/
theorem on_forM_write {writes : List (Nat × List UInt8)} {buf : Bytes}
    (h : ∀ p ∈ writes, p.1 + p.2.length ≤ buf.size) :
    (writes.forM fun p => Edit.write p.1 p.2).on buf =
      (.ok (), writes.foldl (fun out (place, bytes) => overwrite out place bytes) buf) := by
  induction writes generalizing buf with
  | nil => rfl
  | cons first rest ih =>
      rw [on_forM_cons, on_write, if_pos (h first List.mem_cons_self)]
      apply ih
      intro p hp
      rw [size_overwrite]
      exact h p (List.mem_cons_of_mem _ hp)

/-! ### What moving does -/

/-- Every channel of the record at `start` has the same value in `a`, under the first
layout, and in `b`, under the second. -/
def Moved (d : Depth) (l l' : Layout) (a b : Bytes) (start : Nat) : Prop :=
  ∀ q ∈ l.channels.zip l'.channels,
    d.load b (start + q.2.position) = d.load a (start + q.1.position)

theorem Moved.valuesAt_eq {d : Depth} {l l' : Layout} {a b : Bytes} {start : Nat}
    (h : Moved d l l' a b start) (hk : l.SameKinds l') :
    Format.valuesAt ⟨d, l'⟩ b start = Format.valuesAt ⟨d, l⟩ a start := by
  have hvalue : ∀ q ∈ l.channels.zip l'.channels,
      (d.load a (start + q.1.position) : Int) = d.load b (start + q.2.position) :=
    fun q hq => congrArg Nat.cast (h q hq).symm
  exact PixelValues.ext (hk.map_colors hvalue).symm (hk.map_alpha? hvalue).symm

/-- Records that start at the bytes `starts` of a buffer of `size` bytes lie in it
and do not overlap. -/
structure Layout.Separate (l : Layout) (size : Nat) (starts : List Nat) : Prop where
  apart : starts.Pairwise fun s s' => s + l.recordSize ≤ s' ∨ s' + l.recordSize ≤ s
  fit : ∀ s ∈ starts, s + l.recordSize ≤ size

theorem Layout.separate_first {l : Layout} {size : Nat} (h : l.recordSize ≤ size) :
    l.Separate size [0] where
  apart := List.pairwise_singleton ..
  fit s hs := by
    obtain rfl := List.mem_singleton.mp hs
    omega

theorem Layout.separate_range {l : Layout} {size count : Nat} (h : count * l.recordSize ≤ size) :
    l.Separate size ((List.range count).map (· * l.recordSize)) where
  apart := by
    refine List.pairwise_map.mpr (List.pairwise_lt_range.imp fun {i k} hlt => .inl ?_)
    rw [← Nat.succ_mul]
    exact Nat.mul_le_mul_right _ hlt
  fit := by
    refine List.forall_mem_map.mpr fun i hi => ?_
    rw [← Nat.succ_mul]
    exact (Nat.mul_le_mul_right _ (List.mem_range.mp hi)).trans h

theorem Format.Exact.recordSize_eq {f : Format} (he : f.Exact) :
    f.recordSize = f.layout.channels.length * f.depth.bytes := by
  have hsizes : f.layout.channels.map Channel.size =
      f.layout.channels.map fun _ => f.depth.bytes := List.map_congr_left he
  rw [Format.recordSize, Layout.recordSize_eq_sum, hsizes, List.map_const',
    List.sum_replicate_nat]

namespace Layout.SameKinds

open Format

variable {d : Depth} {l l' : Layout}

theorem recordSize_eq (hk : l.SameKinds l') (he : Exact ⟨d, l⟩) (he' : Exact ⟨d, l'⟩) :
    l.recordSize = l'.recordSize := by
  have hsize : l.recordSize = l.channels.length * d.bytes := he.recordSize_eq
  have hsize' : l'.recordSize = l'.channels.length * d.bytes := he'.recordSize_eq
  rw [hsize, hsize', hk.length_eq]

theorem format_recordSize (hk : l.SameKinds l') (he : Exact ⟨d, l⟩) (he' : Exact ⟨d, l'⟩) :
    Format.recordSize ⟨d, l'⟩ = l.recordSize := (hk.recordSize_eq he he').symm

section Record

variable {buf : Bytes} {start : Nat} {q : Channel × Channel}

theorem length_move (he : Exact ⟨d, l⟩) (hq : q ∈ l.channels.zip l'.channels)
    (h : start + l.recordSize ≤ buf.size) :
    (buf.extract (start + q.1.position) (start + q.1.stop)).toList.length = d.bytes := by
  have hmem := (List.of_mem_zip hq).1
  have hsize : q.1.size = d.bytes := he q.1 hmem
  have hstop := Layout.stop_le_recordSize hmem
  rw [Array.length_toList, Array.size_extract, Nat.min_eq_left (by omega), Channel.stop]
  omega

theorem move_le (hk : l.SameKinds l') (he : Exact ⟨d, l⟩) (he' : Exact ⟨d, l'⟩)
    (hq : q ∈ l.channels.zip l'.channels) :
    start ≤ start + q.2.position ∧ start + q.2.position + d.bytes ≤ start + l.recordSize := by
  have hmem := (List.of_mem_zip hq).2
  have hsize : q.2.size = d.bytes := he' q.2 hmem
  have hstop := Layout.stop_le_recordSize hmem
  rw [← hk.recordSize_eq he he', Channel.stop] at hstop
  omega

/-- The writes that move a record have no byte in common. -/
theorem moves_acts (hk : l.SameKinds l') (he : Exact ⟨d, l⟩) (he' : Exact ⟨d, l'⟩)
    (h : start + l.recordSize ≤ buf.size) :
    ((l.moves l' buf start).forM fun p => Edit.write p.1 p.2).Acts buf.size
      (fun j => ∃ p ∈ l.moves l' buf start, p.1 ≤ j ∧ j < p.1 + p.2.length)
      (fun _ out => ∀ p ∈ l.moves l' buf start, ∀ k < p.2.length, out[p.1 + k]? = p.2[k]?) := by
  -- The bytes to be written were all taken from `buf`, so only their targets count.
  refine Acts.forM (List.pairwise_map.mpr ?_) (List.forall_mem_map.mpr fun q hq => acts_write ?_)
  · apply (pairwise_zip_snd l'.pairwise_apart).imp_of_mem
    intro q r hq hr hapart j hj hj'
    have hsize : q.2.size = d.bytes := he' q.2 (List.of_mem_zip hq).2
    have hsize' : r.2.size = d.bytes := he' r.2 (List.of_mem_zip hr).2
    rw [length_move he hq h] at hj
    rw [length_move he hr h] at hj'
    simp only [Channel.Apart, Channel.stop] at hapart
    omega
  · rw [length_move he hq h]
    exact (hk.move_le he he' hq).2.trans h

/-- **One record.** Its values stay as they are, read under the other layout. -/
theorem moveRecord_acts {size : Nat} (hk : l.SameKinds l') (he : Exact ⟨d, l⟩)
    (he' : Exact ⟨d, l'⟩) (h : start + l.recordSize ≤ size) :
    (modify fun b => l.moveRecord l' b start : Edit Unit).Acts size
      (fun j => start ≤ j ∧ j < start + l.recordSize) (fun a b => Moved d l l' a b start) where
  looksAt a b a' b' ha hb hpost q hq := by
    obtain ⟨hmem, hmem'⟩ := List.of_mem_zip hq
    have hsource : d.load a (start + q.1.position) = d.load a' (start + q.1.position) :=
      Channel.load_congr (ha.mono fun j hj => he.keeps_iff.mp ⟨q.1, hmem, hj⟩)
    have htarget : d.load b (start + q.2.position) = d.load b' (start + q.2.position) := by
      refine Channel.load_congr (hb.mono fun j hj => ?_)
      rw [hk.recordSize_eq he he']
      exact he'.keeps_iff.mp ⟨q.2, hmem', hj⟩
    rw [← hsource, ← htarget]
    exact hpost q hq
  ends buf hbuf := by
    subst hbuf
    have hfit : ∀ p ∈ l.moves l' buf start, p.1 + p.2.length ≤ buf.size := by
      refine List.forall_mem_map.mpr fun q hq => ?_
      rw [length_move he hq h]
      exact (hk.move_le he he' hq).2.trans h
    obtain ⟨hsize, hframe, hpost⟩ :=
      ((hk.moves_acts he he' h).ends buf rfl).of_on (on_forM_write hfit)
    refine ⟨(), _, on_modify .., hsize, hframe.mono fun j hj hmoved => hj ?_, fun q hq => ?_⟩
    · obtain ⟨p, hp, hbytes⟩ := hmoved
      obtain ⟨q, hq, rfl⟩ := List.mem_map.mp hp
      have hle : start ≤ start + q.2.position ∧
          start + q.2.position + d.bytes ≤ start + l.recordSize := hk.move_le he he' hq
      rw [length_move he hq h] at hbytes
      omega
    · apply d.load_shift
      intro t ht
      have hlength := length_move he hq h
      have hbyte := hpost _ (List.mem_map_of_mem hq) t (hlength.symm ▸ ht)
      rw [Array.length_toList, Array.size_extract] at hlength
      rw [Array.getElem?_toList, getElem?_extract_of_lt (by omega)] at hbyte
      exact hbyte

end Record

/-! ### Several records -/

theorem on_forM_moveRecord (l l' : Layout) (starts : List Nat) (buf : Bytes) :
    (starts.forM fun start => (modify fun b => l.moveRecord l' b start : Edit Unit)).on buf =
      (.ok (), l.moveRecords l' starts buf) := by
  induction starts generalizing buf with
  | nil => rfl
  | cons first rest ih =>
      rw [on_forM_cons, on_modify]
      exact ih _

/-- **Moving.** Records that do not overlap keep their values, and all bytes outside
them are left alone. -/
theorem moveRecords_spec {buf : Bytes} {starts : List Nat} (hk : l.SameKinds l')
    (he : Exact ⟨d, l⟩) (he' : Exact ⟨d, l'⟩) (hs : l.Separate buf.size starts) :
    AgreeOn (fun j => ¬ ∃ s ∈ starts, s ≤ j ∧ j < s + l.recordSize)
        (l.moveRecords l' starts buf) buf ∧
      ∀ s ∈ starts, Moved d l l' buf (l.moveRecords l' starts buf) s := by
  have hacts := Acts.forM (hs.apart.imp fun {s s'} hapart j hj hj' => by omega)
    fun s hmem => hk.moveRecord_acts he he' (hs.fit s hmem)
  exact ((hacts.ends buf rfl).of_on (on_forM_moveRecord l l' starts buf)).2

end Layout.SameKinds

end PixelRecord
