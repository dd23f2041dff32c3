import PixelRecord.Proofs.Layout

/-!
Which channel tables are accepted.

The check sorts the channels and walks along them. What it finds out has nothing to do
with an order: a table is accepted if every byte below the sum of its sizes lies in
exactly one of its channels. In one direction bytes are counted along a run. In the other
the byte at which the run has arrived names the channel that goes on: it lies in some
channel, no channel starts before it, so the first one that is left starts there; and
none of the others starts within the first, as it would share a byte with it.
-/

namespace PixelRecord

theorem Channel.has_position {ch : Channel} (h : 0 < ch.size) : ch.Has ch.position :=
  ⟨Nat.le_refl _, Nat.lt_add_of_pos_right h⟩

namespace Layout

def sizeSum (channels : List Channel) : Nat := (channels.map Channel.size).sum

/-- The channels are the parts of a record: none is empty, every byte up to the last lies
in exactly one of them, and at most one of them holds alpha. -/
@[mk_iff]
structure Describes (channels : List Channel) : Prop where
  nonempty : channels ≠ []
  size_pos : ∀ ch ∈ channels, 0 < ch.size
  owners : ∀ j < sizeSum channels, owners channels j = 1
  alpha : channels.countP Channel.isAlpha ≤ 1

instance (channels : List Channel) : Decidable (Describes channels) :=
  decidable_of_iff' _ (describes_iff channels)

section Owners

variable {cursor : Nat} {ch : Channel} {channels : List Channel}

@[simp] theorem sizeSum_cons : sizeSum (ch :: channels) = ch.size + sizeSum channels := rfl

/-- Channels in the order of their positions that have every byte of a stretch once, and
none before it, are a run along this stretch. -/
theorem runEnd_of_owners (hsorted : channels.Pairwise fun a b => a.position ≤ b.position)
    (hsize : ∀ ch ∈ channels, 0 < ch.size) (hcursor : ∀ ch ∈ channels, cursor ≤ ch.position)
    (howners : ∀ j, cursor ≤ j → j < cursor + sizeSum channels → owners channels j = 1) :
    runEnd cursor channels = .ok (cursor + sizeSum channels) := by
  induction channels generalizing cursor with
  | nil => rfl
  | cons first rest ih =>
      obtain ⟨hnext, hsorted⟩ := List.pairwise_cons.mp hsorted
      obtain ⟨hpos, hsize⟩ := List.forall_mem_cons.mp hsize
      obtain ⟨hfirst, _⟩ := List.forall_mem_cons.mp hcursor
      rw [sizeSum_cons, ← Nat.add_assoc] at howners ⊢
      have hstart : first.position = cursor := by
        have hone := howners cursor le_rfl (by omega)
        obtain ⟨ch, hch, hhas⟩ := exists_owner (by omega : 0 < owners (first :: rest) cursor)
        have hle : first.position ≤ ch.position := by
          rcases List.mem_cons.mp hch with rfl | hch
          · exact le_rfl
          · exact hnext ch hch
        exact Nat.le_antisymm (Nat.le_trans hle hhas.1) hfirst
      have hstop : first.stop = cursor + first.size := by rw [Channel.stop, hstart]
      have hbehind : ∀ ch ∈ rest, first.stop ≤ ch.position := by
        intro ch hch
        by_contra hlt
        -- Both channels would have the byte at which the second one starts.
        have hboth : first.Has ch.position := ⟨hnext ch hch, by omega⟩
        have hone := howners ch.position (by have := hnext ch hch; omega) (by omega)
        have hother := owners_pos hch (Channel.has_position (hsize ch hch))
        rw [owners_cons_of_has hboth] at hone
        omega
      rw [runEnd_cons_eq_ok, ← hstop]
      refine ⟨hstart, hpos, ih hsorted hsize hbehind fun j hj hj' => ?_⟩
      rw [← howners j (by omega) (by omega)]
      exact (owners_cons_of_not_has fun hhas => by have := hhas.2; omega).symm

end Owners

/-! ### Acceptance -/

section Acceptance

variable {channels channels' : List Channel}

theorem Describes.perm (h : Describes channels) (hperm : channels'.Perm channels) :
    Describes channels' where
  nonempty hnil := h.nonempty (List.perm_nil.mp (hnil ▸ hperm.symm))
  size_pos ch hch := h.size_pos ch (hperm.mem_iff.mp hch)
  owners j hj := by
    rw [sizeSum, (hperm.map _).sum_nat] at hj
    rw [Layout.owners, hperm.countP_eq]
    exact h.owners j hj
  alpha := by
    rw [hperm.countP_eq]
    exact h.alpha

theorem byPosition_sorted (channels : List Channel) :
    (byPosition channels).Pairwise fun a b => a.position ≤ b.position := by
  have htrans (a b c : Channel) : decide (a.position ≤ b.position) = true →
      decide (b.position ≤ c.position) = true → decide (a.position ≤ c.position) = true := by
    simp only [decide_eq_true_eq]
    exact Nat.le_trans
  have htotal (a b : Channel) :
      (decide (a.position ≤ b.position) || decide (b.position ≤ a.position)) = true := by
    simp only [Bool.or_eq_true, decide_eq_true_eq]
    exact Nat.le_total ..
  exact (List.pairwise_mergeSort htrans htotal channels).imp of_decide_eq_true

/-- **The check.** It comes to a size exactly for the tables that describe a record, and to
the sum of the sizes. -/
theorem extent_eq_ok_iff_describes {size : Nat} :
    extent channels = .ok size ↔ Describes channels ∧ size = sizeSum channels := by
  have hperm := byPosition_perm channels
  constructor
  · intro h
    obtain ⟨hrun, hne, halpha⟩ := extent_eq_ok_iff.mp h
    have hsize : size = sizeSum (byPosition channels) := by
      rw [runEnd_eq_sum hrun, Nat.zero_add, sizeSum]
    have hsorted : Describes (byPosition channels) :=
      { nonempty := fun hnil => hne (List.nil_perm.mp (hnil ▸ hperm))
        size_pos := fun ch hch => (of_mem_run hrun hch).2.1
        owners := fun j hj => owners_run hrun (Nat.zero_le j) (hsize ▸ hj)
        alpha := by rwa [hperm.countP_eq] }
    exact ⟨hsorted.perm hperm.symm, hsize.trans (hperm.map _).sum_nat⟩
  · rintro ⟨h, rfl⟩
    have hsorted := h.perm hperm
    have hrun := runEnd_of_owners (byPosition_sorted channels) hsorted.size_pos
      (fun _ _ => Nat.zero_le _) fun j _ hj => hsorted.owners j (by omega)
    rw [Nat.zero_add, sizeSum, (hperm.map _).sum_nat] at hrun
    exact extent_eq_ok_iff.mpr ⟨hrun, h.nonempty, h.alpha⟩

theorem ofChannels_eq_ok_iff {l : Layout} :
    ofChannels channels = .ok l ↔ l.channels = channels := by
  constructor
  · intro h
    unfold ofChannels at h
    split at h
    · cases h
      rfl
    · cases h
  · rintro rfl
    exact ofChannels_channels l

/-- The layout of a table that describes a record, if it does. -/
theorem toOption_ofChannels (channels : List Channel) :
    (ofChannels channels).toOption.map recordSize =
      if Describes channels then some (sizeSum channels) else none := by
  unfold ofChannels
  split
  · next size hsize =>
    obtain ⟨h, rfl⟩ := extent_eq_ok_iff_describes.mp hsize
    rw [if_pos h]
    rfl
  · next e herror =>
    rw [if_neg fun h => ?_]
    · rfl
    · rw [extent_eq_ok_iff_describes.mpr ⟨h, rfl⟩] at herror
      cases herror

/-- A layout has the channels of a table, as the parts of its records. -/
structure Tabulates (l : Layout) (table : List Channel) : Prop where
  channels : l.channels = table
  recordSize : l.recordSize = sizeSum table
  within : ∀ ch ∈ table, ch.stop ≤ l.recordSize
  apart : table.Pairwise Channel.Apart
  colors : l.colors = table.filter fun ch => ch.kind = .color
  alpha : ∀ ch, l.alpha? = some ch ↔ ch ∈ table ∧ ch.kind = .alpha

theorem tabulates_channels (l : Layout) : l.Tabulates l.channels where
  channels := rfl
  recordSize := l.recordSize_eq_sum
  within _ hch := stop_le_recordSize hch
  apart := l.pairwise_apart
  colors := by
    refine List.filter_congr fun ch _ => ?_
    cases hkind : ch.kind <;> simp [Channel.isAlpha, hkind]
  alpha ch :=
    ⟨fun h => ⟨mem_of_alpha? h, of_decide_eq_true (isAlpha_of_alpha? h)⟩,
      fun ⟨hch, hkind⟩ => alpha?_eq_some hch (decide_eq_true hkind)⟩

/-- **Acceptance.** The tables that are accepted are those that describe a record. The
layout has the channels of the table and knows which of them are colors and which one is
alpha. In which order they are declared has no influence on whether they are accepted,
nor on the size of the record. -/
theorem accepts_records (channels : List Channel) :
    ((∃ l, ofChannels channels = .ok l) ↔ Describes channels) ∧
      (∀ l, ofChannels channels = .ok l → l.Tabulates channels) ∧
      ∀ channels', channels'.Perm channels →
        (ofChannels channels').toOption.map recordSize =
          (ofChannels channels).toOption.map recordSize := by
  refine ⟨⟨?_, ?_⟩, ?_, ?_⟩
  · rintro ⟨l, hl⟩
    obtain rfl := ofChannels_eq_ok_iff.mp hl
    exact (extent_eq_ok_iff_describes.mp l.accepted).1
  · intro h
    exact ⟨⟨channels, _, extent_eq_ok_iff_describes.mpr ⟨h, rfl⟩⟩, ofChannels_eq_ok_iff.mpr rfl⟩
  · intro l hl
    obtain rfl := ofChannels_eq_ok_iff.mp hl
    exact l.tabulates_channels
  · intro channels' hperm
    have hsame : Describes channels' ↔ Describes channels :=
      ⟨fun h => h.perm hperm.symm, fun h => h.perm hperm⟩
    rw [toOption_ofChannels, toOption_ofChannels, sizeSum, (hperm.map _).sum_nat]
    simp only [hsame, sizeSum]

/-- A table with channels of three widths, declared in no order of their positions. -/
theorem accepts_records_of_three_widths :
    let channels : List Channel :=
      [⟨"alpha", 1, 1, .alpha⟩, ⟨"red", 2, 3, .color⟩, ⟨"green", 0, 1, .color⟩]
    (∃ l, ofChannels channels = .ok l ∧ l.Tabulates channels ∧ l.recordSize = 5) ∧
      (ofChannels channels.reverse).toOption.map recordSize = some 5 ∧
      ¬ ∃ l, ofChannels (⟨"blue", 4, 1, .color⟩ :: channels) = .ok l := by
  intro channels
  obtain ⟨haccepts, htable, hperm⟩ := accepts_records channels
  obtain ⟨l, hl⟩ := haccepts.mpr (by decide)
  have hsize : l.recordSize = 5 := (htable l hl).recordSize
  refine ⟨⟨l, hl, htable l hl, hsize⟩, ?_, fun hshared => ?_⟩
  · rw [hperm channels.reverse channels.reverse_perm, hl, ← hsize]
    rfl
  · exact absurd ((accepts_records _).1.mp hshared) (by decide)

end Acceptance

end Layout

end PixelRecord
