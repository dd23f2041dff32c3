import Mathlib.Algebra.Ring.Nat
import Mathlib.Data.List.Pairwise
import PixelRecord.Layout

/-!
What it means that a channel table was accepted. Its channels are not empty and
have no byte in common, every byte of the record lies in one of them, and each
is either a color or *the* alpha channel. All that is known about the places of
values in a record comes from here; the run of channels that acceptance walks
along is not looked at again.
-/

namespace PixelRecord

/-- Two channels without a common byte. -/
def Channel.Apart (a b : Channel) : Prop := a.stop ≤ b.position ∨ b.stop ≤ a.position

instance : Std.Symm Channel.Apart where
  symm _ _ h := h.symm

/-- Byte `j` of a record lies in the channel. -/
def Channel.Has (ch : Channel) (j : Nat) : Prop := ch.position ≤ j ∧ j < ch.stop

instance (ch : Channel) (j : Nat) : Decidable (ch.Has j) := inferInstanceAs (Decidable (_ ∧ _))

namespace Layout

/-! ### The channels of a byte -/

/-- The number of channels in which byte `j` lies. -/
def owners (channels : List Channel) (j : Nat) : Nat := channels.countP fun ch => ch.Has j

section Run

variable {cursor stop j : Nat} {ch : Channel} {channels : List Channel}

theorem owners_cons_of_has (h : ch.Has j) : owners (ch :: channels) j = owners channels j + 1 :=
  List.countP_cons_of_pos (decide_eq_true h)

theorem owners_cons_of_not_has (h : ¬ ch.Has j) : owners (ch :: channels) j = owners channels j :=
  List.countP_cons_of_neg (by simpa using h)

theorem owners_eq_zero (h : ∀ ch ∈ channels, ¬ ch.Has j) : owners channels j = 0 :=
  List.countP_eq_zero.mpr fun ch hch => by simpa using h ch hch

theorem exists_owner (h : 0 < owners channels j) : ∃ ch ∈ channels, ch.Has j := by
  obtain ⟨ch, hch, hhas⟩ := List.countP_pos_iff.mp h
  exact ⟨ch, hch, of_decide_eq_true hhas⟩

theorem owners_pos (hch : ch ∈ channels) (h : ch.Has j) : 0 < owners channels j :=
  List.countP_pos_iff.mpr ⟨ch, hch, decide_eq_true h⟩

/-! ### Along a run of channels -/

theorem runEnd_cons_eq_ok :
    runEnd cursor (ch :: channels) = .ok stop ↔
      ch.position = cursor ∧ 0 < ch.size ∧ runEnd ch.stop channels = .ok stop := by
  rw [runEnd]
  split
  · next h => simp [h]
  · next h =>
    simp only [reduceCtorEq, false_iff]
    rintro ⟨hp, hs, _⟩
    exact h ⟨hp, hs⟩

theorem runEnd_eq_sum (h : runEnd cursor channels = .ok stop) :
    stop = cursor + (channels.map Channel.size).sum := by
  induction channels generalizing cursor with
  | nil =>
      cases h
      rfl
  | cons ch rest ih =>
      obtain ⟨hp, _, hrest⟩ := runEnd_cons_eq_ok.mp h
      rw [ih hrest, List.map_cons, List.sum_cons, Channel.stop, hp, Nat.add_assoc]

theorem of_mem_run (h : runEnd cursor channels = .ok stop) (hch : ch ∈ channels) :
    cursor ≤ ch.position ∧ 0 < ch.size ∧ ch.stop ≤ stop := by
  induction channels generalizing cursor with
  | nil => cases hch
  | cons first rest ih =>
      obtain ⟨hp, hs, hrest⟩ := runEnd_cons_eq_ok.mp h
      rcases List.mem_cons.mp hch with rfl | hch
      · have := runEnd_eq_sum hrest
        exact ⟨by omega, hs, by omega⟩
      · obtain ⟨hcursor, hsize, hstop⟩ := ih hrest hch
        refine ⟨?_, hsize, hstop⟩
        have : first.position ≤ first.stop := Nat.le_add_right ..
        omega

theorem pairwise_run (h : runEnd cursor channels = .ok stop) :
    channels.Pairwise fun a b => a.stop ≤ b.position := by
  induction channels generalizing cursor with
  | nil => exact .nil
  | cons first rest ih =>
      obtain ⟨_, _, hrest⟩ := runEnd_cons_eq_ok.mp h
      exact .cons (fun _ hch => (of_mem_run hrest hch).1) (ih hrest)

/-- A run of channels has every byte on its way once. -/
theorem owners_run (h : runEnd cursor channels = .ok stop) (hj : cursor ≤ j) (hj' : j < stop) :
    owners channels j = 1 := by
  induction channels generalizing cursor with
  | nil =>
      cases h
      omega
  | cons first rest ih =>
      obtain ⟨hp, _, hrest⟩ := runEnd_cons_eq_ok.mp h
      -- All other channels lie behind the first one.
      by_cases hfirst : j < first.stop
      · rw [owners_cons_of_has ⟨by omega, hfirst⟩, owners_eq_zero fun ch hch hhas => ?_]
        have hbehind := (of_mem_run hrest hch).1
        have hstart := hhas.1
        omega
      · rw [owners_cons_of_not_has fun hhas => hfirst hhas.2]
        exact ih hrest (by omega)

end Run

/-! ### The channels of a layout -/

variable (l : Layout)

theorem byPosition_perm (channels : List Channel) : (byPosition channels).Perm channels :=
  List.mergeSort_perm ..

/-- What is checked of a table. -/
theorem extent_eq_ok_iff {channels : List Channel} {size : Nat} :
    extent channels = .ok size ↔
      runEnd 0 (byPosition channels) = .ok size ∧ channels ≠ [] ∧
        channels.countP Channel.isAlpha ≤ 1 := by
  rw [extent]
  split
  · next hempty =>
    simp only [reduceCtorEq, false_iff]
    rintro ⟨_, hne, _⟩
    exact hne (List.isEmpty_iff.mp hempty)
  · next hne =>
    split
    · next e hrun => simp [hrun]
    · next stop hrun =>
      rw [hrun]
      split
      · simp only [reduceCtorEq, false_iff]
        omega
      · next halpha =>
        rw [iff_self_and]
        intro _
        exact ⟨by simpa using hne, by omega⟩

/-- What was checked when the layout was accepted. -/
theorem accepted_run :
    runEnd 0 (byPosition l.channels) = .ok l.recordSize ∧ l.channels ≠ [] ∧
      l.channels.countP Channel.isAlpha ≤ 1 :=
  extent_eq_ok_iff.mp l.accepted

variable {l}

theorem size_pos {ch : Channel} (hch : ch ∈ l.channels) : 0 < ch.size :=
  (of_mem_run l.accepted_run.1 ((byPosition_perm _).mem_iff.mpr hch)).2.1

theorem stop_le_recordSize {ch : Channel} (hch : ch ∈ l.channels) : ch.stop ≤ l.recordSize :=
  (of_mem_run l.accepted_run.1 ((byPosition_perm _).mem_iff.mpr hch)).2.2

/-- Every byte of a record lies in a channel. -/
theorem exists_channel {j : Nat} (hj : j < l.recordSize) : ∃ ch ∈ l.channels, ch.Has j := by
  have hone := owners_run l.accepted_run.1 (Nat.zero_le j) hj
  rw [owners, (byPosition_perm _).countP_eq] at hone
  exact exists_owner (Nat.lt_of_lt_of_eq Nat.zero_lt_one hone.symm)

variable (l)

theorem pairwise_apart : l.channels.Pairwise Channel.Apart := by
  have hrun : (byPosition l.channels).Pairwise Channel.Apart :=
    (pairwise_run l.accepted_run.1).imp .inl
  exact ((byPosition_perm _).pairwise_iff fun h => h.symm).mp hrun

theorem recordSize_eq_sum : l.recordSize = (l.channels.map Channel.size).sum := by
  rw [runEnd_eq_sum l.accepted_run.1, Nat.zero_add]
  exact ((byPosition_perm _).map _).sum_nat

theorem recordSize_pos : 0 < l.recordSize := by
  obtain ⟨ch, hch⟩ := List.exists_mem_of_ne_nil _ l.accepted_run.2.1
  have hstop := stop_le_recordSize hch
  have hsize := size_pos hch
  simp only [Channel.stop] at hstop
  omega

variable {l}

theorem apart_of_ne {a b : Channel} (ha : a ∈ l.channels) (hb : b ∈ l.channels) (h : a ≠ b) :
    a.Apart b :=
  l.pairwise_apart.forall ha hb h

theorem nodup_channels (l : Layout) : l.channels.Nodup := by
  apply l.pairwise_apart.imp_of_mem
  intro a b ha _ hab heq
  subst heq
  have hsize := size_pos ha
  simp only [Channel.Apart, Channel.stop] at hab
  omega

theorem checkRecords_eq_ok_iff {size count : Nat} {what : String} :
    l.checkRecords size count what = .ok () ↔
      count * l.recordSize < addressSpace ∧ count * l.recordSize ≤ size := by
  unfold checkRecords
  dsimp only
  split
  · simp only [reduceCtorEq, false_iff]
    omega
  · split
    · simp only [reduceCtorEq, false_iff]
      omega
    · simp only [true_iff]
      omega

/-! ### Colors and alpha -/

theorem mem_colors {ch : Channel} : ch ∈ l.colors ↔ ch ∈ l.channels ∧ ch.isAlpha = false := by
  simp [colors]

theorem mem_of_mem_colors {ch : Channel} (h : ch ∈ l.colors) : ch ∈ l.channels :=
  (mem_colors.mp h).1

theorem mem_of_alpha? {ch : Channel} (h : l.alpha? = some ch) : ch ∈ l.channels :=
  List.mem_of_find?_eq_some h

theorem isAlpha_of_alpha? {ch : Channel} (h : l.alpha? = some ch) : ch.isAlpha = true :=
  List.find?_some h

theorem nodup_colors (l : Layout) : l.colors.Nodup := (nodup_channels l).filter _

/-- A channel that holds alpha is the alpha channel, as there are no two. -/
theorem alpha?_eq_some {ch : Channel} (hch : ch ∈ l.channels) (h : ch.isAlpha = true) :
    l.alpha? = some ch := by
  have hcount := l.accepted_run.2.2
  rw [List.countP_eq_length_filter] at hcount
  rw [alpha?, ← List.head?_filter]
  have hmem : ch ∈ l.channels.filter Channel.isAlpha := List.mem_filter.mpr ⟨hch, h⟩
  -- The channels with alpha are at most one, and `ch` is among them.
  match hf : l.channels.filter Channel.isAlpha with
  | [] => simp [hf] at hmem
  | [only] =>
    rw [hf, List.mem_singleton] at hmem
    rw [hmem, List.head?_cons]
  | a :: b :: rest => simp [hf] at hcount

theorem mem_channels {ch : Channel} :
    ch ∈ l.channels ↔ ch ∈ l.colors ∨ l.alpha? = some ch := by
  constructor
  · intro hch
    cases halpha : ch.isAlpha with
    | false => exact .inl (mem_colors.mpr ⟨hch, halpha⟩)
    | true => exact .inr (alpha?_eq_some hch halpha)
  · rintro (h | h)
    · exact mem_of_mem_colors h
    · exact mem_of_alpha? h

theorem ne_of_color_of_alpha {a b : Channel} (ha : a ∈ l.colors) (hb : l.alpha? = some b) :
    a ≠ b := by
  rintro rfl
  have hcolor := (mem_colors.mp ha).2
  rw [isAlpha_of_alpha? hb] at hcolor
  cases hcolor

end Layout

end PixelRecord
