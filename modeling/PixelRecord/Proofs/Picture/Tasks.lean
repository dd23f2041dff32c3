import Mathlib.Data.List.Nodup
import PixelRecord.Picture
import PixelRecord.Proofs.Picture

/-!
Pictures made by tasks are the pictures made by one.

The records and the picture are cut into chunks independently, and the two cuts
have to fit: the `k`-th chunk of either covers the rows from `k * rows` on, as
many as there are left, so a task finds in its chunk of records just what its
chunk of the picture has room for. Then every task is a loop over its own
pixels, tasks have no byte in common, and every pixel has its task. The order in
which they run has no part in this; it only has to name every task once.
-/

namespace PixelRecord.Format

open Edit

variable {f : Format} {src : Bytes} {width height rows k : Nat}

/-! ### Cutting into chunks -/

/-- There are as many chunks as are needed to cover the rows, whatever a row takes. -/
theorem lt_chunkCount_rows {unit : Nat} (hunit : 0 < unit) (hrows : 0 < rows) :
    k < chunkCount (unit * height) (unit * rows) ↔ k * rows < height := by
  have hstep : 0 < unit * rows := Nat.mul_pos hunit hrows
  have hfirst : k * (unit * rows) = unit * (k * rows) := Nat.mul_left_comm ..
  have hscale : unit * (k * rows) < unit * height ↔ k * rows < height := Nat.mul_lt_mul_left hunit
  rw [chunkCount, Nat.lt_div_iff_mul_lt hstep, ← hscale, ← hfirst]
  omega

/-- The row after the `k`-th chunk. -/
def rowStop (height rows k : Nat) : Nat := min ((k + 1) * rows) height

/-- Chunks of whole rows end where a row ends. -/
theorem chunkStop_rows (unit : Nat) :
    chunkStop (unit * height) (unit * rows) k = unit * rowStop height rows k := by
  rw [chunkStop, rowStop, Nat.mul_left_comm, Nat.mul_min_mul_left]

/-- Both cuts give a task for every chunk of rows. -/
theorem lt_taskCount (hwidth : 0 < width) (hrows : 0 < rows) :
    k < f.taskCount width height rows ↔ k * rows < height := by
  have hrecord : 0 < width * f.recordSize := Nat.mul_pos hwidth f.layout.recordSize_pos
  have hsize : 4 * (width * height) = 4 * width * height := (Nat.mul_assoc ..).symm
  have hsize' : width * height * f.recordSize = width * f.recordSize * height :=
    Nat.mul_right_comm ..
  rw [taskCount, pictureStep, recordStep, lt_min_iff, hsize, hsize',
    lt_chunkCount_rows (by omega) hrows, lt_chunkCount_rows hrecord hrows, and_self]

/-! ### One task -/

/-- A pixel of a part of the picture is a pixel of the picture, if the records are
cut as the picture is. -/
theorem shows_of_part (hw : f.Wide) {records out : Bytes} {first last i : Nat} (hi : first ≤ i)
    (hi' : i < last)
    (h : f.Shows (records.extract (first * f.recordSize) (last * f.recordSize))
      (out.extract (4 * first) (4 * last)) (i - first)) : f.Shows records out i := by
  have hcell : (i - first) * f.recordSize + f.recordSize ≤
      last * f.recordSize - first * f.recordSize := by
    rw [← Nat.sub_mul]
    have hlt : i - first < last - first := by omega
    exact record_le hlt le_rfl
  have hplace : first * f.recordSize + (i - first) * f.recordSize = i * f.recordSize := by
    rw [← Nat.add_mul, Nat.add_sub_cancel' hi]
  have hvalues : f.valuesAt (records.extract (first * f.recordSize) (last * f.recordSize))
      ((i - first) * f.recordSize) = f.valuesAt records (i * f.recordSize) := by
    apply hw.valuesAt_shift
    intro t ht
    rw [getElem?_extract_of_lt (by omega), ← hplace, Nat.add_assoc]
  intro k hk
  have hbyte := h k hk
  rw [hvalues, getElem?_extract_of_lt (by omega)] at hbyte
  rw [← hbyte]
  congr 1
  omega

/-- The records of some rows fill the pixels of these rows. -/
theorem checkSource_rows {records : Bytes} (start : Nat) {stop : Nat} (hstop : stop ≤ height)
    (hfit : width * height * f.recordSize < Layout.addressSpace)
    (hrecords : records.size = width * height * f.recordSize) :
    f.checkSource (records.extract (width * start * f.recordSize)
      (width * stop * f.recordSize)).size width (stop - start) = .ok () := by
  have hlast : width * stop * f.recordSize ≤ width * height * f.recordSize :=
    Nat.mul_le_mul_right _ (Nat.mul_le_mul_left _ hstop)
  have hbytes : width * (stop - start) * f.recordSize =
      width * stop * f.recordSize - width * start * f.recordSize := by
    rw [← Nat.sub_mul, Nat.mul_sub]
  have hpixels : width * (stop - start) ≤ width * (stop - start) * f.recordSize :=
    Nat.le_mul_of_pos_right _ f.layout.recordSize_pos
  rw [checkSource_eq_ok_iff, Array.size_extract, hrecords]
  omega

theorem writeRows_acts (hw : f.Wide) {records : Bytes} {start stop : Nat} (hwidth : 0 < width)
    (hle : start ≤ stop) (hstop : stop ≤ height)
    (hfit : width * height * f.recordSize < Layout.addressSpace)
    (hrecords : records.size = width * height * f.recordSize) :
    (Edit.within (4 * (width * start)) (4 * (width * stop)) do
      f.writePicture (records.extract (width * start * f.recordSize) (width * stop * f.recordSize))
        width ((← Edit.size) / (4 * width))).Acts (4 * (width * height))
      (fun j => 4 * (width * start) ≤ j ∧ j < 4 * (width * stop))
      (fun _ out => ∀ i, width * start ≤ i → i < width * stop → f.Shows records out i) := by
  have hcheck := checkSource_rows start hstop hfit hrecords
  have hroom : (4 * (width * stop) - 4 * (width * start)) / (4 * width) = stop - start := by
    rw [← Nat.mul_sub, ← Nat.mul_sub, ← Nat.mul_assoc, Nat.mul_div_cancel_left _ (by omega)]
  have hcount : width * (stop - start) = width * stop - width * start := Nat.mul_sub ..
  have hfirst : width * start ≤ width * stop := Nat.mul_le_mul_left _ hle
  have hlast : width * stop ≤ width * height := Nat.mul_le_mul_left _ hstop
  -- A task knows how many rows it has from the size of its part of the picture alone.
  have hpart : (do
      f.writePicture (records.extract (width * start * f.recordSize) (width * stop * f.recordSize))
        width ((← Edit.size) / (4 * width)) : Edit Unit).Acts
      (4 * (width * stop) - 4 * (width * start)) _ _ :=
    Acts.of_size (by rw [hroom]; exact writePicture_acts hw hcheck (by omega))
  refine (hpart.within (by omega) (by omega) ?_).mono ?_ ?_ ?_
  · rintro j ⟨i, hi, hj⟩
    rw [hcount, List.mem_range] at hi
    omega
  · intro a b a' b' _ hb hpost i hi hi' k hk
    rw [← hpost i hi hi' k hk]
    exact (hb (4 * i + k) ⟨by omega, by omega⟩).symm
  · rintro j ⟨hj, i, hi, hj'⟩
    rw [hcount, List.mem_range] at hi
    omega
  · intro a b _ hpost i hi hi'
    refine shows_of_part hw hi hi' (hpost (i - width * start) ?_)
    rw [hcount, List.mem_range]
    omega

/-- **One task.** It writes the pixels of its rows, each from the record with the
same number, and changes nothing else. -/
theorem runTask_acts (hw : f.Wide) {records : Bytes} (hwidth : 0 < width)
    (hfit : width * height * f.recordSize < Layout.addressSpace)
    (hrecords : records.size = width * height * f.recordSize) (hk : k * rows < height) :
    (f.runTask records width rows k).Acts (4 * (width * height))
      (fun j => 4 * (width * (k * rows)) ≤ j ∧ j < 4 * (width * rowStop height rows k))
      (fun _ out => ∀ i, width * (k * rows) ≤ i → i < width * rowStop height rows k →
        f.Shows records out i) := by
  have hout : k * pictureStep width rows = 4 * (width * (k * rows)) := by
    rw [pictureStep, Nat.mul_left_comm, Nat.mul_assoc]
  have hout' : chunkStop (4 * (width * height)) (pictureStep width rows) k =
      4 * (width * rowStop height rows k) := by
    rw [← Nat.mul_assoc, pictureStep, chunkStop_rows, Nat.mul_assoc]
  have hin : k * f.recordStep width rows = width * (k * rows) * f.recordSize := by
    rw [recordStep, Nat.mul_left_comm, Nat.mul_right_comm]
  have hin' : chunkStop records.size (f.recordStep width rows) k =
      width * rowStop height rows k * f.recordSize := by
    rw [hrecords, Nat.mul_right_comm, recordStep, chunkStop_rows, Nat.mul_right_comm]
  have hle : k * rows ≤ rowStop height rows k := by
    rw [rowStop, Nat.succ_mul]
    omega
  rw [runTask]
  refine Acts.of_size ?_
  rw [hout, hout', hin, hin']
  exact writeRows_acts hw hwidth hle (Nat.min_le_right ..) hfit hrecords

/-! ### All tasks -/

theorem rowStop_le_of_lt {k' : Nat} (h : k < k') : rowStop height rows k ≤ k' * rows :=
  (Nat.min_le_left ..).trans (Nat.mul_le_mul_right _ h)

/-- Every pixel has its task. -/
theorem exists_task {i : Nat} (hwidth : 0 < width) (hrows : 0 < rows) (hi : i < width * height) :
    ∃ k, k * rows < height ∧ width * (k * rows) ≤ i ∧ i < width * rowStop height rows k := by
  have hrow : i / width < height := Nat.div_lt_of_lt_mul hi
  have hfirst : i / width / rows * rows ≤ i / width := Nat.div_mul_le_self ..
  have hlast : i / width < (i / width / rows + 1) * rows := by
    rw [Nat.succ_mul]
    exact Nat.lt_div_mul_add hrows
  refine ⟨i / width / rows, hfirst.trans_lt hrow, ?_, ?_⟩
  · exact (Nat.mul_le_mul_left _ hfirst).trans (Nat.mul_div_le i width)
  · have hpixel : i < width * (i / width + 1) := Nat.lt_mul_div_succ i hwidth
    exact hpixel.trans_le (Nat.mul_le_mul_left _ (Nat.lt_min.mpr ⟨hlast, hrow⟩))

/-- **Any order.** Tasks that are named once each, in whatever order, make the
picture of the records. -/
theorem toPictureInOrder_depicts (hw : f.Wide) {records : Bytes} {order : List Nat}
    (hwidth : 0 < width) (hrows : 0 < rows)
    (hfit : width * height * f.recordSize < Layout.addressSpace)
    (hrecords : records.size = width * height * f.recordSize)
    (horder : order.Perm (List.range (f.taskCount width height rows))) :
    ∃ data, f.toPictureInOrder order records width height rows = .ok ⟨width, height, data⟩ ∧
      f.Depicts records (width * height) data := by
  have hmem {k : Nat} : k ∈ order ↔ k * rows < height := by
    rw [horder.mem_iff, List.mem_range, lt_taskCount hwidth hrows]
  -- Tasks named once each are different ones, and of two of these one ends before the
  -- other starts.
  have hsep : order.Pairwise fun k k' => ∀ j,
      (4 * (width * (k * rows)) ≤ j ∧ j < 4 * (width * rowStop height rows k)) →
        ¬ (4 * (width * (k' * rows)) ≤ j ∧ j < 4 * (width * rowStop height rows k')) := by
    apply (horder.nodup_iff.mpr List.nodup_range).imp
    intro k k' hne j hj hj'
    rcases Nat.lt_or_gt_of_ne hne with hlt | hlt
    · have hrow : width * rowStop height rows k ≤ width * (k' * rows) :=
        Nat.mul_le_mul_left _ (rowStop_le_of_lt hlt)
      omega
    · have hrow : width * rowStop height rows k' ≤ width * (k * rows) :=
        Nat.mul_le_mul_left _ (rowStop_le_of_lt hlt)
      omega
  obtain ⟨⟨⟩, data, hon, hsize, _, hpost⟩ := (Acts.forM hsep fun k hk =>
    runTask_acts hw hwidth hfit hrecords (hmem.mp hk)).ends (Array.replicate _ 0)
    Array.size_replicate
  refine ⟨data, ?_, hsize, fun i hi => ?_⟩
  · rw [toPictureInOrder]
    rw [hon]
  · obtain ⟨k, hk, hfirst, hlast⟩ := exists_task hwidth hrows hi
    exact hpost k (hmem.mpr hk) i hfirst hlast

/-! ### The outcome of a call -/

/-- Both calls give the same picture, or both are refused because a buffer does
not fit. -/
def SameOutcome (a b : Except Failure Picture) : Prop :=
  match a, b with
  | .ok p, .ok q => p = q
  | .error (.refused e), .error (.refused e') => e.kind = .buffer ∧ e'.kind = .buffer
  | _, _ => False

theorem toPicture_sameOutcome_self (hw : f.Wide) (src : Bytes) (width height : Nat)
    (x y x' y' : Int) :
    SameOutcome (f.toPicture src width height x y) (f.toPicture src width height x' y') := by
  cases hcheck : f.checkSource src.size width height with
  | error e =>
    simp only [toPicture, hcheck]
    exact ⟨kind_of_checkSource hcheck, kind_of_checkSource hcheck⟩
  | ok u =>
    obtain ⟨data, hdata, hdepicts⟩ := toPicture_of_check hw x y hcheck
    obtain ⟨data', hdata', hdepicts'⟩ := toPicture_of_check hw x' y' hcheck
    rw [hdata, hdata', hdepicts.unique hdepicts']
    rfl

/-- A source that is enough for one task is enough for several, and the other
way round. -/
theorem checkTasks_eq_ok_iff {size : Nat} (hrows : 0 < rows)
    (hfit : width * height * f.recordSize < Layout.addressSpace) :
    f.checkTasks size width height rows = .ok () ↔ f.checkSource size width height = .ok () := by
  have hpixels : width * height ≤ width * height * f.recordSize :=
    Nat.le_mul_of_pos_right _ f.layout.recordSize_pos
  rw [checkSource_eq_ok_iff, checkTasks, if_neg (by omega), pixelCount, if_neg (by omega)]
  simp only [bind, Except.bind, pure, Except.pure]
  split
  · simp only [throw, throwThe, MonadExceptOf.throw, reduceCtorEq, false_iff]
    omega
  · simp only [true_iff]
    omega

theorem kind_of_checkTasks {size : Nat} {e : Error} (hrows : 0 < rows)
    (h : f.checkTasks size width height rows = .error e) : e.kind = .buffer := by
  rw [checkTasks, if_neg (by omega), pixelCount] at h
  simp only [bind, Except.bind, pure, Except.pure] at h
  split at h
  · next he =>
    split at he <;> cases he
    cases h
    rfl
  · split at h
    · cases h
      rfl
    · cases h

/-- Records beyond those of the picture play no part in it. -/
theorem depicts_of_extract (hw : f.Wide) {count : Nat} {data : Bytes}
    (h : f.Depicts (src.extract 0 (count * f.recordSize)) count data) :
    f.Depicts src count data where
  size := h.size
  pixels i hi k hk := by
    have hrecord := record_le (f := f) hi le_rfl
    have hvalues : f.valuesAt (src.extract 0 (count * f.recordSize)) (i * f.recordSize) =
        f.valuesAt src (i * f.recordSize) := by
      apply hw.valuesAt_shift
      intro t ht
      rw [getElem?_extract_of_lt (by omega), Nat.zero_add]
    rw [← hvalues]
    exact h.pixels i hi k hk

theorem depicts_empty {count : Nat} (h : count = 0) : f.Depicts src count #[] where
  size := by rw [h]; rfl
  pixels i hi := by omega

theorem toPictureByTasks_of_check (hw : f.Wide) {schedule : Nat → List Nat}
    (hschedule : ∀ n, (schedule n).Perm (List.range n)) (hrows : 0 < rows)
    (hcheck : f.checkSource src.size width height = .ok ()) :
    ∃ data, f.toPictureByTasks schedule src width height rows = .ok ⟨width, height, data⟩ ∧
      f.Depicts src (width * height) data := by
  obtain ⟨_, hfit, hsize⟩ := checkSource_eq_ok_iff.mp hcheck
  rw [toPictureByTasks, (checkTasks_eq_ok_iff hrows hfit).mpr hcheck]
  dsimp only
  split
  -- Without pixels there are no chunks to cut, so no task is run.
  · next hempty => exact ⟨#[], rfl, depicts_empty hempty⟩
  · next hne =>
    have hwidth : 0 < width := Nat.pos_of_mul_pos_right (Nat.pos_of_ne_zero hne)
    have hrecords : (src.extract 0 (width * height * f.recordSize)).size =
        width * height * f.recordSize := by
      rw [Array.size_extract]
      omega
    obtain ⟨data, hdata, hdepicts⟩ :=
      toPictureInOrder_depicts hw hwidth hrows hfit hrecords (hschedule _)
    exact ⟨data, hdata, depicts_of_extract hw hdepicts⟩

theorem toPictureByTasks_sameOutcome (hw : f.Wide) {schedule : Nat → List Nat}
    (hschedule : ∀ n, (schedule n).Perm (List.range n)) (hrows : 0 < rows)
    (hfit : width * height * f.recordSize < Layout.addressSpace) (x y : Int) :
    SameOutcome (f.toPictureByTasks schedule src width height rows)
      (f.toPicture src width height x y) := by
  cases hcheck : f.checkSource src.size width height with
  | ok u =>
    obtain ⟨data, hdata, hdepicts⟩ := toPicture_of_check hw x y hcheck
    obtain ⟨data', hdata', hdepicts'⟩ := toPictureByTasks_of_check hw hschedule hrows hcheck
    rw [hdata, hdata', hdepicts.unique hdepicts']
    rfl
  | error e =>
    cases htasks : f.checkTasks src.size width height rows with
    | ok u =>
      rw [(checkTasks_eq_ok_iff hrows hfit).mp htasks] at hcheck
      cases hcheck
    | error e' =>
      simp only [toPictureByTasks, toPicture, hcheck, htasks]
      exact ⟨kind_of_checkTasks hrows htasks, kind_of_checkSource hcheck⟩

theorem rows_pos_of_check {t : Threading} (h : t.check = .ok ()) : 0 < t.rowsPerTask.toNat := by
  rw [Threading.check] at h
  split at h
  · cases h
  · next hne => exact Nat.pos_of_ne_zero fun hzero => hne (UInt64.toNat_inj.mp hzero)

/-- With settings that are accepted, a source that is large enough has its picture. -/
theorem toPictureWith_of_check (hw : f.Wide) {schedule : Nat → List Nat}
    (hschedule : ∀ n, (schedule n).Perm (List.range n)) {t : Threading} (ht : t.check = .ok ())
    (hcheck : f.checkSource src.size width height = .ok ()) :
    ∃ data, f.toPictureWith schedule t src width height = .ok ⟨width, height, data⟩ ∧
      f.Depicts src (width * height) data := by
  rw [toPictureWith, ht]
  dsimp only
  split
  · exact toPicture_of_check hw 0 0 hcheck
  · exact toPictureByTasks_of_check hw hschedule (rows_pos_of_check ht) hcheck

/-- **Sharing out a picture changes nothing.** Whatever the rows of a task, the
order of the tasks and the settings, the outcome is that of decoding the
picture in one go. -/
theorem pictures_agree (hw : f.Wide) {schedule : Nat → List Nat}
    (hschedule : ∀ n, (schedule n).Perm (List.range n)) (src : Bytes) (width height : Nat)
    (hfit : width * height * f.recordSize < Layout.addressSpace) (x y : Int) :
    (∀ rowsPerTask, 0 < rowsPerTask →
      SameOutcome (f.toPictureByTasks schedule src width height rowsPerTask)
        (f.toPicture src width height x y)) ∧
      ∀ t : Threading, t.check = .ok () →
        SameOutcome (f.toPictureWith schedule t src width height)
          (f.toPicture src width height x y) := by
  refine ⟨fun rows hrows => toPictureByTasks_sameOutcome hw hschedule hrows hfit x y,
    fun t ht => ?_⟩
  rw [toPictureWith, ht]
  dsimp only
  split
  · exact toPicture_sameOutcome_self hw src width height 0 0 x y
  · exact toPictureByTasks_sameOutcome hw hschedule (rows_pos_of_check ht) hfit x y

theorem pictures_agree_last_task_first :
    Wide ⟨.eight, .bgra .eight⟩ ∧ (∀ n, (List.range n).reverse.Perm (List.range n)) ∧
      1 * 3 * recordSize ⟨.eight, .bgra .eight⟩ < Layout.addressSpace ∧
      toPictureByTasks ⟨.eight, .bgra .eight⟩ (fun n => (List.range n).reverse)
        #[3, 2, 1, 4, 7, 6, 5, 8, 11, 10, 9, 12, 99] 1 3 2 =
          .ok ⟨1, 3, #[1, 2, 3, 4, 5, 6, 7, 8, 9, 10, 11, 12]⟩ ∧
      SameOutcome (toPictureByTasks ⟨.eight, .bgra .eight⟩ (fun n => (List.range n).reverse)
          #[3, 2, 1, 4, 7, 6, 5, 8, 11, 10, 9, 12, 99] 1 3 2)
        (toPicture ⟨.eight, .bgra .eight⟩ #[3, 2, 1, 4, 7, 6, 5, 8, 11, 10, 9, 12, 99] 1 3 0 0) :=
  ⟨by decide, fun n => (List.range n).reverse_perm, by decide, by decide,
    (pictures_agree (by decide) (fun n => (List.range n).reverse_perm) _ 1 3 (by decide) 0 0).1 2
      (by decide)⟩

end PixelRecord.Format
