import PixelRecord.CommandLine.FileTree

/-!
What commands rely on in a tree of files: a file that was written is read again
under the path that it was written to, and an image that is read is not larger than
a reader admits.

A path leads through directories only, so a file at the end of the path is not on
its way.
-/

namespace PixelRecord.CommandLine

namespace FileTree

variable {t after : FileTree} {place other : Place} {path : String} {content : Content}

/-! ### Another node at a place -/

theorem lookup_filter_ne {nodes : List (Place × Node)} (h : other ≠ place) :
    (nodes.filter fun (p, _) => p ≠ place).lookup other = nodes.lookup other := by
  induction nodes with
  | nil => rfl
  | cons first rest ih =>
      obtain ⟨p, node⟩ := first
      by_cases hp : p = place
      · subst hp
        rw [List.filter_cons_of_neg (by simp), List.lookup_cons, ih, beq_false_of_ne h]
      · rw [List.filter_cons_of_pos (by simpa using hp), List.lookup_cons, List.lookup_cons, ih]

theorem node?_put_of_ne (node : Node) (h : other ≠ place) :
    (t.put place node).node? other = t.node? other := by
  simp only [node?, put, List.lookup_cons, beq_false_of_ne h, lookup_filter_ne h]

/-- Where there is no directory, another node can be put. -/
theorem node?_put_of_not_directory (node : Node) (h : t.node? place ≠ some .directory) :
    (t.put place node).node? place = some node := by
  apply node?_put_self
  cases hhome : place.isPrefixOf t.home with
  | false => rfl
  | true => exact absurd (if_pos hhome) h

/-- A path that leads somewhere still does after a file is put where there was no
directory. -/
theorem follow?_put (h : t.node? place ≠ some .directory) (content : Content) (start : Place)
    (names : List String) :
    (t.put place (.file content)).follow? start names = t.follow? start names := by
  induction names generalizing start with
  | nil => rfl
  | cons name rest ih =>
      rw [follow?, follow?]
      by_cases hstart : start = place
      · subst hstart
        rw [node?_put_of_not_directory _ h]
        match hnode : t.node? start, h with
        | none, _ | some (.file _), _ => rfl
      · rw [node?_put_of_ne _ hstart, ih]

theorem place?_put (h : t.node? place ≠ some .directory) (content : Content) (path : String) :
    (t.put place (.file content)).place? path = t.place? path := by
  rw [place?, place?]
  split
  · rfl
  · exact follow?_put h content _ _

/-! ### Writing -/

/-- A file can be written at a path: it leads to a file, or to a place where there
is nothing yet but could be. -/
def admits (t : FileTree) (path : String) : Bool :=
  match t.place? path with
  | some place =>
    match t.node? place with
    | some .directory => false
    | some (.file _) => true
    | none => admitsName place
  | none => false

theorem write?_of_admits (h : t.admits path = true) (content : Content) :
    ∃ place, t.place? path = some place ∧ t.node? place ≠ some .directory ∧
      t.write? path content = some (t.put place (.file content)) := by
  rw [admits] at h
  split at h
  · next place hplace =>
    refine ⟨place, hplace, ?_⟩
    rw [write?, hplace]
    split at h
    · cases h
    · next hnode => simp [hnode]
    · next hnode => simp [hnode, h]
  · cases h

/-- What was written is read again. -/
theorem file?_write? (h : t.admits path = true) (content : Content) :
    ∃ after, t.write? path content = some after ∧ after.file? path = some content := by
  obtain ⟨place, hplace, hnode, hwrite⟩ := write?_of_admits h content
  refine ⟨_, hwrite, ?_⟩
  rw [file?, place?_put hnode, hplace, Option.bind_some, node?_put_of_not_directory _ hnode]

/-- The tree after the directory that a path lies in is created with all that are
above it, and whether it is there then. -/
def withParent (t : FileTree) (path : String) : FileTree × Bool :=
  match parent? path with
  | some parent => t.createDirectory parent
  | none => (t, true)

/-- The directory of the path is there or can be created, and then the file. -/
def Writable (t : FileTree) (path : String) : Prop :=
  (t.withParent path).2 = true ∧ (t.withParent path).1.admits path = true

instance (t : FileTree) (path : String) : Decidable (t.Writable path) :=
  inferInstanceAs (Decidable (_ ∧ _))

end FileTree

/-! ### Reading -/

/-- The bytes that the samples of an image take. -/
def sampleBytes (m : Image) : Nat := m.width * m.height * m.model.channels * m.depth.bytes

theorem sampleBytes_le_of_decode? {bytes : Bytes} {m : Image} (h : Png.decode? bytes = some m) :
    sampleBytes m ≤ Png.maxImageBytes := by
  simp only [Png.decode?, Option.bind_eq_bind, Option.bind_eq_some_iff] at h
  obtain ⟨_, _, _, _, header, _, preamble, _, h⟩ := h
  split at h
  · cases h
  · next hsize =>
    obtain ⟨_, _, h⟩ := Option.bind_eq_some_iff.mp h
    split at h
    · cases h
    · obtain ⟨_, _, h⟩ := Option.bind_eq_some_iff.mp h
      obtain ⟨_, _, ⟨⟩⟩ := Option.bind_eq_some_iff.mp h
      exact Nat.le_of_not_lt hsize

theorem sampleBytes_le_of_content {content : Content} {m : Image}
    (h : content.image? = some m) : sampleBytes m ≤ Png.maxImageBytes := by
  cases content with
  | bytes data => exact sampleBytes_le_of_decode? h
  | image image =>
    rw [Content.image?] at h
    split at h
    · cases h
    · next hsize =>
      cases h
      exact Nat.le_of_not_lt hsize

theorem FileTree.text?_of_file? {t : FileTree} {path text : String}
    (h : t.file? path = some (.bytes text.toUTF8.data)) : t.text? path = some text := by
  rw [text?, h]
  simpa [String.fromUTF8?] using ⟨text.isValidUTF8, rfl⟩

/-- An image that is read has no more pixels than a reader admits bytes. -/
theorem FileTree.pixels_le_of_image? {t : FileTree} {path : String} {m : Image}
    (h : t.image? path = some m) : m.width * m.height ≤ Png.maxImageBytes := by
  rw [image?] at h
  split at h
  · obtain ⟨content, _, hcontent⟩ := Option.bind_eq_some_iff.mp h
    have hchannels : 0 < m.model.channels := by cases m.model <;> decide
    calc m.width * m.height
        ≤ m.width * m.height * m.model.channels := Nat.le_mul_of_pos_right _ hchannels
      _ ≤ sampleBytes m := Nat.le_mul_of_pos_right _ m.depth.bytes_pos
      _ ≤ Png.maxImageBytes := sampleBytes_le_of_content hcontent
  · cases h

end PixelRecord.CommandLine
