import Mathlib.Data.List.Nodup
import PixelRecord.Proofs.Json.Decode
import PixelRecord.Proofs.Names
import PixelRecord.Settings

/-!
Settings that are written are read again, and settings that are written in part stand for the
defaults with the given values in place.

Both follow from one description: `Settings.Partial` is what a document may say of settings,
and its `members` are the members that say it. The settings that the writer prints are those
of a partial one that leaves nothing out. What is read is then checked, and the check refuses
nothing but empty tasks and an empty set of threads.
-/

namespace PixelRecord

namespace Json

/-- A field that is left out has its default, and a field that is given the value it was
written from. -/
theorem orElse_map {α : Type} {toJson : α → Json} {read : Json → Option α}
    (h : ∀ a, read (toJson a) = some a) (absent : α) (given : Option α) :
    orElse absent read (given.map toJson) = some (given.getD absent) := by
  cases given with
  | none => rfl
  | some a => exact h a

/-- Keys are fields if they are some of the names, in any order. -/
theorem FieldKeys.of_perm {strict : Bool} {names keys keys' : List String}
    (hperm : keys'.Perm keys) (hsub : keys.Sublist names) (hnames : names.Nodup) :
    FieldKeys strict names keys' where
  once name _ := List.nodup_iff_count_le_one.mp (hperm.nodup_iff.mpr (hnames.sublist hsub)) name
  known _ _ hkey := hsub.subset (hperm.subset hkey)

theorem bool?_bool (b : Bool) : bool? (bool b) = some b := rfl

theorem nullable?_ofNat? (n : Option UInt64) : nullable? word? (ofNat? n) = some n := by
  cases n with
  | none => rfl
  | some n =>
    show (word? (ofNat n.toNat)).map some = _
    rw [word?_ofNat, Option.map_some]

theorem legible_ofNat? (n : Option UInt64) : Legible (ofNat? n) := by
  cases n with
  | none => exact .null
  | some n => exact legible_ofNat n.toNat

end Json

theorem SpaceId.ofJson?_toJson (id : SpaceId) : ofJson? id.toJson = some id :=
  Json.named?_ofText (by cases id <;> rfl)

theorem Op.ofJson?_toJson (op : Op) : ofJson? op.toJson = some op :=
  Json.named?_ofText (by cases op <;> rfl)

namespace Threading

/-- What a document may say of threading. -/
structure Partial where
  parallel : Option Bool
  rowsPerTask : Option UInt64
  threads : Option (Option UInt64)
  deriving DecidableEq, Repr

namespace Partial

def members (p : Partial) : List (String × Json) :=
  given "parallel" (p.parallel.map .bool) ++
    given "rows_per_task" (p.rowsPerTask.map fun n => .ofNat n.toNat) ++
    given "threads" (p.threads.map .ofNat?)

/-- The values that are given, and those of `t` in place of the others. -/
def onto (p : Partial) (t : Threading) : Threading :=
  ⟨p.parallel.getD t.parallel, p.rowsPerTask.getD t.rowsPerTask, p.threads.getD t.threads⟩

theorem keys_members (p : Partial) :
    (p.members.map Prod.fst).Sublist ["parallel", "rows_per_task", "threads"] := by
  simp only [members, List.map_append]
  exact ((keys_given_sublist _ _).append (keys_given_sublist _ _)).append (keys_given_sublist _ _)

theorem legible_members (p : Partial) : ∀ m ∈ p.members, m.2.Legible := by
  intro m hm
  simp only [members, List.mem_append, mem_given, Option.map_eq_some_iff] at hm
  obtain (⟨-, b, -, hb⟩ | ⟨-, n, -, hn⟩) | ⟨-, n, -, hn⟩ := hm
  · exact hb ▸ .bool b
  · exact hn ▸ Json.legible_ofNat n.toNat
  · exact hn ▸ Json.legible_ofNat? n

/-- The order of the members does not matter. -/
theorem ofJson?_ofMembers {p : Partial} {ms : List (String × Json)} (h : ms.Perm p.members) :
    ofJson? (.ofMembers ms) = some (p.onto default) := by
  have hnames : ["parallel", "rows_per_task", "threads"].Nodup := by decide
  have hnodup := hnames.sublist p.keys_members
  rw [ofJson?, Json.fields?_ofMembers _ _ _ (.of_perm (h.map _) p.keys_members hnames)]
  simp [lookup_perm h hnodup, members, List.lookup_append, onto,
    Json.orElse_map Json.bool?_bool, Json.orElse_map Json.word?_ofNat,
    Json.orElse_map Json.nullable?_ofNat?]

end Partial

theorem check_eq_ok_iff {t : Threading} :
    t.check = .ok () ↔ t.rowsPerTask ≠ 0 ∧ t.threads ≠ some 0 := by
  rw [check]
  split
  · simp_all
  · split <;> simp_all

theorem kind_of_check {t : Threading} {e : Error} (h : t.check = .error e) :
    e.kind = .validation := by
  rw [check] at h
  split at h
  · cases h
    rfl
  · split at h <;> cases h
    rfl

end Threading

namespace Settings

/-! ### Settings given in part -/

/-- What a document may say of settings. -/
structure Partial where
  space : Option SpaceId
  op : Option Op
  threading : Option Threading.Partial
  deriving DecidableEq, Repr

def fieldNames : List String := ["color_space", "composite_op", "display"]

namespace Partial

/-- The members of the settings, with a document in the place of the threading. -/
def members (p : Partial) (threading : Json) : List (String × Json) :=
  given "color_space" (p.space.map SpaceId.toJson) ++
    given "composite_op" (p.op.map Op.toJson) ++
    given "display" (p.threading.map fun _ => threading)

/-- The values that are given, and those of `s` in place of the others. -/
def onto (p : Partial) (s : Settings) : Settings :=
  ⟨p.space.getD s.space, p.op.getD s.op, p.threading.elim s.threading (·.onto s.threading)⟩

/-- The members that a partial one gives, in some order, and with the members of its threading
in some order. -/
structure Written (p : Partial) (outer inner : List (String × Json)) : Prop where
  threading : ∀ t ∈ p.threading, inner.Perm t.members
  settings : outer.Perm (p.members (.ofMembers inner))

/-- Tasks without rows or no threads are asked for. -/
def AsksForNothing (p : Partial) : Prop :=
  ∃ t ∈ p.threading, t.rowsPerTask = some 0 ∨ t.threads = some (some 0)

variable {p : Partial} {outer inner : List (String × Json)}

theorem keys_members (p : Partial) (threading : Json) :
    ((p.members threading).map Prod.fst).Sublist fieldNames := by
  simp only [members, List.map_append]
  exact ((keys_given_sublist _ _).append (keys_given_sublist _ _)).append (keys_given_sublist _ _)

theorem Written.legible (h : p.Written outer inner) : ∀ m ∈ outer, m.2.Legible := by
  intro m hm
  have hm := h.settings.subset hm
  simp only [members, List.mem_append, mem_given, Option.map_eq_some_iff] at hm
  obtain (⟨-, id, -, hid⟩ | ⟨-, op, -, hop⟩) | ⟨-, t, ht, hj⟩ := hm
  · exact hid ▸ Json.legible_ofText id.name
  · exact hop ▸ Json.legible_ofText op.name
  · exact hj ▸ Json.legible_ofMembers fun n hn =>
      t.legible_members n ((h.threading t ht).subset hn)

theorem Written.ofJson? (h : p.Written outer inner) :
    Settings.ofJson? (.ofMembers outer) = some (p.onto default) := by
  have hnames : fieldNames.Nodup := by decide
  have hnodup := hnames.sublist (p.keys_members (.ofMembers inner))
  have hthreading : Json.orElse default.threading Threading.ofJson?
      (p.threading.map fun _ => .ofMembers inner) = some (p.onto default).threading := by
    cases ht : p.threading with
    | none => simp [Json.orElse, onto, ht]
    | some t =>
      have hread := Threading.Partial.ofJson?_ofMembers (h.threading t ht)
      simp [Json.orElse, onto, ht, hread, default]
  have hfields := Json.fields?_ofMembers true fieldNames outer
    (.of_perm (h.settings.map _) (p.keys_members _) hnames)
  rw [fieldNames] at hfields
  rw [Settings.ofJson?, hfields]
  simp [lookup_perm h.settings hnodup, members, List.lookup_append, onto,
    Json.orElse_map SpaceId.ofJson?_toJson, Json.orElse_map Op.ofJson?_toJson, hthreading]

/-- The defaults have rows and ask for no number of threads, so it is up to what is given. -/
theorem check_onto_default :
    (p.onto default).check = .ok () ↔ ¬p.AsksForNothing := by
  rw [Settings.check, Threading.check_eq_ok_iff]
  obtain ⟨space, op, _ | ⟨parallel, rows, threads⟩⟩ := p
  · simp [onto, AsksForNothing, default, Threading.default]
  · cases rows <;> cases threads <;>
      simp [onto, Threading.Partial.onto, AsksForNothing, default, Threading.default]

end Partial

/-! ### Texts -/

theorem check_of_ofText {text : String} {settings : Settings}
    (h : ofText text = .ok settings) : settings.check = .ok () := by
  rw [ofText] at h
  split at h
  · cases h
  · split at h
    · next hcheck =>
      cases h
      exact hcheck
    · cases h

theorem ofText_of_read {cs : List Char} {j : Json} {s : Settings} (hread : Json.read? cs = some j)
    (hj : ofJson? j = some s) : ofText (String.ofList cs) = s.check.map fun _ => s := by
  rw [ofText, String.toList_ofList, hread, Option.bind_some, hj]
  dsimp only
  cases s.check <;> rfl

/-- A document with settings in it is accepted if their check passes. -/
theorem ofText_eq_ok {cs : List Char} {j : Json} {s : Settings} (hread : Json.read? cs = some j)
    (hj : ofJson? j = some s) (hcheck : s.check = .ok ()) : ofText (String.ofList cs) = .ok s := by
  rw [ofText_of_read hread hj, hcheck]
  rfl

theorem ofText_refused {cs : List Char} {j : Json} {s : Settings} (hread : Json.read? cs = some j)
    (hj : ofJson? j = some s) (hcheck : s.check ≠ .ok ()) :
    ∃ e, ofText (String.ofList cs) = .error e ∧ e.kind = .validation := by
  rw [ofText_of_read hread hj]
  cases h : s.check with
  | ok _ => exact absurd h hcheck
  | error e => exact ⟨e, rfl, Threading.kind_of_check h⟩

theorem ofText_malformed {cs : List Char} {j : Json} (hread : Json.read? cs = some j)
    (hj : ofJson? j = none) : ofText (String.ofList cs) = .error .malformedSettings := by
  rw [ofText, String.toList_ofList, hread, Option.bind_some, hj]

theorem ofJson?_ofMembers_eq_none {members : List (String × Json)}
    (h : ¬Json.FieldKeys true fieldNames (members.map Prod.fst)) :
    ofJson? (.ofMembers members) = none := by
  have hfields := Json.fields?_ofMembers_eq_none true fieldNames members h
  rw [fieldNames] at hfields
  rw [ofJson?, hfields]

/-- The settings with nothing left out. -/
def full (s : Settings) : Partial :=
  ⟨some s.space, some s.op,
    some ⟨some s.threading.parallel, some s.threading.rowsPerTask, some s.threading.threads⟩⟩

theorem full_written (s : Settings) : s.full.Written
    [("color_space", s.space.toJson), ("composite_op", s.op.toJson),
      ("display", s.threading.toJson)]
    [("parallel", .bool s.threading.parallel),
      ("rows_per_task", .ofNat s.threading.rowsPerTask.toNat),
      ("threads", .ofNat? s.threading.threads)] where
  threading t ht := by
    obtain rfl := Option.mem_some.mp ht
    exact .refl _
  settings := .refl _

theorem read?_text (s : Settings) : Json.read? s.toJson.pretty = some s.toJson :=
  (Json.legible_ofMembers s.full_written.legible).read?_pretty

theorem ofJson?_toJson (s : Settings) : ofJson? s.toJson = some s :=
  s.full_written.ofJson?

/-- **Printed settings are read again.** Whatever settings are printed, they are read back if
they can be worked with and refused if not, and all settings that are ever read can be. -/
theorem printed_read_back :
    (∀ s : Settings,
      (s.threading.rowsPerTask ≠ 0 ∧ s.threading.threads ≠ some 0 → ofText s.text = .ok s) ∧
      (s.threading.rowsPerTask = 0 ∨ s.threading.threads = some 0 →
        ∃ e, ofText s.text = .error e ∧ e.kind = .validation)) ∧
    ∀ text s, ofText text = .ok s → s.check = .ok () ∧ ofText s.text = .ok s := by
  have haccepted (s : Settings) (h : s.check = .ok ()) : ofText s.text = .ok s :=
    ofText_eq_ok s.read?_text s.ofJson?_toJson h
  refine ⟨fun s => ⟨fun h => haccepted s (Threading.check_eq_ok_iff.mpr h), fun h => ?_⟩,
    fun text s h => ⟨check_of_ofText h, haccepted s (check_of_ofText h)⟩⟩
  refine ofText_refused s.read?_text s.ofJson?_toJson fun hcheck => ?_
  obtain ⟨hrows, hthreads⟩ := Threading.check_eq_ok_iff.mp hcheck
  exact h.elim hrows hthreads

/-- A text with an escaped name and the greatest number of rows, and settings without threads. -/
theorem printed_read_back_screen :
    let text := "\x7b\"display\": \x7b\"threads\": 3, \"rows_per_task\": 18446744073709551615" ++
      "\x7d,\n \"composite_op\": \"scr\\u0065en\"\x7d"
    let s : Settings := ⟨.rgba16, .screen, ⟨false, 18446744073709551615, some 3⟩⟩
    let idle : Settings := ⟨.rgba8, .over, ⟨true, 1, some 0⟩⟩
    ofText text = .ok s ∧ s.check = .ok () ∧ ofText s.text = .ok s ∧
      ∃ e, ofText idle.text = .error e ∧ e.kind = .validation := by
  intro text s idle
  have hread : ofText text = .ok s := by decide +kernel
  have hcheck := (printed_read_back.2 text s hread).1
  exact ⟨hread, hcheck, (printed_read_back.1 s).1 ⟨by decide, by decide⟩,
    (printed_read_back.1 idle).2 (.inr rfl)⟩

/-- The text of an object on one line. -/
def lineOf (members : List (String × Json)) : String :=
  String.ofList (Json.ofMembers members).compact

/-- **Settings given in part.** The members of the settings and those of their threading may
come in any order, and each may be left out: what is read are the defaults with the given
values in place, refused only if these ask for tasks without rows or for no threads. A member
of another name and a name that comes twice are not accepted, whatever else is given. -/
theorem partial_overrides :
    (∀ p outer inner, Partial.Written p outer inner →
      (¬p.AsksForNothing → ofText (lineOf outer) = .ok (p.onto default)) ∧
      (p.AsksForNothing → ∃ e, ofText (lineOf outer) = .error e ∧ e.kind = .validation)) ∧
    ∀ members : List (String × Json), (∀ m ∈ members, m.2.Legible) →
      (∃ m ∈ members, m.1 ∉ fieldNames) ∨
        (∃ name ∈ fieldNames, 2 ≤ (members.map Prod.fst).count name) →
      ∃ e, ofText (lineOf members) = .error e ∧ e.kind = .serialization := by
  constructor
  · intro p outer inner h
    have hread := (Json.legible_ofMembers h.legible).read?_compact
    exact ⟨fun hp => ofText_eq_ok hread h.ofJson? (Partial.check_onto_default.mpr hp),
      fun hp => ofText_refused hread h.ofJson? fun hcheck =>
        Partial.check_onto_default.mp hcheck hp⟩
  · intro members hlegible hkeys
    have hbad : ¬Json.FieldKeys true fieldNames (members.map Prod.fst) := by
      intro hgood
      rcases hkeys with ⟨m, hm, hunknown⟩ | ⟨name, hname, htwice⟩
      · exact hunknown (hgood.known rfl m.1 (List.mem_map_of_mem hm))
      · exact absurd (hgood.once name hname) (by omega)
    have hread := (Json.legible_ofMembers hlegible).read?_compact
    exact ⟨.malformedSettings, ofText_malformed hread (ofJson?_ofMembers_eq_none hbad), rfl⟩

/-- Members in reverse order, no threads, a member of another name, and a member given twice. -/
theorem partial_overrides_erase :
    let erase := "\x7b\"display\":\x7b\"threads\":null,\"rows_per_task\":7\x7d," ++
      "\"composite_op\":\"erase\"\x7d"
    let idle := "\x7b\"display\":\x7b\"threads\":0\x7d\x7d"
    let unknown := "\x7b\"gamma\":[2.2e5],\"display\":null\x7d"
    let twice := "\x7b\"display\":1,\"color_space\":true,\"display\":1\x7d"
    ofText erase = .ok ⟨.rgba16, .erase, ⟨false, 7, none⟩⟩ ∧
      (∃ e, ofText idle = .error e ∧ e.kind = .validation) ∧
      (∃ e, ofText unknown = .error e ∧ e.kind = .serialization) ∧
      ∃ e, ofText twice = .error e ∧ e.kind = .serialization := by
  have herase := (partial_overrides.1 ⟨none, some .erase, some ⟨none, some 7, some none⟩⟩
    [("display", .ofMembers [("threads", .null), ("rows_per_task", .ofNat 7)]),
      ("composite_op", .ofText "erase")] [("threads", .null), ("rows_per_task", .ofNat 7)]
    ⟨fun t ht => Option.mem_some.mp ht ▸ .swap _ _ _, .swap _ _ _⟩).1
    (by simp [Partial.AsksForNothing])
  have hidle := (partial_overrides.1 ⟨none, none, some ⟨none, none, some (some 0)⟩⟩
    [("display", .ofMembers [("threads", .ofNat 0)])] [("threads", .ofNat 0)]
    ⟨fun t ht => Option.mem_some.mp ht ▸ .refl _, .refl _⟩).2 ⟨_, rfl, .inr rfl⟩
  have hnumber : Json.Legible (.array [.number "2.2e5".toList]) :=
    .array (by simpa using .number (by decide))
  have hunknown := partial_overrides.2
    [("gamma", .array [.number "2.2e5".toList]), ("display", .null)]
    (by simpa [Json.Legible.null] using hnumber) (.inl ⟨_, .head _, by decide⟩)
  have htwice := partial_overrides.2
    [("display", .ofNat 1), ("color_space", .bool true), ("display", .ofNat 1)]
    (by simp [Json.legible_ofNat, Json.Legible.bool]) (.inr ⟨"display", by decide, by decide⟩)
  exact ⟨herase, hidle, hunknown, htwice⟩

end Settings

end PixelRecord
