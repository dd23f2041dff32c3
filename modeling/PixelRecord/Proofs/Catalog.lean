import Mathlib.Data.List.Nodup
import Mathlib.Data.List.Sort
import PixelRecord.Space
import PixelRecord.Proofs.Names

/-!
The first space that is registered under an id is the one that the catalog has.

A catalog tells from its history only which space came first under each id. Every call
keeps that: a registration adds a space to the history, and it is either the first one
under its id, and then it goes into the catalog, or it is not, and then neither the
catalog nor what the history tells has changed. So after any calls the catalog answers as
its history says, and what was answered for an id once is answered ever after.
-/

namespace PixelRecord

namespace SpaceId

theorem mem_all (id : SpaceId) : id ∈ all := by
  cases id <;> decide

theorem plain_name : ∀ id ∈ all, Text.Plain id.name := by decide

theorem ofText_eq_ok_iff {text : String} {id : SpaceId} :
    ofText text = .ok id ↔ Text.Says text id.name := by
  have hread : ofText text = .ok id ↔ Text.byName all name text = .ok id := by
    rw [ofText]
    cases Text.byName all name text <;> simp [Except.mapError]
  rw [hread, Text.byName_eq_ok_iff plain_name (by decide)]
  exact and_iff_right id.mem_all

theorem ofText_eq_error {text : String} (h : ∀ id : SpaceId, ¬ Text.Says text id.name) :
    ofText text = .error (.unknownSpace (String.ofList (Text.trim text.toList))) := by
  rw [ofText, Text.byName_eq_error plain_name fun id _ => h id]
  rfl

end SpaceId

namespace Catalog

variable {c : Catalog} {s t : Space} {id : SpaceId} {history : List Space}

/-! ### Order -/

def Ordered (c : Catalog) : Prop := c.spaces.Pairwise fun a b => a.id.rank < b.id.rank

theorem Ordered.nodup_ids (h : c.Ordered) : c.ids.Nodup := by
  refine List.pairwise_map.mpr (h.imp fun hlt heq => ?_)
  rw [heq] at hlt
  exact lt_irrefl _ hlt

theorem mem_of_find? (h : c.find? id = some s) : s ∈ c.spaces ∧ s.id = id := by
  have hid := List.find?_some h
  exact ⟨List.mem_of_find?_eq_some h, of_decide_eq_true hid⟩

theorem find?_eq_none_iff : c.find? id = none ↔ ∀ s ∈ c.spaces, s.id ≠ id := by
  simp [find?]

/-- Where no id comes twice, a space is found as soon as it is there. -/
theorem Ordered.find?_eq_some_iff (h : c.Ordered) :
    c.find? id = some s ↔ s ∈ c.spaces ∧ s.id = id := by
  refine ⟨mem_of_find?, fun ⟨hs, hid⟩ => ?_⟩
  cases hfind : c.find? id with
  | none => exact absurd hid (find?_eq_none_iff.mp hfind s hs)
  | some t =>
      obtain ⟨ht, hid'⟩ := mem_of_find? hfind
      rw [List.inj_on_of_nodup_map h.nodup_ids ht hs (hid'.trans hid.symm)]

/-! ### Insertion -/

theorem insertOrdered_eq (s : Space) (spaces : List Space) :
    insertOrdered s spaces = spaces.orderedInsert (fun a b => a.id.rank ≤ b.id.rank) s := by
  induction spaces with
  | nil => rfl
  | cons t rest ih => rw [insertOrdered, List.orderedInsert_cons, ih]

theorem mem_insertOrdered {spaces : List Space} :
    t ∈ insertOrdered s spaces ↔ t = s ∨ t ∈ spaces := by
  rw [insertOrdered_eq, List.mem_orderedInsert]

theorem Ordered.insert (h : c.Ordered) (hnew : c.find? s.id = none) :
    Ordered ⟨insertOrdered s c.spaces⟩ := by
  have htotal : Std.Total fun a b : Space => a.id.rank ≤ b.id.rank :=
    ⟨fun a b => le_total a.id.rank b.id.rank⟩
  have htrans : IsTrans Space fun a b => a.id.rank ≤ b.id.rank := ⟨fun _ _ _ => le_trans⟩
  have hranks : (insertOrdered s c.spaces).Pairwise fun a b => a.id.rank ≤ b.id.rank := by
    rw [insertOrdered_eq]
    exact (h.imp le_of_lt).orderedInsert s
  have hids : (insertOrdered s c.spaces).Pairwise fun a b => a.id ≠ b.id := by
    have hperm : (insertOrdered s c.spaces).Perm (s :: c.spaces) := by
      rw [insertOrdered_eq]
      exact List.perm_orderedInsert ..
    refine (hperm.pairwise_iff fun hne => hne.symm).mpr (List.pairwise_cons.mpr ⟨?_, ?_⟩)
    · exact fun t ht => (find?_eq_none_iff.mp hnew t ht).symm
    · exact List.pairwise_map.mp h.nodup_ids
  exact (hranks.and hids).imp fun ⟨hle, hne⟩ =>
    lt_of_le_of_ne hle fun hrank => hne (SpaceId.rank_injective hrank)

/-- A space that is new is found under its id, and the others as before. -/
theorem Ordered.find?_insert (h : c.Ordered) (hnew : c.find? s.id = none) (id : SpaceId) :
    find? ⟨insertOrdered s c.spaces⟩ id = if s.id = id then some s else c.find? id := by
  ext t
  rw [(h.insert hnew).find?_eq_some_iff, mem_insertOrdered]
  split
  · next hid =>
    subst hid
    have habsent := find?_eq_none_iff.mp hnew
    constructor
    · rintro ⟨rfl | ht, hid⟩
      · rfl
      · exact absurd hid (habsent t ht)
    · rintro ⟨⟩
      exact ⟨.inl rfl, rfl⟩
  · next hid =>
    rw [h.find?_eq_some_iff]
    constructor
    · rintro ⟨rfl | ht, hid'⟩
      · exact absurd hid' hid
      · exact ⟨ht, hid'⟩
    · exact fun ⟨ht, hid'⟩ => ⟨.inr ht, hid'⟩

/-! ### Registration -/

theorem perform_register_new (hnew : c.find? s.id = none) :
    c.perform (.register s) = (.ok none, ⟨insertOrdered s c.spaces⟩) := by
  simp [perform, register, hnew]

theorem perform_register_taken (htaken : c.find? s.id = some t) :
    c.perform (.register s) = (.error (.spaceTaken s.id.name), c) := by
  simp [perform, register, htaken]

/-! ### History -/

/-- The spaces that a call asks to have registered. -/
def Call.offered : Call → List Space
  | .register s => [s]
  | .get _ | .getByName _ => []

def offered (calls : List Call) : List Space := calls.flatMap Call.offered

/-- The space that came first under an id. -/
def first (history : List Space) (id : SpaceId) : Option Space := history.find? fun s => s.id = id

theorem first_append (history : List Space) (s : Space) (id : SpaceId) :
    first (history ++ [s]) id = (first history id).or (if s.id = id then some s else none) := by
  rw [first, List.find?_append, List.find?_singleton]
  simp [first]

/-- Of its history the catalog has, in order, what came first under each id. -/
structure Records (c : Catalog) (history : List Space) : Prop where
  ordered : c.Ordered
  find?_eq : ∀ id, c.find? id = first history id

/-- **The step.** Whatever the call, what was first stays first. -/
theorem Records.perform (h : c.Records history) (call : Call) :
    (c.perform call).2.Records (history ++ call.offered) := by
  cases call with
  | register s =>
      rw [Call.offered]
      cases hfind : c.find? s.id with
      | none =>
          rw [perform_register_new hfind]
          refine ⟨h.ordered.insert hfind, fun id => ?_⟩
          rw [h.ordered.find?_insert hfind, first_append, ← h.find?_eq]
          split
          · next hid => rw [← hid, hfind, Option.none_or]
          · rw [Option.or_none]
      | some t =>
          rw [perform_register_taken hfind]
          refine ⟨h.ordered, fun id => ?_⟩
          rw [first_append, ← h.find?_eq]
          split
          · next hid => rw [← hid, hfind, Option.some_or]
          · rw [Option.or_none]
  | get id | getByName text =>
      rw [Call.offered, List.append_nil]
      exact h

/-- **The run.** What was first before the calls stays first through all of them. -/
theorem Records.run (h : c.Records history) (calls : List Call) :
    (c.run calls).Records (history ++ offered calls) := by
  induction calls generalizing c history with
  | nil => rwa [offered, List.flatMap_nil, List.append_nil]
  | cons call rest ih =>
      rw [Catalog.run, offered, List.flatMap_cons, ← List.append_assoc]
      exact ih (h.perform call)

theorem records_empty : empty.Records [] := ⟨List.Pairwise.nil, fun _ => rfl⟩

theorem records_builtin : builtin.Records builtin.spaces :=
  ⟨by unfold Ordered; decide, fun _ => rfl⟩

/-! ### Answers -/

theorem answers_append (c : Catalog) (calls rest : List Call) :
    c.answers (calls ++ rest) = c.answers calls ++ (c.run calls).answers rest := by
  induction calls generalizing c with
  | nil => rfl
  | cons call calls ih => exact congrArg (_ :: ·) (ih (c.perform call).2)

theorem get_eq_ok_iff : c.get id = .ok s ↔ c.find? id = some s := by
  rw [get]
  cases c.find? id <;> simp

theorem get_eq_error (h : c.find? id = none) : c.get id = .error (.spaceMissing id.name) := by
  rw [get, h]

theorem mem_ids_iff : id ∈ c.ids ↔ ∃ s, c.find? id = some s := by
  rw [ids, List.mem_map, ← Option.ne_none_iff_exists', Ne, find?_eq_none_iff]
  simp

theorem getByName_eq (c : Catalog) {text : String} (h : SpaceId.ofText text = .ok id) :
    c.getByName text = c.get id := by
  rw [getByName, h]
  rfl

theorem getByName_eq_error (c : Catalog) {text : String} {e : Error}
    (h : SpaceId.ofText text = .error e) : c.getByName text = .error e := by
  rw [getByName, h]
  rfl

/-- A call that is refused is refused for what it was given. -/
theorem kind_of_perform {call : Call} {e : Error} (h : (c.perform call).1 = .error e) :
    e.kind = .validation := by
  have hget {id : SpaceId} (hid : (c.get id).map some = .error e) : e.kind = .validation := by
    cases hfind : c.find? id with
    | none =>
        rw [get_eq_error hfind] at hid
        cases hid
        rfl
    | some t =>
        rw [get_eq_ok_iff.mpr hfind] at hid
        cases hid
  cases call with
  | register s =>
      cases hfind : c.find? s.id with
      | none =>
          rw [perform_register_new hfind] at h
          cases h
      | some t =>
          rw [perform_register_taken hfind] at h
          cases h
          rfl
  | get id => exact hget h
  | getByName text =>
      rw [perform] at h
      by_cases hsays : ∃ id : SpaceId, Text.Says text id.name
      · obtain ⟨id, hid⟩ := hsays
        rw [getByName_eq c (SpaceId.ofText_eq_ok_iff.mpr hid)] at h
        exact hget h
      · rw [getByName_eq_error c (SpaceId.ofText_eq_error (not_exists.mp hsays))] at h
        cases h
        rfl

/-- What a catalog answers, told from its history. -/
structure Serves (c : Catalog) (history : List Space) : Prop where
  found : ∀ before s rest, history = before ++ s :: rest → (∀ t ∈ before, t.id ≠ s.id) →
    c.get s.id = .ok s
  missing : ∀ id, (∀ s ∈ history, s.id ≠ id) → c.get id = .error (.spaceMissing id.name)
  registered : ∀ s, s.id ∉ c.ids → (c.perform (.register s)).1 = .ok none
  refused : ∀ s, s.id ∈ c.ids →
    c.perform (.register s) = (.error (.spaceTaken s.id.name), c)
  named : ∀ text id, Text.Says text id.name → c.getByName text = c.get id
  unnamed : ∀ text, (∀ id : SpaceId, ¬ Text.Says text id.name) →
    c.getByName text = .error (.unknownSpace (String.ofList (Text.trim text.toList)))
  ascending : c.ids.Pairwise fun a b => a.rank < b.rank
  mem_ids : ∀ id, id ∈ c.ids ↔ ∃ s, c.get id = .ok s
  size : c.size = c.ids.length
  isEmpty : c.isEmpty = true ↔ c.size = 0
  validation : ∀ call e, (c.perform call).1 = .error e → e.kind = .validation

theorem Records.serves (h : c.Records history) : c.Serves history where
  found before s rest hhistory hbefore := by
    refine get_eq_ok_iff.mpr ?_
    rw [h.find?_eq, first, List.find?_eq_some_iff_append]
    exact ⟨decide_eq_true rfl, before, rest, hhistory, fun t ht => by simp [hbefore t ht]⟩
  missing id hid := by
    refine get_eq_error ?_
    rw [h.find?_eq, first, List.find?_eq_none]
    simpa using hid
  registered s hs := by
    rw [mem_ids_iff, ← Option.isSome_iff_exists, Option.not_isSome_iff_eq_none] at hs
    rw [perform_register_new hs]
  refused s hs := by
    obtain ⟨t, ht⟩ := mem_ids_iff.mp hs
    exact perform_register_taken ht
  named text id hid := getByName_eq c (SpaceId.ofText_eq_ok_iff.mpr hid)
  unnamed text htext := getByName_eq_error c (SpaceId.ofText_eq_error htext)
  ascending := List.pairwise_map.mpr h.ordered
  mem_ids id := by
    rw [mem_ids_iff]
    exact exists_congr fun s => get_eq_ok_iff.symm
  size := (List.length_map ..).symm
  isEmpty := by rw [isEmpty, size, List.isEmpty_iff, List.length_eq_zero_iff]
  validation call e := kind_of_perform

/-- **First come, first served.** After any calls the catalog answers as its history says,
that is, every id with the space that came first under it. Calls to come are answered
from the catalog as it is then, so a registration that is refused shows in no later answer. -/
theorem first_registration_wins {start : Catalog} (hstart : start = .empty ∨ start = .builtin)
    (calls : List Call) :
    (start.run calls).Serves (start.spaces ++ offered calls) ∧
      ∀ rest, start.answers (calls ++ rest) =
          start.answers calls ++ (start.run calls).answers rest ∧
        ∀ s, s.id ∈ (start.run calls).ids →
          start.answers (calls ++ .register s :: rest) =
            start.answers calls ++
              .error (.spaceTaken s.id.name) :: (start.run calls).answers rest := by
  have hrecords : start.Records start.spaces := by
    rcases hstart with rfl | rfl
    · exact records_empty
    · exact records_builtin
  have hserves := (hrecords.run calls).serves
  refine ⟨hserves, fun rest => ⟨answers_append start calls rest, fun s hs => ?_⟩⟩
  rw [answers_append, answers, hserves.refused s hs]

/-- A space of the other depth came before the built-in one, and stays. -/
theorem first_registration_wins_other_depth :
    (empty.run [.register ⟨⟨.eight, .bgra .eight⟩, .rgba16⟩, .get .rgba8]).getByName " rgbA16\t" =
        .ok ⟨⟨.eight, .bgra .eight⟩, .rgba16⟩ ∧
      (empty.run [.register ⟨⟨.eight, .bgra .eight⟩, .rgba16⟩, .get .rgba8]).get .rgba8 =
        .error (.spaceMissing "RGBA") ∧
      empty.answers [.register ⟨⟨.eight, .bgra .eight⟩, .rgba16⟩, .get .rgba8,
          .register (Space.builtin .rgba16), .get .rgba16] =
        [.ok none, .error (.spaceMissing "RGBA"), .error (.spaceTaken "RGBA16"),
          .ok (some ⟨⟨.eight, .bgra .eight⟩, .rgba16⟩)] := by
  obtain ⟨hserves, hrest⟩ := first_registration_wins (.inl rfl)
    [.register ⟨⟨.eight, .bgra .eight⟩, .rgba16⟩, .get .rgba8]
  have hsixteen := hserves.found [] ⟨⟨.eight, .bgra .eight⟩, .rgba16⟩ [] rfl fun t ht => by cases ht
  have hsays : Text.Says " rgbA16\t" SpaceId.rgba16.name :=
    ⟨[' '], "rgbA16".toList, ['\t'], rfl, by decide, by decide, rfl⟩
  have htaken := (hrest [.get .rgba16]).2 (Space.builtin .rgba16)
    ((hserves.mem_ids .rgba16).mpr ⟨_, hsixteen⟩)
  refine ⟨(hserves.named _ .rgba16 hsays).trans hsixteen, hserves.missing .rgba8 ?_,
    htaken.trans ?_⟩
  · decide
  · decide

end Catalog

end PixelRecord
