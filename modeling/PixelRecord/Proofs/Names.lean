import Mathlib.Data.List.DropRight
import Mathlib.Data.List.Perm.Basic
import PixelRecord.Failure

/-!
Names in texts, and values by name.

A text says a name if there is nothing around the name but white space; the case of its
letters does not matter. A text can be cut into white space, a core and white space in one
way only if the core has no white space in it, and then trimming finds that core. Letter case
does not change what is white space, so the core is without it as soon as the name is.

Where no name comes twice, the value under a name is the one that stands with
it, so the order of the values does not matter. Lists of values some of which may be left out
are built from `given`.
-/

namespace PixelRecord

namespace Text

def Blank (cs : List Char) : Prop := ∀ c ∈ cs, isBlank c = true

instance (cs : List Char) : Decidable (Blank cs) :=
  List.decidableBAll (fun c => isBlank c = true) cs

/-- The text has the name in it, in some letter case, and white space before and after. -/
def Says (text name : String) : Prop :=
  ∃ before core after, text.toList = before ++ core ++ after ∧ Blank before ∧ Blank after ∧
    core.map Char.toLower = name.toList.map Char.toLower

/-- A name without white space. -/
def Plain (name : String) : Prop := ∀ c ∈ name.toList, isBlank c.toLower = false

instance (name : String) : Decidable (Plain name) :=
  List.decidableBAll (fun c : Char => isBlank c.toLower = false) name.toList

/-! ### Trimming -/

variable {before core after cs : List Char}

theorem exists_trim (cs : List Char) :
    ∃ before after, cs = before ++ trim cs ++ after ∧ Blank before ∧ Blank after := by
  refine ⟨cs.takeWhile isBlank, (cs.dropWhile isBlank).rtakeWhile isBlank, ?_,
    fun c => List.mem_takeWhile_imp, fun c => List.mem_rtakeWhile_imp⟩
  have htrim : trim cs = (cs.dropWhile isBlank).rdropWhile isBlank := rfl
  rw [htrim, List.append_assoc, List.rdropWhile_append_rtakeWhile, List.takeWhile_append_dropWhile]

theorem dropWhile_isBlank (h : ∀ c ∈ cs, isBlank c = false) : cs.dropWhile isBlank = cs := by
  cases cs with
  | nil => rfl
  | cons c rest => exact List.dropWhile_cons_of_neg (by simp [h c])

theorem trim_append (hbefore : Blank before) (hafter : Blank after)
    (hcore : ∀ c ∈ core, isBlank c = false) : trim (before ++ core ++ after) = core := by
  have hend : (core ++ after).rdropWhile isBlank = core := by
    rw [List.rdropWhile, List.reverse_append,
      List.dropWhile_append_of_pos fun c hc => hafter c (List.mem_reverse.mp hc),
      dropWhile_isBlank fun c hc => hcore c (List.mem_reverse.mp hc), List.reverse_reverse]
  have htrim : trim (before ++ core ++ after) =
      ((core ++ after).dropWhile isBlank).rdropWhile isBlank := by
    rw [List.append_assoc, trim, List.dropWhile_append_of_pos hbefore]
    rfl
  rw [htrim]
  cases core with
  | nil =>
      have hnothing : after.dropWhile isBlank = [] := List.dropWhile_eq_nil_iff.mpr hafter
      rw [List.nil_append, hnothing, List.rdropWhile_nil]
  | cons c rest =>
      rw [List.cons_append, List.dropWhile_cons_of_neg (by simp [hcore c]), ← List.cons_append,
        hend]

/-! ### Names -/

/-- White space has no case. -/
theorem toLower_of_isBlank {c : Char} (h : isBlank c = true) : c.toLower = c := by
  simp only [isBlank, blankRanges, List.any_cons, List.any_nil, Bool.or_false, Bool.or_eq_true,
    Bool.and_eq_true, decide_eq_true_eq] at h
  have hcapital : ¬ (c.val ≥ 'A'.val ∧ c.val ≤ 'Z'.val) := by
    rintro ⟨hlow, hhigh⟩
    have hlow' : 65 ≤ c.toNat := UInt32.le_iff_toNat_le.mp hlow
    have hhigh' : c.toNat ≤ 90 := UInt32.le_iff_toNat_le.mp hhigh
    omega
  exact dif_neg hcapital

theorem sameIgnoringCase_iff {a b : List Char} :
    sameIgnoringCase a b = true ↔ a.map Char.toLower = b.map Char.toLower := beq_iff_eq

theorem says_iff {text name : String} (hname : Plain name) :
    Says text name ↔ sameIgnoringCase name.toList (trim text.toList) = true := by
  rw [sameIgnoringCase_iff]
  constructor
  · rintro ⟨before, core, after, htext, hbefore, hafter, hcore⟩
    have hinner : ∀ c ∈ core, isBlank c = false := by
      intro c hc
      have hlower : c.toLower ∈ name.toList.map Char.toLower := hcore ▸ List.mem_map_of_mem hc
      obtain ⟨d, hd, hsame⟩ := List.mem_map.mp hlower
      by_contra hblank
      have hplain := hname d hd
      rw [hsame, toLower_of_isBlank (by simpa using hblank)] at hplain
      exact hblank hplain
    rw [htext, trim_append hbefore hafter hinner, hcore]
  · intro hsame
    obtain ⟨before, after, htext, hbefore, hafter⟩ := exists_trim text.toList
    exact ⟨before, _, after, htext, hbefore, hafter, hsame.symm⟩

section ByName

variable {α : Type} {all : List α} {name : α → String} {text : String} {a : α}

theorem byName_eq_ok (hplain : ∀ a ∈ all, Plain (name a)) (h : byName all name text = .ok a) :
    a ∈ all ∧ Says text (name a) := by
  rw [byName] at h
  split at h
  · next b hfind =>
    obtain rfl := Except.ok.inj h
    have hmem := List.mem_of_find?_eq_some hfind
    have hsame := List.find?_some hfind
    exact ⟨hmem, (says_iff (hplain b hmem)).mpr hsame⟩
  · cases h

theorem byName_eq_error (hplain : ∀ a ∈ all, Plain (name a))
    (h : ∀ a ∈ all, ¬ Says text (name a)) :
    byName all name text = .error (String.ofList (trim text.toList)) := by
  have hnone : (all.find? fun a => sameIgnoringCase (name a).toList (trim text.toList)) = none :=
    List.find?_eq_none.mpr fun a ha hsame => h a ha ((says_iff (hplain a ha)).mpr hsame)
  simp only [byName, hnone]

/-- No two names are alike but for their case, and a text is read as the one value whose
name it says. -/
theorem byName_eq_ok_iff (hplain : ∀ a ∈ all, Plain (name a))
    (hapart : ∀ a ∈ all, ∀ b ∈ all,
      sameIgnoringCase (name a).toList (name b).toList = true → a = b) :
    byName all name text = .ok a ↔ a ∈ all ∧ Says text (name a) := by
  refine ⟨byName_eq_ok hplain, fun ⟨ha, hsays⟩ => ?_⟩
  have hsame := sameIgnoringCase_iff.mp ((says_iff (hplain a ha)).mp hsays)
  cases hread : byName all name text with
  | ok b =>
      obtain ⟨hb, hsays'⟩ := byName_eq_ok hplain hread
      have hsame' := sameIgnoringCase_iff.mp ((says_iff (hplain b hb)).mp hsays')
      rw [hapart b hb a ha (sameIgnoringCase_iff.mpr (hsame'.trans hsame.symm))]
  | error e =>
      rw [byName] at hread
      split at hread
      · cases hread
      · next hnone =>
        exact absurd (sameIgnoringCase_iff.mpr hsame) (List.find?_eq_none.mp hnone a ha)

end ByName

end Text

/-! ### Values by name -/

section Lookup

variable {β : Type} {values values' : List (String × β)} {name : String} {b : β}

theorem lookup_eq_some_iff_mem (h : (values.map Prod.fst).Nodup) :
    values.lookup name = some b ↔ (name, b) ∈ values := by
  induction values with
  | nil => simp
  | cons first rest ih =>
      obtain ⟨key, value⟩ := first
      obtain ⟨hnew, hrest⟩ := List.nodup_cons.mp h
      by_cases hkey : name = key
      · subst hkey
        have habsent : (name, b) ∉ rest := fun hmem =>
          hnew (List.mem_map.mpr ⟨_, hmem, rfl⟩)
        simp [habsent, eq_comm]
      · rw [List.lookup_cons, beq_false_of_ne hkey, ih hrest]
        simp [hkey]

/-- The order of values with different names does not matter. -/
theorem lookup_perm (hperm : values'.Perm values) (h : (values.map Prod.fst).Nodup) :
    values'.lookup name = values.lookup name := by
  ext b
  rw [lookup_eq_some_iff_mem h, lookup_eq_some_iff_mem ((hperm.map _).nodup_iff.mpr h),
    hperm.mem_iff]

/-- The value under a name, if there is one. -/
def given (name : String) (value : Option β) : List (String × β) := value.toList.map (name, ·)

@[simp] theorem lookup_given (name : String) (value : Option β) :
    (given name value).lookup name = value := by
  cases value <;> simp [given]

@[simp] theorem lookup_given_of_ne {key : String} (h : name ≠ key) (value : Option β) :
    (given key value).lookup name = none := by
  cases value <;> simp [given, List.lookup_cons, beq_false_of_ne h]

theorem keys_given_sublist (name : String) (value : Option β) :
    ((given name value).map Prod.fst).Sublist [name] := by
  cases value <;> simp [given]

theorem mem_given {name : String} {value : Option β} {m : String × β} :
    m ∈ given name value ↔ m.1 = name ∧ value = some m.2 := by
  obtain ⟨key, b⟩ := m
  cases value <;> simp [given, eq_comm]

end Lookup

end PixelRecord
