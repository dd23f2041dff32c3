import PixelRecord.Proofs.Json.Reader

/-!
Printed documents are read again.

`Reads j cs` says that the text `cs` of the document `j` is read back wherever it stands, given
as much fuel as it has characters. There is a rule for each kind of document and one for white
space in front of it, and the texts of items and of members have a judgment of their own. Both
printers follow the rules on every `Legible` document: one whose numbers and strings are as the
grammar has them.
-/

namespace PixelRecord.Json

/-! ### Documents that texts hold -/

/-- What stands between the quotes of a string. -/
def IsLiteral (l : List Char) : Prop := literal (l ++ ['"']) = some (l, [])

def IsNumber (text : List Char) : Prop := numberText text = some (text, [])

instance (l : List Char) : Decidable (IsLiteral l) := inferInstanceAs (Decidable (_ = _))

instance (text : List Char) : Decidable (IsNumber text) := inferInstanceAs (Decidable (_ = _))

/-- A document whose numbers and strings are as the grammar has them. -/
inductive Legible : Json → Prop
  | null : Legible null
  | bool (b : Bool) : Legible (bool b)
  | number {text : List Char} : IsNumber text → Legible (number text)
  | string {l : List Char} : IsLiteral l → Legible (string l)
  | array {items : List Json} : (∀ j ∈ items, Legible j) → Legible (array items)
  | object {members : List (List Char × Json)} : (∀ m ∈ members, IsLiteral m.1) →
      (∀ m ∈ members, Legible m.2) → Legible (object members)

theorem IsLiteral.literal_quote {l : List Char} (h : IsLiteral l) (rest : List Char) :
    literal (l ++ '"' :: rest) = some (l, rest) := by
  simpa using literal_append h rest

theorem IsNumber.numberText_append {text rest : List Char} (h : IsNumber text)
    (hrest : EndsNumber rest) : numberText (text ++ rest) = some (text, rest) :=
  extends_numberText h rest fun _ => hrest

/-! ### Reading past white space -/

theorem value_skipBlank (fuel : Nat) (cs : List Char) :
    value fuel (skipBlank cs) = value fuel cs := by
  cases fuel with
  | zero => rfl
  | succ fuel => rw [value, value, skipBlank_skipBlank]

theorem items_skipBlank (fuel : Nat) (cs : List Char) :
    items fuel (skipBlank cs) = items fuel cs := by
  cases fuel with
  | zero => rfl
  | succ fuel => rw [items, items, value_skipBlank]

theorem members_skipBlank (fuel : Nat) (cs : List Char) :
    members fuel (skipBlank cs) = members fuel cs := by
  cases fuel with
  | zero => rfl
  | succ fuel => rw [members, members, skipBlank_skipBlank]

/-- No value starts with the bracket that closes an array. -/
theorem items_close (fuel : Nat) (cs : List Char) : items fuel (']' :: cs) = none := by
  match fuel with
  | 0 | 1 => rfl
  | fuel + 2 => rw [items, value, skipBlank_cons rfl]; rfl

theorem members_close (fuel : Nat) (cs : List Char) : members fuel ('\x7d' :: cs) = none := by
  match fuel with
  | 0 => rfl
  | fuel + 1 => rw [members, skipBlank_cons rfl]; rfl

/-- A text that starts as numbers do is read as a number. -/
theorem value_of_head {c : Char} (hc : c = '-' ∨ c.isDigit) (fuel : Nat) (cs : List Char) :
    value (fuel + 1) (c :: cs) =
      (numberText (c :: cs)).map fun (text, rest) => (.number text, rest) := by
  have hne {d : Char} (hm : d ≠ '-' ∧ d.isDigit = false) : c ≠ d := by
    rintro rfl
    simp [hm] at hc
  have hblank : isBlank c = false := by
    simp [isBlank, hne (d := ' ') (by decide), hne (d := '\t') (by decide),
      hne (d := '\n') (by decide), hne (d := '\r') (by decide)]
  rw [value, skipBlank_cons hblank]
  split
  case h_7 => rfl
  all_goals
    next heq => exact absurd (List.cons.inj heq).1 (hne (by decide))

/-! ### The rules -/

/-- The text of a document is read back where it stands. -/
def Reads (j : Json) (cs : List Char) : Prop :=
  ∀ fuel rest, cs.length < fuel → EndsNumber rest → value fuel (cs ++ rest) = some (j, rest)

/-- The texts of items are read back up to the bracket that closes their array. -/
def ReadsItems (js : List Json) (cs : List Char) : Prop :=
  ∀ fuel w rest, Blanks w → cs.length + 1 < fuel →
    items fuel (cs ++ (w ++ ']' :: rest)) = some (js, rest)

/-- The texts of members are read back up to the brace that closes their object. -/
def ReadsMembers (ms : List (List Char × Json)) (cs : List Char) : Prop :=
  ∀ fuel w rest, Blanks w → cs.length + 1 < fuel →
    members fuel (cs ++ (w ++ '\x7d' :: rest)) = some (ms, rest)

theorem endsNumber_comma (rest : List Char) : EndsNumber (',' :: rest) := by
  rintro d ⟨rfl⟩
  decide

/-- White space and a bracket or brace that closes. -/
theorem Blanks.endsNumber {w : List Char} (hw : Blanks w) {c : Char} (hc : c = ']' ∨ c = '\x7d')
    (rest : List Char) : EndsNumber (w ++ c :: rest) := by
  cases w with
  | nil =>
    rintro d ⟨rfl⟩
    rcases hc with rfl | rfl <;> decide
  | cons b w =>
    rintro d ⟨rfl⟩
    have hb : ((b = ' ' ∨ b = '\t') ∨ b = '\n') ∨ b = '\r' := by
      simpa [isBlank] using hw b (by simp)
    rcases hb with ((rfl | rfl) | rfl) | rfl <;> decide

theorem Reads.blank {j : Json} {cs : List Char} (h : Reads j cs) {w : List Char}
    (hw : Blanks w) : Reads j (w ++ cs) := by
  intro fuel rest hfuel hrest
  rw [List.length_append] at hfuel
  rw [← value_skipBlank, List.append_assoc, skipBlank_append hw, value_skipBlank]
  exact h fuel rest (by omega) hrest

theorem reads_null : Reads null ['n', 'u', 'l', 'l'] := by
  rintro (_ | fuel) rest hfuel -
  · cases hfuel
  · rfl

theorem reads_bool (b : Bool) : Reads (bool b) (boolText b) := by
  rintro (_ | fuel) rest hfuel -
  · cases hfuel
  · cases b <;> rfl

theorem reads_number {text : List Char} (h : IsNumber text) : Reads (number text) text := by
  rintro (_ | fuel) rest hfuel hrest
  · cases hfuel
  rcases text with _ | ⟨c, text⟩
  · cases h
  have hread := h.numberText_append hrest
  rw [List.cons_append] at hread ⊢
  rw [value_of_head (head_of_numberText h), hread]
  rfl

theorem reads_string {l : List Char} (h : IsLiteral l) : Reads (string l) (quoted l) := by
  rintro (_ | fuel) rest hfuel -
  · cases hfuel
  · have hread := h.literal_quote rest
    simp only [quoted, List.cons_append, List.append_assoc, List.nil_append]
    rw [value, skipBlank_cons rfl]
    simp [hread]

theorem reads_array_nil : Reads (array []) ['[', ']'] := by
  rintro (_ | fuel) rest hfuel -
  · cases hfuel
  · rfl

theorem reads_object_nil : Reads (object []) ['\x7b', '\x7d'] := by
  rintro (_ | fuel) rest hfuel -
  · cases hfuel
  · rfl

theorem ReadsItems.array {js : List Json} {cs w : List Char} (h : ReadsItems js cs)
    (hw : Blanks w) : Reads (array js) ('[' :: cs ++ w ++ [']']) := by
  rintro (_ | fuel) rest hfuel -
  · cases hfuel
  simp only [List.length_append, List.length_cons, List.length_nil] at hfuel
  have hread := h fuel w rest hw (by omega)
  simp only [List.cons_append, List.append_assoc, List.nil_append]
  rw [value, skipBlank_cons rfl]
  simp only
  split
  · next tail htail => rw [← items_skipBlank, htail, items_close] at hread; cases hread
  · rw [items_skipBlank, hread]; rfl

theorem ReadsMembers.object {ms : List (List Char × Json)} {cs w : List Char}
    (h : ReadsMembers ms cs) (hw : Blanks w) :
    Reads (object ms) ('\x7b' :: cs ++ w ++ ['\x7d']) := by
  rintro (_ | fuel) rest hfuel -
  · cases hfuel
  simp only [List.length_append, List.length_cons, List.length_nil] at hfuel
  have hread := h fuel w rest hw (by omega)
  simp only [List.cons_append, List.append_assoc, List.nil_append]
  rw [value, skipBlank_cons rfl]
  simp only
  split
  · next tail htail => rw [← members_skipBlank, htail, members_close] at hread; cases hread
  · rw [members_skipBlank, hread]; rfl

theorem Reads.items_singleton {j : Json} {cs : List Char} (h : Reads j cs) :
    ReadsItems [j] cs := by
  rintro (_ | fuel) w rest hw hfuel
  · cases hfuel
  rw [items, h fuel _ (by omega) (hw.endsNumber (by simp) rest)]
  simp only [skipBlank_append hw]
  rw [skipBlank_cons rfl]
  rfl

theorem ReadsItems.cons {j : Json} {js : List Json} {cs ds : List Char} (hj : Reads j cs)
    (hjs : ReadsItems js ds) : ReadsItems (j :: js) (cs ++ ',' :: ds) := by
  rintro (_ | fuel) w rest hw hfuel
  · cases hfuel
  simp only [List.length_append, List.length_cons] at hfuel
  rw [List.append_assoc, List.cons_append, items, hj fuel _ (by omega) (endsNumber_comma _)]
  simp only
  rw [skipBlank_cons rfl]
  simp only [hjs fuel w rest hw (by omega), Option.map_some]

section Member

variable {key : List Char} {j : Json} {w cs : List Char}

theorem Reads.members_singleton (hkey : IsLiteral key) (hj : Reads j cs) (hw : Blanks w) :
    ReadsMembers [(key, j)] (w ++ quoted key ++ ':' :: cs) := by
  rintro (_ | fuel) v rest hv hfuel
  · cases hfuel
  simp only [List.length_append, List.length_cons] at hfuel
  have hread := hj fuel (v ++ '\x7d' :: rest) (by omega) (hv.endsNumber (by simp) rest)
  simp only [quoted, List.append_assoc, List.cons_append, List.nil_append]
  rw [members, skipBlank_append hw, skipBlank_cons rfl]
  simp only [hkey.literal_quote]
  rw [skipBlank_cons rfl]
  simp only [hread, skipBlank_append hv]
  rw [skipBlank_cons rfl]
  rfl

theorem ReadsMembers.cons {ms : List (List Char × Json)} {ds : List Char}
    (hkey : IsLiteral key) (hj : Reads j cs) (hw : Blanks w) (hms : ReadsMembers ms ds) :
    ReadsMembers ((key, j) :: ms) (w ++ quoted key ++ ':' :: cs ++ ',' :: ds) := by
  rintro (_ | fuel) v rest hv hfuel
  · cases hfuel
  simp only [List.length_append, List.length_cons] at hfuel
  have hread := hj fuel (',' :: (ds ++ (v ++ '\x7d' :: rest))) (by omega) (endsNumber_comma _)
  simp only [quoted, List.append_assoc, List.cons_append, List.nil_append]
  rw [members, skipBlank_append hw, skipBlank_cons rfl]
  simp only [hkey.literal_quote]
  rw [skipBlank_cons rfl]
  simp only [hread]
  rw [skipBlank_cons rfl]
  simp only [hms fuel v rest hv (by omega), Option.map_some]

end Member

/-! ### The printers -/

theorem blanks_nil : Blanks [] := fun _ hc => nomatch hc

theorem blanks_space : Blanks [' '] := by
  simp [Blanks, isBlank]

/-- The text of several parts: the texts of the parts, with a comma between any two. -/
structure Separated {α : Type} (part : α → List Char) (text : List α → List Char) : Prop where
  one : ∀ a, text [a] = part a
  more : ∀ a b l, text (a :: b :: l) = part a ++ ',' :: text (b :: l)

theorem separated_compactItems : Separated compact compactItems :=
  ⟨fun _ => rfl, fun _ _ _ => rfl⟩

theorem separated_compactMembers :
    Separated (fun m => [] ++ quoted m.1 ++ ':' :: compact m.2) compactMembers :=
  ⟨fun _ => rfl, fun _ _ _ => rfl⟩

theorem separated_prettyItems (level : Nat) :
    Separated (fun j => newline level ++ prettyAt level j) (prettyItems level) :=
  ⟨fun _ => rfl, fun _ _ _ => rfl⟩

theorem separated_prettyMembers (level : Nat) :
    Separated (fun m => newline level ++ quoted m.1 ++ ':' :: ([' '] ++ prettyAt level m.2))
      (prettyMembers level) :=
  ⟨fun _ => rfl, fun _ _ _ => rfl⟩

theorem Separated.readsItems {part : Json → List Char} {text : List Json → List Char}
    (ht : Separated part text) {items : List Json} (hne : items ≠ [])
    (h : ∀ j ∈ items, Reads j (part j)) : ReadsItems items (text items) := by
  induction items with
  | nil => exact absurd rfl hne
  | cons j js ih =>
    have hj := h j (by simp)
    cases js with
    | nil =>
      rw [ht.one]
      exact hj.items_singleton
    | cons k ks =>
      rw [ht.more]
      exact .cons hj (ih (by simp) fun i hi => h i (.tail _ hi))

theorem Separated.readsMembers {w : List Char} (print : Json → List Char)
    {text : List (List Char × Json) → List Char}
    (ht : Separated (fun m => w ++ quoted m.1 ++ ':' :: print m.2) text) (hw : Blanks w)
    {members : List (List Char × Json)} (hne : members ≠ [])
    (hkeys : ∀ m ∈ members, IsLiteral m.1) (h : ∀ m ∈ members, Reads m.2 (print m.2)) :
    ReadsMembers members (text members) := by
  induction members with
  | nil => exact absurd rfl hne
  | cons m ms ih =>
    have hkey := hkeys m (by simp)
    have hm := h m (by simp)
    cases ms with
    | nil =>
      rw [ht.one]
      exact hm.members_singleton hkey hw
    | cons n ns =>
      rw [ht.more]
      exact .cons hkey hm hw
        (ih (by simp) (fun i hi => hkeys i (.tail _ hi)) fun i hi => h i (.tail _ hi))

theorem Legible.reads_compact {j : Json} (h : Legible j) : Reads j j.compact := by
  induction h with
  | null => exact reads_null
  | bool b => exact reads_bool b
  | number h => exact reads_number h
  | string h => exact reads_string h
  | @array items _ ih =>
    rcases eq_or_ne items [] with rfl | hne
    · exact reads_array_nil
    · simpa [compact] using (separated_compactItems.readsItems hne ih).array blanks_nil
  | @object members hkeys _ ih =>
    rcases eq_or_ne members [] with rfl | hne
    · exact reads_object_nil
    · simpa [compact] using
        (separated_compactMembers.readsMembers compact blanks_nil hne hkeys ih).object blanks_nil

theorem Legible.reads_pretty {j : Json} (h : Legible j) (level : Nat) :
    Reads j (j.prettyAt level) := by
  induction h generalizing level with
  | null => exact reads_null
  | bool b => exact reads_bool b
  | number h => exact reads_number h
  | string h => exact reads_string h
  | @array items _ ih =>
    cases items with
    | nil => exact reads_array_nil
    | cons j js =>
      have hitems := (separated_prettyItems (level + 1)).readsItems (by simp)
        fun i hi => (ih i hi (level + 1)).blank (blanks_newline _)
      exact hitems.array (blanks_newline level)
  | @object members hkeys _ ih =>
    cases members with
    | nil => exact reads_object_nil
    | cons m ms =>
      have hmembers := (separated_prettyMembers (level + 1)).readsMembers
        (fun j => [' '] ++ prettyAt (level + 1) j) (blanks_newline _) (by simp) hkeys
        fun i hi => (ih i hi (level + 1)).blank blanks_space
      exact hmembers.object (blanks_newline level)

theorem Reads.read? {j : Json} {cs : List Char} (h : Reads j cs) : read? cs = some j := by
  have hread := h (2 * cs.length + 2) [] (by omega) endsNumber_nil
  rw [List.append_nil] at hread
  simp [Json.read?, hread, skipBlank]

theorem Legible.read?_compact {j : Json} (h : Legible j) : Json.read? j.compact = some j :=
  h.reads_compact.read?

theorem Legible.read?_pretty {j : Json} (h : Legible j) : Json.read? j.pretty = some j :=
  (h.reads_pretty 0).read?

end PixelRecord.Json
