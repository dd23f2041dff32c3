import Mathlib.Data.List.TakeWhile
import PixelRecord.CommandLine.Arguments
import PixelRecord.Proofs.Names

/-!
Lines that are read as they are meant.

An option is spelled in one argument or in two, and options stand in any order. All
that a command sees of them is the value under each name, so as long as no name
comes twice, neither the spelling nor the order matters. That the value is the one
that was meant is then a matter of each kind of value by itself.
-/

namespace PixelRecord.CommandLine

/-- A command is a matter of the value under each name. -/
theorem command?_perm {values values' : List (String × String)} (name : String)
    (hperm : values'.Perm values) (h : (values.map Prod.fst).Nodup) :
    command? name values' = command? name values := by
  simp only [command?, lookup_perm hperm h]

/-! ### Spelled options -/

/-- An option of a line with its value, joined in one argument or in two. -/
structure GivenOption where
  name : String
  value : String
  joined : Bool
  deriving DecidableEq, Repr

/-- No option of the table is mistaken for another sign. -/
def OptionTable.Plain (table : OptionTable) : Prop :=
  ∀ option ∈ table, '=' ∉ option.1.toList ∧ option.1 ≠ "" ∧ option.1 ≠ "help" ∧
    option.1 ≠ "version"

instance (table : OptionTable) : Decidable table.Plain :=
  inferInstanceAs (Decidable (∀ option ∈ table, _))

namespace GivenOption

variable {table : OptionTable} {o : GivenOption} {values : List (String × String)}
  {options : List GivenOption} {top : Bool}

def pair (o : GivenOption) : String × String := (o.name, o.value)

def args (o : GivenOption) : List String :=
  if o.joined then ["--" ++ o.name ++ "=" ++ o.value] else ["--" ++ o.name, o.value]

/-- The table admits the option, and its value is not taken for an option. -/
structure Admitted (table : OptionTable) (o : GivenOption) : Prop where
  known : ∃ kind, table.lookup o.name = some kind ∧ kind.admits o.value = true
  isValue : o.joined = true ∨ isValue o.value = true

theorem shape_of_toList {arg : String} {body : List Char} (h : arg.toList = '-' :: '-' :: body)
    (hbody : body ≠ []) :
    shape arg = .long (String.ofList (body.takeWhile (· ≠ '=')))
      ((body.dropWhile (· ≠ '=')).tail?.map String.ofList) := by
  obtain ⟨c, cs, rfl⟩ := List.exists_cons_of_ne_nil hbody
  rw [shape, h]
  simp only []
  cases (c :: cs).dropWhile (· ≠ '=') <;> rfl

theorem ne_equals_of_mem {cs : List Char} (h : '=' ∉ cs) : ∀ c ∈ cs, decide (c ≠ '=') = true :=
  fun _ hc => decide_eq_true fun heq => h (heq ▸ hc)

theorem shape_joined {name : String} (h : '=' ∉ name.toList) (value : String) :
    shape ("--" ++ name ++ "=" ++ value) = .long name (some value) := by
  have hlist : ("--" ++ name ++ "=" ++ value).toList =
      '-' :: '-' :: (name.toList ++ '=' :: value.toList) := by
    simp
  rw [shape_of_toList hlist (by simp), List.takeWhile_append_of_pos (ne_equals_of_mem h),
    List.dropWhile_append_of_pos (ne_equals_of_mem h)]
  simp

theorem shape_apart {name : String} (h : '=' ∉ name.toList) (hne : name ≠ "") :
    shape ("--" ++ name) = .long name none := by
  have hlist : ("--" ++ name).toList = '-' :: '-' :: name.toList := by
    simp
  rw [shape_of_toList hlist (by simpa using hne),
    List.takeWhile_eq_self_iff.mpr (ne_equals_of_mem h),
    List.dropWhile_eq_nil_iff.mpr (ne_equals_of_mem h)]
  simp

theorem addValue_of_admitted (h : o.Admitted table) (hnew : values.lookup o.name = none) :
    addValue table values o.name o.value = some (o.pair :: values) := by
  obtain ⟨kind, hkind, hadmits⟩ := h.known
  rw [addValue, hkind]
  dsimp only
  rw [hadmits, hnew]
  rfl

theorem plain_of_admitted (ht : table.Plain) (h : o.Admitted table) :
    '=' ∉ o.name.toList ∧ o.name ≠ "" ∧ o.name ≠ "help" ∧ o.name ≠ "version" := by
  obtain ⟨kind, hkind, -⟩ := h.known
  obtain ⟨before, after, rfl, -⟩ := List.lookup_eq_some_iff.mp hkind
  exact ht (o.name, kind) (by simp)

/-- **One option.** Reading goes on behind it, with its value added. -/
theorem scan_args (ht : table.Plain) (h : o.Admitted table) (hnew : values.lookup o.name = none)
    (rest : List String) :
    scan table top values (o.args ++ rest) = scan table top (o.pair :: values) rest := by
  obtain ⟨heq, hne, hhelp, hversion⟩ := plain_of_admitted ht h
  rw [args]
  split
  · rw [List.singleton_append, scan, shape_joined heq]
    dsimp only
    rw [addValue_of_admitted h hnew]
  · next hapart =>
    have hvalue : CommandLine.isValue o.value = true := h.isValue.resolve_left hapart
    rw [List.cons_append, List.singleton_append, scan, shape_apart heq hne]
    dsimp only
    rw [if_neg hhelp, if_neg (by simp [hversion]), if_pos hvalue, addValue_of_admitted h hnew]

/-- **All options.** Each is read, however it is spelled. -/
theorem scan_flatMap_args (ht : table.Plain) (h : ∀ o ∈ options, o.Admitted table)
    (hnodup : (options.map name).Nodup) (hnew : ∀ o ∈ options, values.lookup o.name = none) :
    scan table top values (options.flatMap args) =
      .finished ((options.map pair).reverse ++ values) := by
  induction options generalizing values with
  | nil => rfl
  | cons o rest ih =>
      obtain ⟨ho, hrest⟩ := List.forall_mem_cons.mp h
      obtain ⟨hnewo, hnewrest⟩ := List.forall_mem_cons.mp hnew
      obtain ⟨hfresh, hnodup⟩ := List.nodup_cons.mp hnodup
      rw [List.flatMap_cons, scan_args ht ho hnewo, ih hrest hnodup]
      · simp
      · intro o' ho'
        have hne : o'.name ≠ o.name := fun heq => hfresh (heq ▸ List.mem_map_of_mem ho')
        rw [pair, List.lookup_cons, beq_false_of_ne hne, hnewrest o' ho']

end GivenOption

/-- **The line of a command.** It asks for what its values, by name, stand for. -/
theorem read_given {name : String} {table : OptionTable} {options : List GivenOption}
    {command : Command} (hlookup : commands.lookup name = some table) (hhelp : name ≠ "help")
    (hshape : shape name = .word) (ht : OptionTable.Plain (globalOptions ++ table))
    (h : ∀ o ∈ options, o.Admitted (globalOptions ++ table))
    (hnodup : (options.map GivenOption.name).Nodup)
    (hmeant : command? name (options.map GivenOption.pair) = some command) :
    read (name :: options.flatMap GivenOption.args) = .run command := by
  have hscan : scan (globalOptions ++ table) false [] (options.flatMap GivenOption.args) =
      .finished (options.map GivenOption.pair).reverse := by
    rw [GivenOption.scan_flatMap_args ht h hnodup fun o _ => rfl, List.append_nil]
  have hpairs : ((options.map GivenOption.pair).map Prod.fst).Nodup := by
    rwa [List.map_map]
  rw [read, scan, hshape]
  dsimp only
  rw [if_neg hhelp, readCommand, hlookup]
  dsimp only
  rw [hscan]
  dsimp only
  rw [command?_perm name (List.reverse_perm _) hpairs, hmeant]

/-! ### Requests to composite -/

namespace CompositeRequest

/-- What a line has to say for a request. -/
def options (request : CompositeRequest) : List (String × String) :=
  [("dst", request.destination), ("src", request.source), ("out", request.output),
      ("opacity", toString request.opacity)] ++
    (request.mask.map ("mask", ·)).toList ++ (request.settings.map ("config", ·)).toList ++
    (request.op.map fun op => ("op", op.name)).toList ++
    (request.space.map fun id => ("space", id.name)).toList

/-- No path is empty. -/
def Named (request : CompositeRequest) : Prop :=
  ∀ path ∈ [request.destination, request.source, request.output] ++ request.mask.toList ++
    request.settings.toList, path.isEmpty = false

instance (request : CompositeRequest) : Decidable request.Named :=
  inferInstanceAs (Decidable (∀ path ∈ _, _))

/-- Options that give what a request says, each field once: in any order, and joined
with their values or not. -/
structure SpelledBy (request : CompositeRequest) (given : List GivenOption) : Prop where
  named : request.Named
  options : (given.map GivenOption.pair).Perm request.options
  values : ∀ o ∈ given, o.joined = true ∨ isValue o.value = true

theorem byte?_toString (b : UInt8) : byte? (toString b) = some b := by
  have hall : ∀ n : Fin 256, byte? (toString (UInt8.ofNat n)) = some (UInt8.ofNat n) := by
    decide +kernel
  simpa using hall ⟨b.toNat, b.toNat_lt⟩

theorem ofText_name_op (op : Op) : Op.ofText op.name = .ok op := by
  cases op <;> rfl

theorem ofText_name_space (id : SpaceId) : SpaceId.ofText id.name = .ok id := by
  cases id <;> rfl

theorem command?_options (request : CompositeRequest) :
    command? "composite" request.options = some (.composite request) := by
  obtain ⟨dst, src, mask, op, opacity, space, settings, out⟩ := request
  cases mask <;> cases op <;> cases space <;> cases settings <;>
    simp [command?, options, List.lookup_cons, byte?_toString, ofText_name_op, ofText_name_space,
      Except.toOption]

theorem nodup_options (request : CompositeRequest) : (request.options.map Prod.fst).Nodup := by
  obtain ⟨dst, src, mask, op, opacity, space, settings, out⟩ := request
  cases mask <;> cases op <;> cases space <;> cases settings <;> simp [options]

theorem admits_options {request : CompositeRequest} (h : request.Named) {table : OptionTable}
    (hlookup : commands.lookup "composite" = some table) :
    ∀ p ∈ request.options,
      ∃ kind, (globalOptions ++ table).lookup p.1 = some kind ∧ kind.admits p.2 = true := by
  cases hlookup
  have hpath {path : String} (hmem : path ∈ [request.destination, request.source,
      request.output] ++ request.mask.toList ++ request.settings.toList) :
      ValueKind.path.admits path = true := by
    rw [ValueKind.admits, h path hmem]
    rfl
  intro p hp
  simp only [options, List.mem_append, List.mem_cons, List.not_mem_nil, or_false,
    Option.mem_toList, Option.map_eq_some_iff] at hp
  rcases hp with ((((rfl | rfl | rfl | rfl) | ⟨path, hmask, rfl⟩) | ⟨path, hsettings, rfl⟩) |
    ⟨op, -, rfl⟩) | ⟨id, -, rfl⟩
  · exact ⟨.path, rfl, hpath (by simp)⟩
  · exact ⟨.path, rfl, hpath (by simp)⟩
  · exact ⟨.path, rfl, hpath (by simp)⟩
  · exact ⟨.byte, rfl, by rw [ValueKind.admits, byte?_toString]; rfl⟩
  · exact ⟨.path, rfl, hpath (by simp [hmask])⟩
  · exact ⟨.path, rfl, hpath (by simp [hsettings])⟩
  · exact ⟨.op, rfl, by rw [ValueKind.admits, ofText_name_op]; rfl⟩
  · exact ⟨.space, rfl, by rw [ValueKind.admits, ofText_name_space]; rfl⟩

/-- **The line of a request.** However a request is spelled, it is read again. -/
theorem SpelledBy.read {request : CompositeRequest} {given : List GivenOption}
    (h : request.SpelledBy given) :
    read ("composite" :: given.flatMap GivenOption.args) = .run (.composite request) := by
  refine read_given rfl (by decide) rfl (by decide) (fun o ho => ?_) ?_ ?_
  · have hmem := h.options.subset (List.mem_map_of_mem ho)
    exact ⟨admits_options h.named rfl o.pair hmem, h.values o ho⟩
  · have hnames := (h.options.map Prod.fst).nodup_iff.mpr request.nodup_options
    rwa [List.map_map] at hnames
  · rw [command?_perm "composite" h.options request.nodup_options, request.command?_options]

end CompositeRequest

end PixelRecord.CommandLine
