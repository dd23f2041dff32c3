import PixelRecord.Proofs.CommandLine.Arguments
import PixelRecord.Proofs.CommandLine.FileTree
import PixelRecord.Proofs.Composite.Images
import PixelRecord.Proofs.Settings

/-!
The command that composites images, on a tree of files.

All that the command reads it reads first, and until everything has been found and
agrees nothing is written. So a request that is not met leaves the tree as it is.
One that is met leaves the picture of the composition under its path, and that
picture does not depend on how its rows are shared out.
-/

namespace PixelRecord.CommandLine

open FileTree

/-- A step of a command on a tree of files. -/
abbrev CommandStep (α : Type) := ExceptT CommandError (StateM FileTree) α

namespace CommandStep

variable {α β : Type} {t t' : FileTree}

/-- The answer of a step on `t`, and the tree after it. -/
def on (e : CommandStep α) (t : FileTree) : Except CommandError α × FileTree := e t

@[simp] theorem on_liftM (x : StateM FileTree α) (t : FileTree) :
    (liftM x : CommandStep α).on t = (.ok (x t).1, (x t).2) := rfl

theorem on_bind (e : CommandStep α) (k : α → CommandStep β) (t : FileTree) :
    (e >>= k).on t =
      match e.on t with
      | (.ok a, after) => (k a).on after
      | (.error err, after) => (.error err, after) := by
  show (match e t with | (r, after) => ExceptT.bindCont k r after) = _
  simp only [on]
  rcases e t with ⟨_ | _, _⟩ <;> rfl

theorem on_bind_of_ok {e : CommandStep α} {a : α} (h : e.on t = (.ok a, t'))
    (k : α → CommandStep β) : (e >>= k).on t = (k a).on t' := by
  rw [on_bind, h]

/-- The step ends the command with status 1 and leaves the tree as it is. -/
def Refused (e : CommandStep α) (t : FileTree) : Prop :=
  ∃ err, e.on t = (.error err, t) ∧ (Ending.ofResult (.error err)).status = 1

theorem Refused.bind {e : CommandStep α} (h : e.Refused t) (k : α → CommandStep β) :
    (e >>= k).Refused t := by
  obtain ⟨err, hon, hstatus⟩ := h
  exact ⟨err, by rw [on_bind, hon], hstatus⟩

theorem refused_bind_of_ok {e : CommandStep α} {a : α} {k : α → CommandStep β}
    (h : e.on t = (.ok a, t)) (hk : (k a).Refused t) : (e >>= k).Refused t := by
  obtain ⟨err, hon, hstatus⟩ := hk
  exact ⟨err, by rw [on_bind_of_ok h, hon], hstatus⟩

end CommandStep

open CommandStep

section

variable {t : FileTree} {taskOrder : Nat → List Nat}

/-! ### What a request finds -/

/-- The settings under a path, or those that hold without one. -/
def SettingsIn (t : FileTree) : Option String → Settings → Prop
  | none, settings => settings = Settings.default
  | some path, settings => ∃ text, t.text? path = some text ∧ Settings.ofText text = .ok settings

/-- What a request names is there: settings that are accepted, and images that can be
opened and are of one size. -/
structure Found (t : FileTree) (request : CompositeRequest) (settings : Settings)
    (dst src : Image) (mask : Option Image) : Prop where
  settings : SettingsIn t request.settings settings
  destination : t.image? request.destination = some dst
  source : t.image? request.source = some src
  matching : Matching dst src mask
  mask : request.mask.map t.image? = mask.map some

theorem SettingsIn.check {path : Option String} {settings : Settings}
    (h : SettingsIn t path settings) : settings.threading.check = .ok () := by
  cases path with
  | none =>
    cases h
    decide
  | some path =>
    obtain ⟨text, _, htext⟩ := h
    exact Settings.check_of_ofText htext

/-! ### Steps that read -/

@[simp] theorem readText_machine (t : FileTree) (path : String) :
    (machine taskOrder).readText path t = (t.text? path, t) := rfl

@[simp] theorem taskOrder_machine : (machine taskOrder).taskOrder = taskOrder := rfl

@[simp] theorem openImage_machine (t : FileTree) (path : String) :
    (machine taskOrder).openImage path t = (t.image? path, t) := rfl

section OrError

variable {α : Type} {step : StateM FileTree (Option α)} {err : CommandError}

theorem on_orError {a : α} (h : step t = (some a, t)) : on (orError err step) t = (.ok a, t) := by
  show on (liftM step >>= _) t = _
  rw [on_bind, on_liftM, h]
  rfl

theorem orError_refused (h : step t = (none, t))
    (hstatus : (Ending.ofResult (.error err)).status = 1) : Refused (orError err step) t := by
  refine ⟨err, ?_, hstatus⟩
  show on (liftM step >>= _) t = _
  rw [on_bind, on_liftM, h]
  rfl

end OrError

theorem on_openImage {path : String} {m : Image} (h : t.image? path = some m) :
    on (openImage (machine taskOrder) path) t = (.ok m, t) :=
  on_orError (by rw [openImage_machine, h])

theorem openImage_refused {path : String} (h : t.image? path = none) :
    Refused (openImage (machine taskOrder) path) t :=
  orError_refused (by rw [openImage_machine, h]) rfl

theorem on_loadSettings {path : Option String} {settings : Settings}
    (h : SettingsIn t path settings) :
    on (loadSettings (machine taskOrder) path) t = (.ok settings, t) := by
  cases path with
  | none =>
    cases h
    rfl
  | some path =>
    obtain ⟨text, hread, htext⟩ := h
    rw [loadSettings, on_bind_of_ok (on_orError (by rw [readText_machine, hread])), htext]
    rfl

theorem loadSettings_refused {path : Option String} (h : ∀ settings, ¬ SettingsIn t path settings) :
    Refused (loadSettings (machine taskOrder) path) t := by
  cases path with
  | none => exact absurd rfl (h Settings.default)
  | some path =>
    cases hread : t.text? path with
    | none => exact (orError_refused (by rw [readText_machine, hread]) rfl).bind _
    | some text =>
      refine refused_bind_of_ok (on_orError (by rw [readText_machine, hread])) ?_
      cases htext : Settings.ofText text with
      | ok settings => exact absurd ⟨text, hread, htext⟩ (h settings)
      | error e => exact ⟨_, rfl, rfl⟩

/-- The masks that a request names, opened. -/
theorem on_openMask {path : Option String} {mask : Option Image} {size : Nat × Nat}
    (h : path.map t.image? = mask.map some)
    (hsize : ∀ m, mask = some m → (m.width, m.height) = size) :
    on (openMask (machine taskOrder) size path) t =
      (.ok (mask.map fun m => ⟨m.luminance8, m.width⟩), t) := by
  cases path with
  | none =>
    cases mask with
    | none => rfl
    | some m => cases h
  | some path =>
    cases mask with
    | none => cases h
    | some m =>
      have hopen : t.image? path = some m := Option.some_inj.mp h
      rw [openMask, on_bind_of_ok (on_openImage hopen), if_pos (hsize m rfl)]
      rfl

theorem openMask_refused {path : Option String} {size : Nat × Nat}
    (h : ∀ mask : Option Image, path.map t.image? = mask.map some →
      ¬ ∀ m, mask = some m → (m.width, m.height) = size) :
    Refused (openMask (machine taskOrder) size path) t := by
  cases path with
  | none => exact absurd (fun m hm => by cases hm) (h none rfl)
  | some path =>
    cases hopen : t.image? path with
    | none => exact (openImage_refused hopen).bind _
    | some m =>
      refine refused_bind_of_ok (on_openImage hopen) ?_
      split
      · next hsize =>
        refine absurd ?_ (h (some m) (congrArg some hopen))
        rintro _ ⟨⟩
        exact hsize
      · exact ⟨_, rfl, rfl⟩

/-! ### The command -/

/-- The space that a request works in: what the line says goes before the settings. -/
def CompositeRequest.spaceUnder (request : CompositeRequest) (settings : Settings) : Space :=
  Space.builtin (request.space.getD settings.space)

def CompositeRequest.opUnder (request : CompositeRequest) (settings : Settings) : Op :=
  request.op.getD settings.op

theorem get_builtin (id : SpaceId) : Catalog.builtin.get id = .ok (Space.builtin id) := by
  cases id <;> rfl

/-- A request that is not met ends the command before anything is written. -/
theorem runComposite_refused {request : CompositeRequest}
    (h : ¬ ∃ settings dst src mask, Found t request settings dst src mask) :
    Refused (runComposite (machine taskOrder) Catalog.builtin request) t := by
  by_cases hsettings : ∃ settings, SettingsIn t request.settings settings
  · obtain ⟨settings, hsettings⟩ := hsettings
    refine refused_bind_of_ok (on_loadSettings hsettings) ?_
    dsimp only
    rw [get_builtin]
    refine refused_bind_of_ok rfl ?_
    cases hdst : t.image? request.destination with
    | none => exact (openImage_refused hdst).bind _
    | some dst =>
      refine refused_bind_of_ok (on_openImage hdst) ?_
      cases hsrc : t.image? request.source with
      | none => exact (openImage_refused hsrc).bind _
      | some src =>
        refine refused_bind_of_ok (on_openImage hsrc) ?_
        split
        · next hsize =>
          refine (openMask_refused fun mask hmask hsizes => ?_).bind _
          exact h ⟨settings, dst, src, mask, hsettings, hdst, hsrc, ⟨hsize, hsizes⟩, hmask⟩
        · exact Refused.bind ⟨_, rfl, rfl⟩ _
  · push Not at hsettings
    exact (loadSettings_refused hsettings).bind _

/-! ### The step that writes -/

theorem createDirectory_machine (t : FileTree) (path : String) :
    (machine taskOrder).createDirectory path t =
      ((t.createDirectory path).2, (t.createDirectory path).1) := rfl

theorem writePicture_machine {after : FileTree} {path : String} {picture : Picture}
    (h : t.write? path (.image (imageOf picture)) = some after) :
    (machine taskOrder).writePicture path picture t = (true, after) := by
  simp only [machine, bind, StateT.bind, get, getThe, MonadStateOf.get, StateT.get, pure, h]
  rfl

theorem on_unless {step : StateM FileTree Bool} {after : FileTree} (h : step t = (true, after))
    (err : CommandError) :
    on (do unless ← step do throw err : CommandStep Unit) t = (.ok (), after) := by
  show on (liftM step >>= _) t = _
  rw [on_bind, on_liftM, h]
  rfl

/-- A picture is saved where that can be done, and is read again. -/
theorem on_savePicture {path : String} (h : t.Writable path) (picture : Picture) :
    ∃ after, on (savePicture (machine taskOrder) path picture) t = (.ok (), after) ∧
      after.file? path = some (.image (imageOf picture)) := by
  obtain ⟨hmade, hadmits⟩ := h
  obtain ⟨after, hwrite, hfile⟩ := file?_write? hadmits (.image (imageOf picture))
  refine ⟨after, ?_, hfile⟩
  rw [savePicture]
  rw [withParent] at hmade hwrite
  cases hparent : parent? path with
  | none =>
    rw [hparent] at hwrite
    exact on_unless (writePicture_machine hwrite) _
  | some parent =>
    rw [hparent] at hmade hwrite
    have hcreated : (machine taskOrder).createDirectory parent t =
        (true, (t.createDirectory parent).1) := by
      rw [createDirectory_machine, hmade]
    show on (liftM ((machine taskOrder).createDirectory parent) >>= _) t = _
    rw [on_bind, on_liftM, hcreated]
    exact on_unless (writePicture_machine hwrite) _

theorem on_liftFailure {α : Type} (result : Except Failure α) (t : FileTree) :
    on (liftFailure result) t = (result.mapError .failed, t) := by
  cases result <;> rfl

/-- The records of an image that is read can be addressed. -/
theorem records_lt_addressSpace {path : String} {m : Image} (h : t.image? path = some m)
    (id : SpaceId) :
    m.height * (m.width * (Space.builtin id).recordSize) < Layout.addressSpace := by
  have hpixels : m.width * m.height ≤ 536870912 := pixels_le_of_image? h
  have hrecord : (Space.builtin id).recordSize ≤ 8 := by cases id <;> decide
  calc m.height * (m.width * (Space.builtin id).recordSize)
      = m.width * m.height * (Space.builtin id).recordSize := by
        rw [← Nat.mul_assoc, Nat.mul_comm m.height]
    _ ≤ 536870912 * 8 := Nat.mul_le_mul hpixels hrecord
    _ < Layout.addressSpace := by decide

/-- A request that is met comes to the picture of the composition, which is saved
where that can be done. -/
theorem on_runComposite (horder : ∀ n, (taskOrder n).Perm (List.range n))
    {request : CompositeRequest} {settings : Settings} {dst src : Image} {mask : Option Image}
    (h : Found t request settings dst src mask) (hgray : ∀ m, mask = some m → m.IsGray) :
    ∃ picture, Composed (request.spaceUnder settings) (request.opUnder settings) request.opacity
        dst src mask picture ∧
      on (runComposite (machine taskOrder) Catalog.builtin request) t =
        if (request.spaceUnder settings).CountsTasks settings.threading dst.width dst.height then
          on (savePicture (machine taskOrder) request.output picture) t
        else (.error (.failed (.fault .overflow)), t) := by
  have hcounts := records_lt_addressSpace h.destination (request.space.getD settings.space)
  obtain ⟨picture, hcomposed, heq⟩ := compositeImages_eq horder h.settings.check
    (request.space.getD settings.space) (request.op.getD settings.op) request.opacity h.matching
    hgray hcounts
  refine ⟨picture, hcomposed, ?_⟩
  rw [CompositeRequest.spaceUnder]
  have hspace : on (liftFailure ((Catalog.builtin.get (request.space.getD settings.space)).mapError
      Failure.refused)) t =
      (.ok (Space.builtin (request.space.getD settings.space)), t) := by
    rw [get_builtin]
    rfl
  rw [runComposite, on_bind_of_ok (on_loadSettings h.settings)]
  dsimp only
  rw [on_bind_of_ok hspace, on_bind_of_ok (on_openImage h.destination),
    on_bind_of_ok (on_openImage h.source), if_pos h.matching.source,
    on_bind_of_ok (on_openMask h.mask h.matching.mask), on_bind, on_liftFailure,
    taskOrder_machine, heq]
  by_cases hcounts : (Space.builtin (request.space.getD settings.space)).CountsTasks
      settings.threading dst.width dst.height
  · simp only [if_pos hcounts, Except.mapError]
  · simp only [if_neg hcounts, Except.mapError]

/-- What the program does about a command. -/
theorem perform_run (command : Command) (t : FileTree) :
    ((Invocation.run command).perform (machine taskOrder) Catalog.builtin).run t =
      (Ending.ofResult (on (command.run (machine taskOrder) Catalog.builtin) t).1,
        (on (command.run (machine taskOrder) Catalog.builtin) t).2) := rfl

/-- **The command that composites images.** A request is read from every line that
spells it. Let a line be read as the request.

Where all that it names is found, with a mask that is gray, where the output can be
written and the bytes of a task can be counted, the program ends with status 0, and
under the path of the output there is the picture of the composition, in the space
and by the operation of the line or else of the settings. There is only one such
picture, whatever the settings say on tasks. Where the bytes of a task cannot be
counted, the program breaks off, with nothing written.

Where something is not found, is not accepted or is not of the size of the others,
the program ends with status 1, and all files are as they were. -/
theorem composite_command (horder : ∀ n, (taskOrder n).Perm (List.range n))
    (request : CompositeRequest) (t : FileTree) :
    (∀ given, request.SpelledBy given →
      read ("composite" :: given.flatMap GivenOption.args) = .run (.composite request)) ∧
    ∀ args, read args = .run (.composite request) →
      (∀ settings dst src mask, Found t request settings dst src mask →
        (∀ m, mask = some m → m.IsGray) → t.Writable request.output →
        ∃ picture,
          Composed (request.spaceUnder settings) (request.opUnder settings) request.opacity dst
            src mask picture ∧
          (∀ other, Composed (request.spaceUnder settings) (request.opUnder settings)
            request.opacity dst src mask other → other = picture) ∧
          if (request.spaceUnder settings).CountsTasks settings.threading dst.width
              dst.height then
            ∃ after, ((read args).perform (machine taskOrder) Catalog.builtin).run t =
                (⟨0, { notes := writtenNote request.output }⟩, after) ∧
              after.file? request.output = some (.image (imageOf picture))
          else ∃ ending, ((read args).perform (machine taskOrder) Catalog.builtin).run t =
              (ending, t) ∧ ending.status = 101) ∧
      ((¬ ∃ settings dst src mask, Found t request settings dst src mask) →
        ∃ ending, ((read args).perform (machine taskOrder) Catalog.builtin).run t = (ending, t) ∧
          ending.status = 1) := by
  refine ⟨fun given h => h.read, fun args hread => ?_⟩
  rw [hread]
  simp only [perform_run]
  refine ⟨fun settings dst src mask h hgray hwritable => ?_, fun h => ?_⟩
  · obtain ⟨picture, hcomposed, hrun⟩ := on_runComposite horder h hgray
    refine ⟨picture, hcomposed, fun other hother => hcomposed.unique hother, ?_⟩
    split
    · next hcounts =>
      rw [if_pos hcounts] at hrun
      obtain ⟨after, hsaved, hfile⟩ := on_savePicture hwritable picture
      refine ⟨after, ?_, hfile⟩
      rw [Command.run, on_bind_of_ok (hrun.trans hsaved)]
      rfl
    · next hcounts =>
      rw [if_neg hcounts] at hrun
      refine ⟨.ofResult (.error (.failed (.fault .overflow))), ?_, rfl⟩
      rw [Command.run, on_bind, hrun]
  · obtain ⟨err, hrun, hstatus⟩ : Refused (runComposite (machine taskOrder) Catalog.builtin
      request) t := runComposite_refused h
    refine ⟨.ofResult (.error err), ?_, hstatus⟩
    rw [Command.run, on_bind, hrun]

end

/-! ### A request for two columns -/

/-- A tree with an image to composite over another one, both of one column and two
rows, with a mask and settings. -/
def columnFiles (settings : String) : FileTree where
  home := ["home"]
  nodes :=
    [(["home", "below.png"], .file (.image ⟨1, 2, .rgb, .eight, #[10, 200, 30, 250, 60, 7]⟩)),
      (["home", "above.png"],
        .file (.image ⟨1, 2, .rgba, .sixteen, #[65535, 0, 1000, 40000, 5, 600, 70, 65535]⟩)),
      (["home", "mask.png"], .file (.image ⟨1, 2, .gray, .eight, #[128, 255]⟩)),
      (["home", "settings.json"], .file (.bytes settings.toUTF8.data))]

/-- Settings that share out rows, one to a task. -/
def rowSettings : String :=
  "\x7b\"color_space\":\"RGBA\",\"display\":\x7b\"parallel\":true,\"rows_per_task\":1\x7d\x7d"

/-- Settings that are accepted, with more rows to a task than there are bytes. -/
def hugeSettings : String :=
  "\x7b\"display\":\x7b\"parallel\":true,\"rows_per_task\":4611686018427387904\x7d\x7d"

def columnRequest (mask : String) : CompositeRequest :=
  ⟨"below.png", "above.png", some mask, some .screen, 200, none, some "settings.json",
    "out/both.png"⟩

def columnOptions (mask : String) : List GivenOption :=
  [⟨"config", "settings.json", false⟩, ⟨"dst", "below.png", false⟩, ⟨"src", "above.png", true⟩,
    ⟨"mask", mask, false⟩, ⟨"op", "screen", true⟩, ⟨"opacity", "200", false⟩,
    ⟨"out", "out/both.png", true⟩]

def columnLine (mask : String) : List String :=
  "composite" :: (columnOptions mask).flatMap GivenOption.args

theorem columnFiles_contents : ∀ text ∈ [rowSettings, hugeSettings],
    (columnFiles text).file? "settings.json" = some (.bytes text.toUTF8.data) ∧
      (columnFiles text).image? "below.png" =
        some ⟨1, 2, .rgb, .eight, #[10, 200, 30, 250, 60, 7]⟩ ∧
      (columnFiles text).image? "above.png" =
        some ⟨1, 2, .rgba, .sixteen, #[65535, 0, 1000, 40000, 5, 600, 70, 65535]⟩ ∧
      (columnFiles text).image? "mask.png" = some ⟨1, 2, .gray, .eight, #[128, 255]⟩ := by
  decide +kernel

theorem columnFiles_found {text : String} {settings : Settings}
    (htext : text ∈ [rowSettings, hugeSettings]) (h : Settings.ofText text = .ok settings) :
    Found (columnFiles text) (columnRequest "mask.png") settings
      ⟨1, 2, .rgb, .eight, #[10, 200, 30, 250, 60, 7]⟩
      ⟨1, 2, .rgba, .sixteen, #[65535, 0, 1000, 40000, 5, 600, 70, 65535]⟩
      (some ⟨1, 2, .gray, .eight, #[128, 255]⟩) := by
  obtain ⟨hsettings, hbelow, habove, hmask⟩ := columnFiles_contents text htext
  exact {
    settings := ⟨text, text?_of_file? hsettings, h⟩
    destination := hbelow
    source := habove
    matching := ⟨rfl, fun m hm => by cases hm; rfl⟩
    mask := congrArg some hmask }

theorem columnMask_isGray (m : Image)
    (h : some (⟨1, 2, .gray, .eight, #[128, 255]⟩ : Image) = some m) : m.IsGray := by
  cases h
  exact Image.isGray_of_model (.inl rfl)

/-- The request is met, breaks off on counting the bytes of a task, and is refused
for a mask that is not there. -/
theorem composite_command_columns :
    (∃ picture after,
      Composed (Space.builtin .rgba8) .screen 200
        ⟨1, 2, .rgb, .eight, #[10, 200, 30, 250, 60, 7]⟩
        ⟨1, 2, .rgba, .sixteen, #[65535, 0, 1000, 40000, 5, 600, 70, 65535]⟩
        (some ⟨1, 2, .gray, .eight, #[128, 255]⟩) picture ∧
      ((read (columnLine "mask.png")).perform (machine fun n => (List.range n).reverse)
          Catalog.builtin).run (columnFiles rowSettings) =
        (⟨0, { notes := writtenNote "out/both.png" }⟩, after) ∧
      after.file? "out/both.png" = some (.image (imageOf picture))) ∧
    (∃ ending,
      ((read (columnLine "mask.png")).perform (machine List.range) Catalog.builtin).run
          (columnFiles hugeSettings) = (ending, columnFiles hugeSettings) ∧
      ending.status = 101) ∧
    ∃ ending,
      ((read (columnLine "none.png")).perform (machine List.range) Catalog.builtin).run
          (columnFiles rowSettings) = (ending, columnFiles rowSettings) ∧
      ending.status = 1 := by
  have hspelled : (columnRequest "mask.png").SpelledBy (columnOptions "mask.png") :=
    ⟨by decide +kernel, by decide +kernel, by decide +kernel⟩
  refine ⟨?met, ?overflow, ?refused⟩
  case met =>
    obtain ⟨hread, hruns⟩ := composite_command (fun n => List.reverse_perm _)
      (columnRequest "mask.png") (columnFiles rowSettings)
    have hfound := @columnFiles_found rowSettings ⟨.rgba8, .over, ⟨true, 1, none⟩⟩ (by simp)
      (by decide +kernel)
    obtain ⟨picture, hcomposed, -, hrun⟩ := (hruns _ (hread _ hspelled)).1 _ _ _ _ hfound
      columnMask_isGray (by decide +kernel)
    rw [if_pos (by decide)] at hrun
    obtain ⟨after, hrun, hfile⟩ := hrun
    exact ⟨picture, after, hcomposed, hrun, hfile⟩
  case overflow =>
    obtain ⟨hread, hruns⟩ := composite_command (fun n => List.Perm.refl _)
      (columnRequest "mask.png") (columnFiles hugeSettings)
    have hfound := @columnFiles_found hugeSettings
      ⟨.rgba16, .over, ⟨true, 4611686018427387904, none⟩⟩ (by simp) (by decide +kernel)
    obtain ⟨picture, -, -, hrun⟩ := (hruns _ (hread _ hspelled)).1 _ _ _ _ hfound
      columnMask_isGray (by decide +kernel)
    rwa [if_neg (by decide)] at hrun
  case refused =>
    obtain ⟨hread, hruns⟩ := composite_command (fun n => List.Perm.refl _)
      (columnRequest "none.png") (columnFiles rowSettings)
    refine (hruns _ (hread (columnOptions "none.png")
      ⟨by decide +kernel, by decide +kernel, by decide +kernel⟩)).2 ?_
    rintro ⟨settings, dst, src, mask, h⟩
    have hmissing : (columnFiles rowSettings).image? "none.png" = none := by decide +kernel
    have hmask := h.mask
    rw [columnRequest, Option.map_some, hmissing] at hmask
    cases mask <;> cases hmask

end PixelRecord.CommandLine
