import LineAsm.Command.Program
import LineAsm.Proofs.Assembling
import LineAsm.Proofs.Files

/-!
# What the parts of a run do

A program that can fail and goes through a host with a state is a
function of that state (`exec`), and a sequence of programs ends where
one of them fails. With that, each part of a run is described once, by
what it returns and what it leaves behind: loading the settings and
assembling a file change nothing but the log, and the listings are
written as if their texts had been written to the file tree one after
the other (`exec_writeListings`).

The settings are loaded in the same way by every host, so that their
lemma leaves the host open: it asks only what reading the one file does.
-/

namespace LineAsm

/-- The settings of a run, if they can be loaded: those of the file, if
one is given, under the options. -/
def Options.settings? (options : Options) (files : FileTree) : Option Settings :=
  match options.config? with
  | none => some (options.override default)
  | some path =>
    match files.readText path with
    | .error _ => none
    | .ok text => (Settings.read? text).map options.override

/-- The path of the source. -/
def Options.inputPath (options : Options) : String := options.input?.getD Program.defaultInput

namespace Program

/-! ## Programs as functions of a state -/

section Exec

variable {σ α β : Type}

/-- What a program that can fail makes of a state. -/
def exec (program : ExceptT Failure (StateM σ) α) (state : σ) : Except Failure α × σ :=
  program.run.run state

theorem exec_bind (program : ExceptT Failure (StateM σ) α)
    (next : α → ExceptT Failure (StateM σ) β) (state : σ) :
    exec (program >>= next) state
      = (ExceptT.bindCont next (exec program state).1).run (exec program state).2 := rfl

theorem exec_bind_of_ok {program : ExceptT Failure (StateM σ) α} {state after : σ} {value : α}
    (h : exec program state = (.ok value, after)) (next : α → ExceptT Failure (StateM σ) β) :
    exec (program >>= next) state = exec (next value) after := by
  rw [exec_bind, h]
  rfl

theorem exec_bind_of_error {program : ExceptT Failure (StateM σ) α} {state after : σ}
    {failure : Failure} (h : exec program state = (.error failure, after))
    (next : α → ExceptT Failure (StateM σ) β) :
    exec (program >>= next) state = (.error failure, after) := by
  rw [exec_bind, h]
  rfl

end Exec

/-! ## The host that is a value -/

variable {world : World}

theorem exec_readText {path : String} {found : Except FileError String}
    (h : world.files.readText path = found) :
    exec (Host.readText path) world = (.ok found, world) := by
  rw [← h]
  rfl

theorem exec_writeText {path text : String} {files : FileTree}
    (h : world.files.writeText path text = .ok files) :
    exec (Host.writeText path text) world = (.ok (.ok ()), { world with files }) := by
  have hhost : (Host.writeText path text : StateM World (Except FileError Unit)).run world
      = (.ok (), { world with files }) := by
    simp only [Host.writeText, StateT.run_bind, StateT.run_get, pure_bind, h]
    rfl
  have hlift : exec (Host.writeText path text) world
      = Prod.map .ok id
          ((Host.writeText path text : StateM World (Except FileError Unit)).run world) := rfl
  rw [hlift, hhost]
  rfl

theorem exec_print (world : World) (text : String) :
    exec (Host.print text) world = (.ok (), { world with output := world.output ++ text }) := rfl

theorem exec_log (world : World) (events : List Event) :
    exec (Host.log events) world = (.ok (), { world with events := world.events ++ events }) := rfl

/-! ## Settings -/

variable {options : Options} {settings : Settings}

theorem exec_loadSettings {σ : Type} [Host (StateM σ)] {state after : σ} {files : FileTree}
    (hnone : options.config? = none → after = state)
    (hread : ∀ path, options.config? = some path →
      exec (Host.readText path) state = (.ok (files.readText path), after))
    (h : options.settings? files = some settings) :
    exec (loadSettings options) state = (.ok settings, after) := by
  rw [Options.settings?] at h
  rw [loadSettings]
  cases hconfig : options.config? with
  | none =>
      rw [hconfig] at h
      cases h
      rw [hnone hconfig]
      rfl
  | some path =>
      rw [hconfig] at h
      cases hfound : files.readText path with
      | error cause => simp [hfound] at h
      | ok text =>
          simp only [hfound, Option.map_eq_some_iff] at h
          obtain ⟨base, hbase, rfl⟩ := h
          simp only [exec_bind_of_ok (hread path hconfig), hfound, hbase]
          rfl

theorem exec_loadSettings_world (world : World)
    (h : options.settings? world.files = some settings) :
    exec (loadSettings options) world = (.ok settings, world) :=
  exec_loadSettings (fun _ => rfl) (fun _ _ => exec_readText rfl) h

theorem exec_loadSettings_fails (h : options.settings? world.files = none) :
    ∃ failure, exec (loadSettings options) world = (.error failure, world) := by
  rw [Options.settings?] at h
  rw [loadSettings]
  cases hconfig : options.config? with
  | none =>
      rw [hconfig] at h
      cases h
  | some path =>
      rw [hconfig] at h
      cases hfound : world.files.readText path with
      | error cause => exact ⟨_, exec_bind_of_ok (exec_readText hfound) _⟩
      | ok text =>
          simp only [hfound, Option.map_eq_none_iff] at h
          refine ⟨.parsingSettings path, ?_⟩
          simp only [exec_bind_of_ok (exec_readText hfound), h]
          rfl

/-! ## Assembling a file -/

variable {path source : String}

theorem exec_assembleFile_unreadable {cause : FileError}
    (h : world.files.readText path = .error cause) (settings : Settings) :
    exec (assembleFile settings path) world = (.error (.reading path cause), world) := by
  rw [assembleFile, exec_bind_of_ok (exec_readText h)]
  rfl

theorem exec_assembleFile (hread : world.files.readText path = .ok source)
    (settings : Settings) :
    ∃ events, exec (assembleFile settings path) world
      = ((settings.encoder.assemble settings.policy source).mapError (.assembling path),
        { world with events }) := by
  rw [assembleFile, exec_bind_of_ok (exec_readText hread), Encoder.assemble]
  simp only [exec_bind_of_ok (exec_log _ _)]
  cases (settings.encoder.assembleLogged settings.policy source).result <;> exact ⟨_, rfl⟩

/-! ## Writing listings -/

variable {files : FileTree}

theorem exec_writeListing {format : Format} {words : List Word}
    (h : world.files.writeText path (Listing.render format words) = .ok files) :
    exec (writeListing path format words) world
      = (.ok (), { world with files, events := world.events ++ [.wrote path format] }) := by
  rw [writeListing, exec_bind_of_ok (exec_writeText h)]
  rfl

/-- The listings of an image as texts. -/
def rendered (listings : List (String × Format)) (words : List Word) : List (String × String) :=
  listings.map fun (path, format) => (path, Listing.render format words)

theorem exec_writeListings (world : World) {listings : List (String × Format)}
    {words : List Word} (h : world.files.writeTexts (rendered listings words) = .ok files) :
    ∃ events, exec (listings.forM fun (path, format) => writeListing path format words) world
      = (.ok (), { world with files, events }) := by
  induction listings generalizing world with
  | nil =>
      cases h
      exact ⟨_, rfl⟩
  | cons listing rest ih =>
      obtain ⟨path, format⟩ := listing
      obtain ⟨next, hwrite, hrest⟩ := FileTree.writeTexts_cons.mp h
      obtain ⟨events, hexec⟩ := ih ⟨next, world.output, _⟩ hrest
      exact ⟨events, (exec_bind_of_ok (exec_writeListing hwrite) _).trans hexec⟩

/-- The listings that a run is to write. -/
def listings (options : Options) (settings : Settings) : List (String × Format) :=
  match options.input?, options.output? with
  | none, _ => defaultListings
  | some _, some output => [(output, settings.format)]
  | some _, none => []

/-- What a run is to print. -/
def printed (options : Options) (settings : Settings) (words : List Word) : String :=
  match options.input?, options.output? with
  | some _, none => Listing.render settings.format words
  | _, _ => ""

theorem exec_emit (world : World) {words : List Word}
    (h : world.files.writeTexts (rendered (listings options settings) words) = .ok files) :
    ∃ events, exec (emit options settings words) world
      = (.ok (), ⟨files, world.output ++ printed options settings words, events⟩) := by
  rw [listings] at h
  rw [emit, printed]
  cases hinput : options.input? with
  | none =>
      rw [hinput] at h
      simp only [String.append_empty]
      exact exec_writeListings world h
  | some input =>
      cases houtput : options.output? with
      | none =>
          rw [hinput, houtput] at h
          cases h
          exact ⟨_, exec_print _ _⟩
      | some output =>
          simp only [hinput, houtput] at h
          simp only [String.append_empty]
          obtain ⟨next, hwrite, hnext⟩ := FileTree.writeTexts_cons.mp h
          cases hnext
          exact ⟨_, exec_writeListing hwrite⟩

/-! ## The whole run -/

/-- A run that gives a listing fails only at the end, if lines failed. -/
theorem exec_execute (world : World) {image : Assembly}
    (hprint : options.printRevision = false)
    (hsettings : options.settings? world.files = some settings)
    (hread : world.files.readText options.inputPath = .ok source)
    (himage : settings.encoder.assemble settings.policy source = .ok image)
    (hfiles : world.files.writeTexts (rendered (listings options settings) image.words)
      = .ok files) :
    ∃ events, exec (execute options) world
      = (if image.errors.length = 0 then .ok () else .error (.failedLines image.errors.length),
        ⟨files, world.output ++ printed options settings image.words, events⟩) := by
  obtain ⟨read, hassembled⟩ := exec_assembleFile hread settings
  rw [himage] at hassembled
  obtain ⟨events, hemit⟩ := exec_emit { world with events := read } hfiles
  refine ⟨events, ?_⟩
  rw [execute, exec_bind_of_ok (exec_loadSettings_world world hsettings), hprint,
    if_neg Bool.false_ne_true, ← Options.inputPath, exec_bind_of_ok hassembled,
    exec_bind_of_ok hemit]
  by_cases herrors : image.errors.length = 0
  · simp only [herrors]
    rfl
  · simp only [ne_eq, herrors, not_false_eq_true, if_true, if_false]
    rfl

end Program

end LineAsm
