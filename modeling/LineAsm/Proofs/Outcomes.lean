import LineAsm.Proofs.Execution

/-!
# The outcome of a run

A run without obstruction has settings, a source and an image of it
(`Options.image_of_not_obstructed`); with one it fails before anything
is printed or written (`exec_execute_obstructed`). Without one all that
is left to fail is the writing, which the files rule out beforehand: each
output can be written if it could be written at first
(`FileTree.exists_writeTexts`). That lines have failed is noticed at the very
end, when the listing is where it belongs.

A run that prints the tables of a revision reads its settings at most.
To see this it is run by a host that keeps the paths of what is read and
leaves everything to a world (`World.watch`).
-/

namespace LineAsm

namespace Options

/-! ## Arguments -/

theorem exists_of_bind_ok {ε α β : Type} {result : Except ε α} {next : α → Except ε β} {b : β}
    (h : (result >>= next) = .ok b) : ∃ a, result = .ok a ∧ next a = .ok b := by
  cases result with
  | error e => cases h
  | ok a => exact ⟨a, rfl, h⟩

theorem output?_of_places {groups : List Argument} {output? : Option String}
    (h : places groups = .ok (none, output?)) : output? = none := by
  rw [places] at h
  split at h <;> cases h
  rfl

/-- There is no output without an input. -/
theorem output?_of_ofGroups {groups : List Argument} {options : Options}
    (h : ofGroups groups = .ok options) (hinput : options.input? = none) :
    options.output? = none := by
  obtain ⟨format?, -, h⟩ := exists_of_bind_ok h
  obtain ⟨revision?, -, h⟩ := exists_of_bind_ok h
  obtain ⟨config?, -, h⟩ := exists_of_bind_ok h
  obtain ⟨strict?, -, h⟩ := exists_of_bind_ok h
  obtain ⟨keepGoing?, -, h⟩ := exists_of_bind_ok h
  obtain ⟨printRevision?, -, h⟩ := exists_of_bind_ok h
  obtain ⟨⟨input?, output?⟩, hplaces, h⟩ := exists_of_bind_ok h
  cases h
  cases hinput
  exact output?_of_places hplaces

theorem ofGroups_of_parse {arguments : List String} {options : Options}
    (h : parse arguments = .ok (.run options)) :
    ∃ groups, Argument.groups arguments = .ok (groups, none) ∧ ofGroups groups = .ok options := by
  obtain ⟨⟨groups, notice?⟩, hgroups, h⟩ := exists_of_bind_ok h
  obtain ⟨options', hoptions, h⟩ := exists_of_bind_ok h
  cases notice? with
  | some notice => cases h
  | none =>
      cases h
      exact ⟨groups, hgroups, hoptions⟩

/-- The paths of the files that a run is to write. -/
def outputs (options : Options) : List String :=
  match options.input?, options.output? with
  | none, _ => Program.defaultListings.map Prod.fst
  | some _, some output => [output]
  | some _, none => []

/-! ## Obstructions -/

/-- What keeps a run from giving a listing: settings that cannot be
loaded, an input that cannot be read as a text, or a line that fails
under the policy to abort. -/
inductive Obstructed (options : Options) (files : FileTree) : Prop where
  | settings (h : options.settings? files = none)
  | input (cause : FileError) (h : files.readText options.inputPath = .error cause)
  | line (settings : Settings) (source text : String)
      (hsettings : options.settings? files = some settings)
      (hread : files.readText options.inputPath = .ok source)
      (hpolicy : settings.policy = .abort) (htext : text ∈ Text.lines source)
      (hfails : settings.encoder.fails text = true)

theorem image_of_not_obstructed {options : Options} {files : FileTree}
    (h : ¬ options.Obstructed files) :
    ∃ settings source, options.settings? files = some settings
      ∧ files.readText options.inputPath = .ok source
      ∧ settings.encoder.assemble settings.policy source
          = .ok (settings.encoder.contributions 1 (Text.lines source)) := by
  cases hsettings : options.settings? files with
  | none => exact absurd (.settings hsettings) h
  | some settings =>
      cases hread : files.readText options.inputPath with
      | error cause => exact absurd (.input cause hread) h
      | ok source =>
          refine ⟨settings, source, rfl, rfl,
            Encoder.assemble_of_policy fun hpolicy text htext => ?_⟩
          refine Bool.eq_false_iff.mpr fun hfails => h ?_
          exact .line settings source text hsettings hread hpolicy htext hfails

end Options

/-! ## From programs to outcomes -/

def Outcome.ofResult : Except Failure Unit → Outcome
  | .ok () => .done
  | .error failure => .failed failure

theorem Outcome.exitCode_failedLines (count : Nat) {outcome : Outcome}
    (h : outcome = .ofResult (if count = 0 then .ok () else .error (.failedLines count))) :
    (outcome.exitCode = 0 ↔ count = 0)
    ∧ (outcome.exitCode ≠ 0 → outcome.exitCode = 1 ∧ ∃ failure, outcome = .failed failure
        ∧ failure.message = count.repr ++ " line(s) failed to encode") := by
  by_cases hcount : count = 0
  · rw [if_pos hcount] at h
    subst h
    exact ⟨iff_of_true rfl hcount, fun hne => absurd rfl hne⟩
  · rw [if_neg hcount] at h
    subst h
    exact ⟨iff_of_false Nat.one_ne_zero hcount, fun _ => ⟨rfl, _, rfl, rfl⟩⟩

namespace Program

variable {options : Options} {settings : Settings}

theorem run_of_exec {σ : Type} [Host (StateM σ)] {arguments : List String}
    (hparse : Options.parse arguments = .ok (.run options)) {state after : σ}
    {result : Except Failure Unit} (h : exec (execute options) state = (result, after)) :
    (run arguments : StateM σ Outcome).run state = (Outcome.ofResult result, after) := by
  rw [exec] at h
  simp only [run, hparse, StateT.run_bind, h]
  cases result <;> rfl

theorem exec_execute_obstructed (world : World) (hprint : options.printRevision = false)
    (h : options.Obstructed world.files) :
    ∃ failure events, exec (execute options) world = (.error failure, { world with events }) := by
  rw [execute]
  cases hsettings : options.settings? world.files with
  | none =>
      obtain ⟨failure, hload⟩ := exec_loadSettings_fails hsettings
      exact ⟨failure, world.events, exec_bind_of_error hload _⟩
  | some settings =>
      rw [exec_bind_of_ok (exec_loadSettings_world world hsettings), hprint,
        if_neg Bool.false_ne_true, ← Options.inputPath]
      cases h with
      | settings h =>
          rw [hsettings] at h
          cases h
      | input cause hread =>
          exact ⟨_, world.events, exec_bind_of_error (exec_assembleFile_unreadable hread _) _⟩
      | line settings' source text hsettings' hread hpolicy htext hfails =>
          cases hsettings.symm.trans hsettings'
          obtain ⟨e, he⟩ := Encoder.assembleLines_abort_of_fails htext hfails 1
          obtain ⟨events, hassembled⟩ := exec_assembleFile hread settings
          rw [hpolicy, Encoder.assemble, Encoder.assembleLogged, he] at hassembled
          exact ⟨_, events, exec_bind_of_error hassembled _⟩

theorem exec_execute_print {σ : Type} [Host (StateM σ)] {state after : σ}
    (hprint : options.printRevision = true)
    (hload : exec (loadSettings options) state = (.ok settings, after)) :
    exec (execute options) state
      = exec (Host.print (settings.encoder.revision.toJson.pretty ++ "\n")) after := by
  rw [execute, exec_bind_of_ok hload, if_pos hprint]

/-! ## Outputs -/

theorem map_fst_rendered (options : Options) (settings : Settings) (words : List Word) :
    (rendered (listings options settings) words).map Prod.fst = options.outputs := by
  rw [rendered, List.map_map, listings, Options.outputs]
  cases options.input? <;> cases options.output? <;> rfl

theorem writable_rendered {files : FileTree}
    (hwritable : ∀ path ∈ options.outputs, files.Writable path) (settings : Settings)
    (words : List Word) :
    ∀ text ∈ rendered (listings options settings) words, files.Writable text.1 := by
  intro text htext
  refine hwritable _ ?_
  rw [← map_fst_rendered options settings words]
  exact List.mem_map_of_mem htext

end Program

/-! ## What is read -/

/-- A world, with the paths of the files that were read in it. -/
structure Watched where
  world : World
  reads : List String := []
  deriving Repr, DecidableEq

/-- Leaves an action to the world. -/
def Watched.forward {α : Type} (action : StateM World α) : StateM Watched α := fun watched =>
  let (value, world) := action.run watched.world
  (value, { watched with world })

instance : Host (StateM Watched) where
  readText path := do
    modify fun watched => { watched with reads := watched.reads ++ [path] }
    Watched.forward (Host.readText path)
  writeText path text := Watched.forward (Host.writeText path text)
  print text := Watched.forward (Host.print text)
  log events := Watched.forward (Host.log events)

/-- A run, with the paths of the files that it reads. -/
def World.watch (world : World) (arguments : List String) : Outcome × Watched :=
  (Program.run arguments : StateM Watched Outcome).run { world }

theorem Program.exec_print_watched (watched : Watched) (text : String) :
    exec (Host.print text) watched
      = (.ok (), ⟨{ watched.world with output := watched.world.output ++ text },
          watched.reads⟩) := rfl

theorem Program.exec_loadSettings_watched {options : Options} {settings : Settings}
    (watched : Watched) (h : options.settings? watched.world.files = some settings) :
    exec (loadSettings options) watched
      = (.ok settings, { watched with reads := watched.reads ++ options.config?.toList }) := by
  refine exec_loadSettings (fun hnone => ?_) (fun path hsome => ?_) h
  · rw [hnone, Option.toList_none, List.append_nil]
  · rw [hsome]
    rfl

/-! ## Runs -/

namespace World

variable {options : Options} {arguments : List String} {files : FileTree}

theorem run_obstructed (hparse : Options.parse arguments = .ok (.run options))
    (hprint : options.printRevision = false) (h : options.Obstructed files) :
    ∃ failure events, World.run { files } arguments = (.failed failure, { files, events }) := by
  obtain ⟨failure, events, hexec⟩ := Program.exec_execute_obstructed { files } hprint h
  exact ⟨failure, events, Program.run_of_exec hparse hexec⟩

theorem run_unobstructed (hparse : Options.parse arguments = .ok (.run options))
    (hprint : options.printRevision = false) (h : ¬ options.Obstructed files)
    (hwritable : ∀ path ∈ options.outputs, files.Writable path) :
    ∃ (settings : Settings) (source : String) (image : Assembly) (after : FileTree)
        (events : List Event), options.settings? files = some settings
      ∧ files.readText options.inputPath = .ok source
      ∧ settings.encoder.assemble settings.policy source = .ok image
      ∧ image = settings.encoder.contributions 1 (Text.lines source)
      ∧ files.writeTexts (Program.rendered (Program.listings options settings) image.words)
          = .ok after
      ∧ World.run { files } arguments
          = (.ofResult (if image.errors.length = 0 then .ok ()
              else .error (.failedLines image.errors.length)),
            ⟨after, Program.printed options settings image.words, events⟩) := by
  obtain ⟨settings, source, hsettings, hread, himage⟩ := Options.image_of_not_obstructed h
  obtain ⟨after, hwrite⟩ := FileTree.exists_writeTexts (Program.writable_rendered hwritable settings
    (settings.encoder.contributions 1 (Text.lines source)).words)
  obtain ⟨events, hexec⟩ := Program.exec_execute { files } hprint hsettings hread himage hwrite
  refine ⟨settings, source, _, after, events, hsettings, hread, himage, rfl, hwrite, ?_⟩
  rw [String.empty_append] at hexec
  exact Program.run_of_exec hparse hexec

theorem run_print {settings : Settings} (hparse : Options.parse arguments = .ok (.run options))
    (hprint : options.printRevision = true)
    (hsettings : options.settings? files = some settings) :
    World.run { files } arguments
      = (.done, { files, output := settings.encoder.revision.toJson.pretty ++ "\n" }) := by
  have hload := Program.exec_loadSettings_world { files } hsettings
  have hexec := Program.exec_execute_print hprint hload
  rw [Program.exec_print, String.empty_append] at hexec
  exact Program.run_of_exec hparse hexec

theorem watch_print {settings : Settings} (hparse : Options.parse arguments = .ok (.run options))
    (hprint : options.printRevision = true)
    (hsettings : options.settings? files = some settings) :
    World.watch { files } arguments
      = (.done, ⟨{ files, output := settings.encoder.revision.toJson.pretty ++ "\n" },
          options.config?.toList⟩) := by
  have hload := Program.exec_loadSettings_watched ⟨{ files }, []⟩ hsettings
  have hexec := Program.exec_execute_print hprint hload
  rw [Program.exec_print_watched, String.empty_append, List.nil_append] at hexec
  exact Program.run_of_exec hparse hexec

/-- **What a run does**, for all arguments that are accepted and all
files. If something is in the way, it fails with nothing printed and no
file changed. If not, and the outputs can be written, there is an image
of the source with a word for each line, zero for those that fail. Its
listing goes to the output and nothing else changes; without an output
it is printed; without an input two listings of it go to two files,
whatever the format, or the second of them alone is left if their paths
lead to one file. The run is done if no line failed, and else it fails
with the number of lines that did. A run that prints the tables of its
revision reads no file but that of its settings. -/
theorem run_effects (hparse : Options.parse arguments = .ok (.run options)) (files : FileTree) :
    ∃ outcome after, World.run { files } arguments = (outcome, after)
      ∧ (options.printRevision = false → options.Obstructed files →
          outcome.exitCode = 1 ∧ after.output = "" ∧ after.files = files)
      ∧ (options.printRevision = false → ¬ options.Obstructed files →
          (∀ path ∈ options.outputs, files.Writable path) →
          ∃ settings source image, options.settings? files = some settings
            ∧ files.readText options.inputPath = .ok source
            ∧ settings.encoder.assemble settings.policy source = .ok image
            ∧ image.words = (Text.lines source).map settings.encoder.lineWord
            ∧ (∀ output, options.output? = some output →
                after.output = ""
                ∧ files.Written after.files
                    [(output, Listing.render settings.format image.words)])
            ∧ (∀ input, options.input? = some input → options.output? = none →
                after.output = Listing.render settings.format image.words
                ∧ after.files = files)
            ∧ (options.input? = none →
                after.output = ""
                ∧ (files.Apart "out.vhdl" "out.txt" →
                    files.Written after.files
                      [("out.vhdl", Listing.render .vhdl image.words),
                        ("out.txt", Listing.render .bin image.words)])
                ∧ (¬ files.Apart "out.vhdl" "out.txt" →
                    files.Written after.files [("out.txt", Listing.render .bin image.words)]))
            ∧ (outcome.exitCode = 0
                ↔ ∀ text ∈ Text.lines source, settings.encoder.fails text = false)
            ∧ (outcome.exitCode ≠ 0 → outcome.exitCode = 1 ∧ ∃ failure, outcome = .failed failure
                ∧ failure.message = ((Text.lines source).countP settings.encoder.fails).repr
                    ++ " line(s) failed to encode"))
      ∧ (options.printRevision = true → ∀ settings, options.settings? files = some settings →
          outcome.exitCode = 0 ∧ after.files = files
          ∧ after.output = settings.encoder.revision.toJson.pretty ++ "\n"
          ∧ World.watch { files } arguments = (outcome, ⟨after, options.config?.toList⟩)) := by
  cases hrun : World.run { files } arguments with | mk outcome after => ?_
  refine ⟨outcome, after, rfl, fun hprint h => ?_, fun hprint h hwritable => ?_,
    fun hprint settings hsettings => ?_⟩
  · obtain ⟨failure, events, hrun'⟩ := run_obstructed hparse hprint h
    cases hrun.symm.trans hrun'
    exact ⟨rfl, rfl, rfl⟩
  · obtain ⟨settings, source, image, files', events, hsettings, hread, himage, rfl, hwrite,
      hrun'⟩ := run_unobstructed hparse hprint h hwritable
    obtain ⟨rfl, rfl⟩ := Prod.mk.inj (hrun.symm.trans hrun')
    have hcount := settings.encoder.length_errors_contributions 1 (Text.lines source)
    have hall := Program.writable_rendered hwritable settings
      (settings.encoder.contributions 1 (Text.lines source)).words
    obtain ⟨hzero, hmessage⟩ := Outcome.exitCode_failedLines _ rfl
    refine ⟨settings, source, _, hsettings, hread, himage, rfl, fun output houtput => ?_,
      fun input hinput houtput => ?_, fun hinput => ?_, ?_, ?_⟩
    · cases hinput : options.input? with
      | none =>
          obtain ⟨groups, -, hoptions⟩ := Options.ofGroups_of_parse hparse
          rw [Options.output?_of_ofGroups hoptions hinput] at houtput
          cases houtput
      | some input =>
          simp only [Program.rendered, Program.listings, hinput, houtput] at hall hwrite
          exact ⟨by rw [Program.printed, hinput, houtput],
            (FileTree.Written.nothing files).writeTexts hall hwrite (List.pairwise_singleton _ _)⟩
    · rw [Program.rendered, Program.listings, hinput, houtput] at hwrite
      cases hwrite
      exact ⟨by rw [Program.printed, hinput, houtput], rfl⟩
    · rw [Program.rendered, Program.listings, hinput] at hall hwrite
      refine ⟨by rw [Program.printed, hinput], fun hapart => ?_, fun hsame => ?_⟩
      · exact (FileTree.Written.nothing files).writeTexts hall hwrite
          (List.pairwise_pair.mpr hapart)
      · exact .of_not_apart (hall _ (.head _)) (hall _ (.tail _ (.head _))) hsame hwrite
    · rw [hzero, hcount, List.countP_eq_zero]
      refine forall₂_congr fun text _ => ?_
      rw [Bool.not_eq_true]
    · rw [← hcount]
      exact hmessage
  · cases hrun.symm.trans (run_print hparse hprint hsettings)
    exact ⟨rfl, rfl, rfl, watch_print hparse hprint hsettings⟩

/-- A source outside the working directory, and an earlier listing behind a link. -/
def scattered : FileTree where
  entries := [(["src"], .directory), (["src", "in.asm"], .file 0),
    (["work"], .directory), (["work", "out.hex"], .link "../listings/out.hex"),
    (["listings"], .directory), (["listings", "out.hex"], .file 1)]
  contents := [(0, .text "di,7\ndi,x\n"), (1, .text "0x1\n")]
  working := ["work"]

/-- A source whose second line fails, assembled over an earlier listing. -/
theorem run_effects_keep_going :
    Options.parse ["/src/in.asm", "out.hex", "--keep-going"]
        = .ok (.run
            { input? := some "/src/in.asm", output? := some "out.hex", keepGoing := true })
    ∧ ∃ outcome after,
      World.run { files := scattered } ["/src/in.asm", "out.hex", "--keep-going"] = (outcome, after)
      ∧ after.output = ""
      ∧ after.files.readText "out.hex" = .ok "0x7\n0x0\n"
      ∧ after.files.contentAt? ["listings", "out.hex"] = some (.text "0x7\n0x0\n")
      ∧ outcome.exitCode = 1
      ∧ ∃ failure, outcome = .failed failure
          ∧ failure.message = "1 line(s) failed to encode" := by
  have hgroups : Argument.groups ["/src/in.asm", "out.hex", "--keep-going"]
      = .ok ([.positional "/src/in.asm", .positional "out.hex", .keepGoing], none) := by
    have hinput : Argument.form "/src/in.asm" = .ok (.complete (.positional "/src/in.asm")) := rfl
    have houtput : Argument.form "out.hex" = .ok (.complete (.positional "out.hex")) := rfl
    have hflag : Argument.form "--keep-going" = .ok (.complete .keepGoing) := rfl
    simp [Argument.groups, hinput, houtput, hflag, bind, Except.bind, pure, Except.pure]
  have hparse : Options.parse ["/src/in.asm", "out.hex", "--keep-going"]
      = .ok (.run
          { input? := some "/src/in.asm", output? := some "out.hex", keepGoing := true }) := by
    rw [Options.parse, hgroups]
    rfl
  have hlocate : scattered.locate .write "out.hex" = .ok ["listings", "out.hex"] := rfl
  obtain ⟨outcome, after, hrun, -, hgives, -⟩ := run_effects hparse scattered
  obtain ⟨settings, source, image, hsettings, hread, -, hwords, houtput, -, -, hzero, hone⟩ :=
    hgives rfl
      (by
        rintro (h | ⟨cause, h⟩ | ⟨settings, source, text, hsettings, -, hpolicy, -, -⟩)
        · cases h
        · cases h
        · cases hsettings
          cases hpolicy)
      (by
        rintro path (_ | ⟨_, ⟨⟩⟩)
        exact FileTree.writable_iff.mpr ⟨_, hlocate, by decide⟩)
  cases hsettings
  cases hread
  obtain ⟨hprinted, hwritten⟩ := houtput "out.hex" rfl
  have hlisting : Listing.render .hex image.words = "0x7\n0x0\n" := by
    rw [hwords]
    decide
  have hmem := List.mem_singleton_self ("out.hex", Listing.render .hex image.words)
  obtain ⟨hexit, failure, hfailure, hmessage⟩ := hone (by
    rw [Ne, hzero]
    decide)
  refine ⟨hparse, outcome, after, hrun, hprinted, ?_, ?_, hexit, failure, hfailure,
    hmessage.trans (by decide)⟩
  · rw [← hlisting]
    exact hwritten.reads _ _ hmem
  · rw [← hlisting]
    exact hwritten.holds _ _ _ hmem ⟨_, hlocate, .inl rfl⟩

end World

end LineAsm
