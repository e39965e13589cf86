import LineAsm.Proofs.Outcomes

/-!
# A log behind a threshold

A threshold says which events of a log are shown. Here it is put where a
run meets it, into the host: a `Screened` world takes in only the events
that its threshold shows and is otherwise the world that it holds. A run
in it does what the run without a threshold does, with the same outcome,
files and output, and its log is what the threshold shows of the full
one (`World.run_screened`).

A run never looks at its log, so the two runs stay together step by
step. `Program.Follows` says so of two programs; it holds of the four
requests to a host and goes along sequences (`follows_bind`), and the
parts of a run are followed by their text.
-/

namespace LineAsm

/-! ## What a threshold shows -/

namespace Threshold

/-- The events that the threshold shows, in their order. -/
def shown (threshold : Threshold) (events : List Event) : List Event :=
  events.filter (threshold.shows ·.level)

theorem shown_append (threshold : Threshold) (before after : List Event) :
    threshold.shown (before ++ after) = threshold.shown before ++ threshold.shown after :=
  List.filter_append ..

theorem shown_trace (events : List Event) : trace.shown events = events := by
  unfold shown
  rw [List.filter_eq_self]
  intro e _
  cases e <;> rfl

/-- A lower threshold takes events away from what a higher one shows. -/
theorem shown_shown {low high : Threshold} (h : low.rank ≤ high.rank) (events : List Event) :
    low.shown (high.shown events) = low.shown events := by
  unfold shown
  rw [List.filter_filter]
  refine List.filter_congr fun e _ => ?_
  rw [Bool.and_eq_left_iff_imp]
  intro hlow
  simp only [shows, decide_eq_true_eq] at hlow ⊢
  exact Nat.le_trans hlow h

end Threshold

/-! ## The host -/

/-- A world whose log takes in only what a threshold shows. -/
structure Screened where
  threshold : Threshold
  world : World
  deriving Repr, DecidableEq

/-- Leaves an action to the world. -/
def Screened.forward {α : Type} (action : StateM World α) : StateM Screened α := fun screened =>
  let (value, world) := action.run screened.world
  (value, { screened with world })

instance : Host (StateM Screened) where
  readText path := Screened.forward (Host.readText path)
  writeText path text := Screened.forward (Host.writeText path text)
  print text := Screened.forward (Host.print text)
  log events := do
    let screened ← get
    Screened.forward (Host.log (screened.threshold.shown events))

/-- The world with its log as the threshold shows it. -/
def World.screen (threshold : Threshold) (world : World) : Screened :=
  ⟨threshold, { world with events := threshold.shown world.events }⟩

namespace Program

variable {α β : Type}

/-- The second program does in a screened world what the first one does in
the world as it is. -/
def Follows (program : ExceptT Failure (StateM World) α)
    (screened : ExceptT Failure (StateM Screened) α) : Prop :=
  ∀ (threshold : Threshold) (world : World),
    exec screened (world.screen threshold)
      = ((exec program world).1, (exec program world).2.screen threshold)

theorem follows_pure (a : α) : Follows (pure a) (pure a) := fun _ _ => rfl

theorem follows_throw (failure : Failure) :
    Follows (throw failure : ExceptT Failure (StateM World) α) (throw failure) :=
  fun _ _ => rfl

theorem follows_bind {program : ExceptT Failure (StateM World) α}
    {screened : ExceptT Failure (StateM Screened) α}
    {next : α → ExceptT Failure (StateM World) β} {next' : α → ExceptT Failure (StateM Screened) β}
    (hfirst : Follows program screened) (hnext : ∀ a, Follows (next a) (next' a)) :
    Follows (program >>= next) (screened >>= next') := by
  intro threshold world
  have hstep := hfirst threshold world
  rcases hexec : exec program world with ⟨result, after⟩
  rw [hexec] at hstep
  cases result with
  | error failure => rw [exec_bind_of_error hexec, exec_bind_of_error hstep]
  | ok a =>
      rw [exec_bind_of_ok hexec, exec_bind_of_ok hstep]
      exact hnext a threshold after

/-! ## Requests -/

theorem follows_readText (path : String) : Follows (Host.readText path) (Host.readText path) :=
  fun _ _ => rfl

theorem run_writeText (world : World) (path text : String) :
    (Host.writeText path text : StateM World (Except FileError Unit)).run world
      = match world.files.writeText path text with
        | .error cause => (.error cause, world)
        | .ok files => (.ok (), { world with files }) := by
  simp only [Host.writeText, StateT.run_bind, StateT.run_get, pure_bind]
  cases world.files.writeText path text <;> rfl

theorem follows_writeText (path text : String) :
    Follows (Host.writeText path text) (Host.writeText path text) := by
  intro threshold world
  have hworld : ∀ world : World, exec (Host.writeText path text) world
      = Prod.map .ok id
          ((Host.writeText path text : StateM World (Except FileError Unit)).run world) :=
    fun _ => rfl
  have hscreened : ∀ screened : Screened, exec (Host.writeText path text) screened
      = Prod.map .ok (Screened.mk screened.threshold)
          ((Host.writeText path text : StateM World (Except FileError Unit)).run
            screened.world) :=
    fun _ => rfl
  rw [hscreened, hworld, run_writeText, run_writeText]
  -- The files decide whether the text can be written, and they are the same.
  show Prod.map _ _ (match world.files.writeText path text with
    | .error cause => _
    | .ok files => _) = _
  cases world.files.writeText path text <;> rfl

theorem follows_print (text : String) : Follows (Host.print text) (Host.print text) :=
  fun _ _ => rfl

theorem follows_log (events : List Event) : Follows (Host.log events) (Host.log events) := by
  intro threshold world
  rw [exec_log, World.screen, World.screen, Threshold.shown_append]
  rfl

/-! ## The parts of a run -/

theorem follows_loadSettings (options : Options) :
    Follows (loadSettings options) (loadSettings options) := by
  unfold loadSettings
  split
  · exact follows_pure _
  · refine follows_bind (follows_readText _) fun found => ?_
    cases found with
    | error cause => exact follows_throw _
    | ok text =>
        dsimp only
        split
        · exact follows_throw _
        · exact follows_pure _

theorem follows_assembleFile (settings : Settings) (path : String) :
    Follows (assembleFile settings path) (assembleFile settings path) := by
  unfold assembleFile
  refine follows_bind (follows_readText path) fun found => ?_
  cases found with
  | error cause => exact follows_throw _
  | ok source =>
      refine follows_bind (follows_log _) fun _ => ?_
      split
      · exact follows_throw _
      · exact follows_bind (follows_log _) fun _ => follows_pure _

theorem follows_writeListing (path : String) (format : Format) (words : List Word) :
    Follows (writeListing path format words) (writeListing path format words) := by
  unfold writeListing
  refine follows_bind (follows_writeText path _) fun written => ?_
  cases written with
  | error cause => exact follows_throw _
  | ok _ => exact follows_log _

theorem follows_forM {program : β → ExceptT Failure (StateM World) Unit}
    {screened : β → ExceptT Failure (StateM Screened) Unit}
    (h : ∀ b, Follows (program b) (screened b)) :
    ∀ items : List β, Follows (items.forM program) (items.forM screened)
  | [] => follows_pure ()
  | b :: items => follows_bind (h b) fun _ => follows_forM h items

theorem follows_emit (options : Options) (settings : Settings) (words : List Word) :
    Follows (emit options settings words) (emit options settings words) := by
  unfold emit
  split
  · refine follows_forM (fun listing => ?_) _
    obtain ⟨path, format⟩ := listing
    exact follows_writeListing path format words
  · exact follows_writeListing _ _ _
  · exact follows_print _

theorem follows_execute (options : Options) :
    Follows (execute options) (execute options) := by
  unfold execute
  refine follows_bind (follows_loadSettings options) fun settings => ?_
  split
  · exact follows_print _
  · refine follows_bind (follows_assembleFile settings _) fun assembly => ?_
    refine follows_bind (follows_emit options settings _) fun _ => ?_
    dsimp only
    split
    · exact follows_throw _
    · exact follows_pure _

end Program

/-- A run behind a threshold has the outcome, the files and the output of the
run without one, and of its log what the threshold shows. -/
theorem World.run_screened (threshold : Threshold) (world : World) (arguments : List String) :
    (Program.run arguments : StateM Screened Outcome).run (world.screen threshold)
      = ((world.run arguments).1, (world.run arguments).2.screen threshold) := by
  cases hparse : Options.parse arguments with
  | error e =>
      simp only [World.run, Program.run, hparse]
      rfl
  | ok request =>
      cases request with
      | notice notice =>
          simp only [World.run, Program.run, hparse]
          rfl
      | run options =>
          have hscreened := Program.follows_execute options threshold world
          rcases hexec : Program.exec (Program.execute options) world with ⟨result, after⟩
          rw [hexec] at hscreened
          rw [World.run, Program.run_of_exec hparse hexec, Program.run_of_exec hparse hscreened]

end LineAsm
