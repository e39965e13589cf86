import LineAsm.Line.Fault

/-!
# Reading with warnings

Reading a line may fail, and may note warnings on the way. The notes go to a *sink*, which also holds
the mode: in lenient mode a warning is noted and reading goes on, in strict mode it is the failure.
What a failed reading noted stays noted, so that one sink can be passed on from line to line.

`Reading.runOn` is the one view of a reading, as a function on sinks, and the lemmas below say what
each building block is in that view. Proofs about readers go through them and never look inside the
monad.
-/

namespace LineAsm

/-- Where warnings go: a mode, and the warnings so far, oldest first. -/
structure Sink where
  mode : Mode
  warnings : List Warning
  deriving Repr, DecidableEq

def Sink.fresh (mode : Mode) : Sink := ⟨mode, []⟩

/-- A computation that may fail and note warnings. -/
abbrev Reading := ExceptT EncodeError (StateM Sink)

namespace Reading

/-- Notes a warning, or fails with it in strict mode. -/
def warn (warning : Warning) : Reading Unit := do
  let sink ← get
  match sink.mode with
  | .strict => throw (.rejected warning)
  | .lenient => set { sink with warnings := sink.warnings ++ [warning] }

/-- A value that was found, or else a warning and a value to go on with. -/
def orWarn {α : Type} (found? : Option α) (warning : Warning) (fallback : α) : Reading α :=
  match found? with
  | some found => pure found
  | none => do
    warn warning
    pure fallback

/-- A result that is known beforehand, and brings no warning. -/
def ofExcept {α : Type} : Except EncodeError α → Reading α
  | .ok value => pure value
  | .error e => throw e

/-- A token read as the subject. A fault is reported with the whole token. -/
def expect {α : Type} (subject : Subject) (token : String) (value : Except Reason α) : Reading α :=
  ofExcept (value.mapError (.unreadable subject token))

/-! ## Running -/

/-- Runs a reading on a sink: its result, and the sink afterwards. -/
def runOn {α : Type} (reading : Reading α) (sink : Sink) : Except EncodeError α × Sink :=
  reading.run.run sink

@[simp] theorem runOn_pure {α : Type} (a : α) (sink : Sink) :
    (pure a : Reading α).runOn sink = (.ok a, sink) := rfl

@[simp] theorem runOn_throw {α : Type} (e : EncodeError) (sink : Sink) :
    (throw e : Reading α).runOn sink = (.error e, sink) := rfl

/-- A sequence runs its second part on the sink of the first, unless the first fails. -/
theorem runOn_bind {α β : Type} (reading : Reading α) (next : α → Reading β) (sink : Sink) :
    (reading >>= next).runOn sink =
      match reading.runOn sink with
      | (.ok a, after) => (next a).runOn after
      | (.error e, after) => (.error e, after) := by
  simp only [runOn, ExceptT.run_bind, StateT.run_bind]
  generalize StateT.run (ExceptT.run reading) sink = outcome
  obtain ⟨result, after⟩ := outcome
  cases result <;> rfl

theorem runOn_map {α β : Type} (f : α → β) (reading : Reading α) (sink : Sink) :
    (f <$> reading).runOn sink = ((reading.runOn sink).1.map f, (reading.runOn sink).2) := by
  rw [map_eq_pure_bind, runOn_bind]
  obtain ⟨result, after⟩ := reading.runOn sink
  cases result <;> rfl

@[simp] theorem runOn_ofExcept {α : Type} (result : Except EncodeError α) (sink : Sink) :
    (ofExcept result).runOn sink = (result, sink) := by
  cases result <;> rfl

/-- A lenient sink takes the warning in. -/
@[simp] theorem runOn_warn_lenient (warning : Warning) (noted : List Warning) :
    (warn warning).runOn ⟨.lenient, noted⟩ = (.ok (), ⟨.lenient, noted ++ [warning]⟩) := rfl

/-- A strict sink stays as it is, and the warning becomes the failure. -/
@[simp] theorem runOn_warn_strict (warning : Warning) (noted : List Warning) :
    (warn warning).runOn ⟨.strict, noted⟩ = (.error (.rejected warning), ⟨.strict, noted⟩) := rfl

end Reading

end LineAsm
