import LineAsm.Proofs.Extension

/-!
# Many lines on one sink

A sink can be passed on from line to line, and a caller may collect the
warnings of many lines in one. Reading a line neither looks at what the
sink has taken in before nor takes any of it away. So a call gives on a
shared sink what it gives on a fresh one, and adds to the sink what a
fresh one would hold afterwards (`Call.runOn_shared`). By induction over
the calls, the sink then holds the warnings of all calls in their order
(`Call.runAll_eq`), whatever the revisions of the calls, and also if some
of them fail: what a failed call has added are the warnings of its
tokens up to the one that it failed at.
-/

namespace LineAsm

variable {α : Type}

/-- A reading leaves on a sink that holds warnings what it leaves on a
fresh one, after these warnings. -/
theorem Reading.Denotes.runOn_shared {reading : Reading α} {o : Finding α}
    (h : Denotes reading o) (mode : Mode) (noted : List Warning) :
    reading.runOn ⟨mode, noted⟩
      = ((reading.runOn (.fresh mode)).1,
          ⟨mode, noted ++ (reading.runOn (.fresh mode)).2.warnings⟩) := by
  rw [h, h]
  obtain ⟨result, ws⟩ := o
  cases mode with
  | lenient => rfl
  | strict => cases ws <;> simp [Finding.onSink, Sink.fresh]

/-- A call of the line reader. -/
structure Call where
  revision : Revision
  tokens : List String

namespace Call

/-- The result of the call, and the sink as the call leaves it. -/
def runOn (call : Call) (sink : Sink) : Except EncodeError Line × Sink :=
  (Line.read call.revision.isa call.tokens).runOn sink

/-- Calls one after the other, each on the sink that the one before it
has left. -/
def runAll : List Call → Sink → List (Except EncodeError Line × Sink)
  | [], _ => []
  | call :: rest, sink => call.runOn sink :: runAll rest (call.runOn sink).2

/-- The result of the call on a sink of its own. -/
def ownResult (mode : Mode) (call : Call) : Except EncodeError Line :=
  (call.runOn (.fresh mode)).1

/-- What a sink of its own holds after the call. -/
def ownWarnings (mode : Mode) (call : Call) : List Warning :=
  (call.runOn (.fresh mode)).2.warnings

/-- One call on a sink that is already in use. -/
theorem runOn_shared (call : Call) (mode : Mode) (noted : List Warning) :
    call.runOn ⟨mode, noted⟩ = (call.ownResult mode, ⟨mode, noted ++ call.ownWarnings mode⟩) :=
  (Line.read_denotes call.revision.isa call.tokens).runOn_shared mode noted

theorem ownWarnings_strict (call : Call) : call.ownWarnings .strict = [] := by
  rw [ownWarnings, runOn, Sink.fresh,
    (Line.read_denotes call.revision.isa call.tokens).strict_sink]

theorem runAll_eq (mode : Mode) (calls : List Call) (noted : List Warning) :
    runAll calls ⟨mode, noted⟩ = calls.mapIdx fun i call =>
      (call.ownResult mode,
        ⟨mode, noted ++ (calls.take (i + 1)).flatMap (ownWarnings mode)⟩) := by
  induction calls generalizing noted with
  | nil => rfl
  | cons call rest ih =>
      rw [runAll, runOn_shared, ih, List.mapIdx_cons]
      simp [List.append_assoc]

/-- **A shared sink changes nothing and loses nothing.** For calls on one
sink, each result is the one on a sink of its own, and after each call
the sink holds what the own sinks of all calls so far would hold, in the
order of the calls. A strict sink is empty after every call. A call that
fails does so at one of its tokens, and has added the warnings of the
tokens before it. -/
theorem runAll_fresh (mode : Mode) (calls : List Call) :
    runAll calls (.fresh mode)
        = calls.mapIdx (fun i call =>
          (call.ownResult mode, ⟨mode, (calls.take (i + 1)).flatMap (ownWarnings mode)⟩))
    ∧ (∀ outcome ∈ runAll calls (.fresh .strict), outcome.2.warnings = [])
    ∧ ∀ call ∈ calls, ∀ e, call.ownResult mode = .error e →
      ∃ k < call.tokens.length,
        (∃ line, Call.ownResult mode ⟨call.revision, call.tokens.take k⟩ = .ok line)
        ∧ Call.ownResult mode ⟨call.revision, call.tokens.take (k + 1)⟩ = .error e
        ∧ call.ownWarnings mode
          = Call.ownWarnings mode ⟨call.revision, call.tokens.take k⟩ := by
  refine ⟨runAll_eq mode calls [], fun outcome houtcome => ?_, fun call _ e he => ?_⟩
  · rw [Sink.fresh, runAll_eq, List.mem_mapIdx] at houtcome
    obtain ⟨i, _, rfl⟩ := houtcome
    simp [ownWarnings_strict]
  · obtain ⟨k, hk, ⟨line, hreads⟩, hfails⟩ :=
      Line.exists_failing_token (Prod.ext he rfl : call.runOn (.fresh mode) = (.error e, _))
    exact ⟨k, hk, ⟨line, congrArg Prod.fst hreads⟩, congrArg Prod.fst hfails,
      congrArg (·.2.warnings) hreads.symm⟩

end Call

end LineAsm
