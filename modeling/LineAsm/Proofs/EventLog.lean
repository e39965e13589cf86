import LineAsm.Proofs.LogThreshold

/-!
# The log of an assembly

Assembling a source tells what happens twice, by the diagnostics of the
image and by the events of the log, and an aborted run gives up the one
and keeps the other. Both are made line by line: `lineEvents` is what a
line has to say to the log, and the log is what the lines that are
processed have to say (`assembleLines_events`), which are all lines or,
under the policy to abort, those before the first that fails.

So the two stories are compared for one line, where they agree by
looking at the two ways a line can end, and are then put together. The
order of the log is the order of the lines, and within a line its
warnings come first (`Event.Before`).
-/

namespace LineAsm

/-! ## Events as diagnostics -/

def Level.severity? : Level → Option Severity
  | .error => some .error
  | .warn => some .warning
  | .info | .debug => none

namespace Event

/-- The line that the event is about. -/
def line? : Event → Option Nat
  | .warned line _ | .encoded line _ | .failed line _ => some line
  | .assembled .. | .wrote .. => none

/-- The event as a diagnostic, if it is about a line and severe enough. -/
def diagnostic? (e : Event) : Option Diagnostic := do
  let line ← e.line?
  let severity ← e.level.severity?
  some ⟨line, severity, e.message⟩

/-- The first event is about an earlier line, or is a warning of the same
line. -/
def Before (e e' : Event) : Prop :=
  ∃ line line', e.line? = some line ∧ e'.line? = some line'
    ∧ (line < line' ∨ line = line' ∧ e.level = .warn)

end Event

namespace Encoder

/-! ## The events of a line -/

/-- What a line has to say to the log. -/
def lineEvents (encoder : Encoder) (line : Nat) (text : String) : List Event :=
  match encoder.encodeLine text with
  | .ok encoded => encoded.warnings.map (.warned line) ++ [.encoded line encoded.word]
  | .error cause => [.failed line cause]

theorem lineEvents_diagnostics (encoder : Encoder) (line : Nat) (text : String) :
    (encoder.lineEvents line text).filterMap Event.diagnostic?
      = encoder.lineDiagnostics line text := by
  unfold lineEvents lineDiagnostics
  cases encoder.encodeLine text with
  | error cause => rfl
  | ok encoded =>
      have hwarnings : (encoded.warnings.map (Event.warned line)).filterMap Event.diagnostic?
          = encoded.warnings.map fun w => ⟨line, .warning, w.message⟩ := by
        rw [List.filterMap_map, ← List.filterMap_eq_map]
        rfl
      rw [List.filterMap_append, hwarnings]
      exact List.append_nil _

theorem lineEvents_debug (encoder : Encoder) (line : Nat) (text : String) :
    (encoder.lineEvents line text).filter (·.level = .debug)
      = if encoder.fails text then [] else [.encoded line (encoder.lineWord text)] := by
  unfold lineEvents fails lineWord
  cases encoder.encodeLine text with
  | error cause => rfl
  | ok encoded =>
      have hwarnings : (encoded.warnings.map (Event.warned line)).filter (·.level = .debug)
          = [] := by
        rw [List.filter_eq_nil_iff]
        intro e he
        obtain ⟨warning, -, rfl⟩ := List.mem_map.mp he
        simp [Event.level]
      rw [List.filter_append, hwarnings]
      rfl

theorem line?_of_mem_lineEvents {encoder : Encoder} {line : Nat} {text : String} {e : Event}
    (h : e ∈ encoder.lineEvents line text) : e.line? = some line := by
  unfold lineEvents at h
  split at h
  · rcases List.mem_append.mp h with h | h
    · obtain ⟨warning, -, rfl⟩ := List.mem_map.mp h
      rfl
    · rw [List.mem_singleton.mp h]
      rfl
  · rw [List.mem_singleton.mp h]
    rfl

/-- The warnings of a line come before all else about it. -/
theorem lineEvents_pairwise (encoder : Encoder) (line : Nat) (text : String) :
    (encoder.lineEvents line text).Pairwise Event.Before := by
  unfold lineEvents
  split
  · rename_i encoded _
    have hwarned : ∀ warning e, e.line? = some line →
        Event.Before (.warned line warning) e := by
      intro warning e he
      exact ⟨line, line, rfl, he, Or.inr ⟨rfl, rfl⟩⟩
    rw [List.pairwise_append]
    refine ⟨?_, List.pairwise_singleton _ _, ?_⟩
    · rw [List.pairwise_map]
      exact List.pairwise_of_forall fun warning warning' => hwarned warning _ rfl
    · intro e he e' he'
      obtain ⟨warning, -, rfl⟩ := List.mem_map.mp he
      rw [List.mem_singleton.mp he']
      exact hwarned warning _ rfl
  · exact List.pairwise_singleton _ _

/-! ## The events of several lines -/

/-- What lines have to say to the log, the first of which has the given
number. -/
def eventsOf (encoder : Encoder) (line : Nat) (texts : List String) : List Event :=
  (texts.mapIdx fun i text => encoder.lineEvents (i + line) text).flatten

theorem eventsOf_cons (encoder : Encoder) (line : Nat) (text : String) (rest : List String) :
    encoder.eventsOf line (text :: rest)
      = encoder.lineEvents line text ++ encoder.eventsOf (line + 1) rest := by
  simp [eventsOf, List.mapIdx_cons, Nat.add_comm, Nat.add_left_comm]

/-- The lines that are processed: all, or those before the first failing
one. -/
def processed (encoder : Encoder) : Policy → List String → List String
  | .continue, texts => texts
  | .abort, texts => texts.takeWhile fun text => !encoder.fails text

theorem processed_eq_take (encoder : Encoder) (policy : Policy) (texts : List String) :
    encoder.processed policy texts = texts.take (encoder.processed policy texts).length := by
  cases policy with
  | «continue» => exact (List.take_length ..).symm
  | abort => exact List.prefix_iff_eq_take.mp (List.takeWhile_prefix _)

theorem fails_eq_true_iff {encoder : Encoder} {text : String} :
    encoder.fails text = true ↔ ∃ cause, encoder.encodeLine text = .error cause := by
  unfold fails
  cases encoder.encodeLine text <;> simp [Except.isOk, Except.toBool]

theorem processed_cons_of_encoded {encoder : Encoder} {text : String}
    (h : encoder.fails text = false) (policy : Policy) (rest : List String) :
    encoder.processed policy (text :: rest) = text :: encoder.processed policy rest := by
  cases policy with
  | «continue» => rfl
  | abort => simp [processed, h]

theorem processed_cons_of_fails {encoder : Encoder} {text : String}
    (h : encoder.fails text = true) (rest : List String) :
    encoder.processed .abort (text :: rest) = [] := by
  simp [processed, h]

theorem assembleLines_events (encoder : Encoder) (policy : Policy) (line : Nat)
    (texts : List String) :
    (encoder.assembleLines policy line texts).events
      = encoder.eventsOf line (encoder.processed policy texts) := by
  induction texts generalizing line with
  | nil => cases policy <;> rfl
  | cons text rest ih =>
      cases hline : encoder.encodeLine text with
      | ok encoded =>
          rw [processed_cons_of_encoded (fails_eq_false_iff.mpr ⟨encoded, hline⟩),
            eventsOf_cons, ← ih, lineEvents, hline]
          simp only [assembleLines, assembleLine, hline]
      | error cause =>
          cases policy with
          | «continue» =>
              have hall : encoder.processed .continue (text :: rest)
                  = text :: encoder.processed .continue rest := rfl
              rw [hall, eventsOf_cons, ← ih, lineEvents, hline]
              simp only [assembleLines, assembleLine, hline]
          | abort =>
              rw [processed_cons_of_fails (fails_eq_true_iff.mpr ⟨cause, hline⟩)]
              simp only [assembleLines, assembleLine, hline]
              rfl

theorem eventsOf_diagnostics (encoder : Encoder) (line : Nat) (texts : List String) :
    (encoder.eventsOf line texts).filterMap Event.diagnostic?
      = (encoder.contributions line texts).diagnostics := by
  induction texts generalizing line with
  | nil => rfl
  | cons text rest ih =>
      rw [eventsOf_cons, List.filterMap_append, lineEvents_diagnostics, ih, contributions_cons]
      rfl

/-- The events for lines that encode, given the lines and their words. -/
def encodedEvents (encoder : Encoder) (line : Nat) (placed : List (String × Word)) :
    List Event :=
  (placed.zipIdx line).filterMap fun ((text, word), number) =>
    if encoder.fails text then none else some (.encoded number word)

theorem eventsOf_debug (encoder : Encoder) (line : Nat) (texts : List String) :
    (encoder.eventsOf line texts).filter (·.level = .debug)
      = encoder.encodedEvents line (texts.zip (texts.map encoder.lineWord)) := by
  induction texts generalizing line with
  | nil => rfl
  | cons text rest ih =>
      rw [eventsOf_cons, List.filter_append, lineEvents_debug, ih, encodedEvents, encodedEvents,
        List.map_cons, List.zip_cons_cons, List.zipIdx_cons, List.filterMap_cons]
      split <;> simp_all

theorem mem_eventsOf {encoder : Encoder} {line : Nat} {texts : List String} {e : Event}
    (h : e ∈ encoder.eventsOf line texts) :
    ∃ n, e.line? = some n ∧ line ≤ n ∧ n < line + texts.length := by
  induction texts generalizing line with
  | nil => cases h
  | cons text rest ih =>
      rw [eventsOf_cons] at h
      rcases List.mem_append.mp h with h | h
      · refine ⟨line, line?_of_mem_lineEvents h, Nat.le_refl _, ?_⟩
        simp
      · obtain ⟨n, hn, hle, hlt⟩ := ih h
        refine ⟨n, hn, by omega, ?_⟩
        rw [List.length_cons]
        omega

theorem eventsOf_pairwise (encoder : Encoder) (line : Nat) (texts : List String) :
    (encoder.eventsOf line texts).Pairwise Event.Before := by
  induction texts generalizing line with
  | nil => exact List.Pairwise.nil
  | cons text rest ih =>
      rw [eventsOf_cons, List.pairwise_append]
      refine ⟨encoder.lineEvents_pairwise line text, ih (line + 1), ?_⟩
      intro e he e' he'
      obtain ⟨n, hn, hlt, -⟩ := mem_eventsOf he'
      exact ⟨line, n, line?_of_mem_lineEvents he, hn, Or.inl hlt⟩

/-! ## Diagnostics of the first lines -/

theorem line_of_mem_lineDiagnostics {encoder : Encoder} {line : Nat} {text : String}
    {d : Diagnostic} (h : d ∈ encoder.lineDiagnostics line text) : d.line = line := by
  unfold lineDiagnostics at h
  split at h
  · obtain ⟨warning, -, rfl⟩ := List.mem_map.mp h
    rfl
  · rw [List.mem_singleton.mp h]

theorem le_line_of_mem_contributions {encoder : Encoder} {line : Nat} {texts : List String}
    {d : Diagnostic} (h : d ∈ (encoder.contributions line texts).diagnostics) :
    line ≤ d.line := by
  induction texts generalizing line with
  | nil => cases h
  | cons text rest ih =>
      rw [contributions_cons] at h
      rcases List.mem_append.mp h with h | h
      · exact Nat.le_of_eq (line_of_mem_lineDiagnostics h).symm
      · exact Nat.le_of_succ_le (ih h)

/-- The diagnostics of the first lines are those with their numbers. -/
theorem contributions_take (encoder : Encoder) (line n : Nat) (texts : List String) :
    (encoder.contributions line (texts.take n)).diagnostics
      = (encoder.contributions line texts).diagnostics.filter (·.line < line + n) := by
  induction texts generalizing line n with
  | nil => rw [List.take_nil]; rfl
  | cons text rest ih =>
      cases n with
      | zero =>
          symm
          rw [List.take_zero, List.filter_eq_nil_iff.mpr]
          · rfl
          · intro d hd
            have hle := le_line_of_mem_contributions hd
            simp only [decide_eq_true_eq]
            omega
      | succ n =>
          have hfirst : (encoder.lineDiagnostics line text).filter (·.line < line + (n + 1))
              = encoder.lineDiagnostics line text := by
            rw [List.filter_eq_self]
            intro d hd
            rw [line_of_mem_lineDiagnostics hd]
            simp
          have hnext : line + 1 + n = line + (n + 1) := by omega
          have hrest := ih (line + 1) n
          rw [hnext] at hrest
          rw [List.take_succ_cons, contributions_cons, contributions_cons, Assembly.append,
            Assembly.append, List.filter_append, hfirst, hrest]

/-- The first failing line comes right behind the processed ones. -/
theorem FailsFirst.length_processed {encoder : Encoder} {texts : List String} {i : Nat}
    {cause : EncodeError} (h : encoder.FailsFirst texts i cause) :
    (encoder.processed .abort texts).length = i := by
  induction texts generalizing i with
  | nil => cases h.fails
  | cons text rest ih =>
      cases hline : encoder.encodeLine text with
      | error cause' =>
          obtain ⟨rfl, -⟩ := (failsFirst_cons_of_error hline).mp h
          rw [processed_cons_of_fails (fails_eq_true_iff.mpr ⟨cause', hline⟩)]
          rfl
      | ok encoded =>
          obtain ⟨k, rfl, hrest⟩ := (failsFirst_cons_of_ok hline).mp h
          rw [processed_cons_of_encoded (fails_eq_false_iff.mpr ⟨encoded, hline⟩),
            List.length_cons, ih hrest]

/-! ## The log of a source -/

/-- **The log and the diagnostics tell the same story.** Of the `n` lines
that are processed, the warnings and errors of the log are the diagnostics
that the image would have for them under the policy to continue, in the
same order. For each of them that encodes there is one event more, with
its number and the word at its place; it comes behind the warnings of its
line and before all events of later lines. The line that ends an aborted
run is the one behind them and raises no event. A threshold that is less
verbose takes events out of what a more verbose one shows and keeps the
order of the rest, and no run depends on it in its outcome, its files or
its output. -/
theorem log_tells_diagnostics (encoder : Encoder) (policy : Policy) (source : String) :
    let events := (encoder.assembleLogged policy source).events
    let n := (encoder.processed policy (Text.lines source)).length
    (∃ image, encoder.assemble .continue source = .ok image
      ∧ image.words.length = (Text.lines source).length
      ∧ events.filterMap Event.diagnostic? = image.diagnostics.filter (·.line ≤ n)
      ∧ events.filter (·.level = .debug)
        = encoder.encodedEvents 1 (((Text.lines source).zip image.words).take n))
    ∧ (∀ e ∈ events, ∃ line, e.line? = some line ∧ 1 ≤ line ∧ line ≤ n)
    ∧ events.Pairwise Event.Before
    ∧ (∀ e, encoder.assemble policy source = .error e → e.line = n + 1)
    ∧ Threshold.trace.shown events = events
    ∧ (∀ low high : Threshold, low.rank ≤ high.rank →
        low.shown events = (high.shown events).filter (low.shows ·.level))
    ∧ ∀ (threshold : Threshold) (world : World) (arguments : List String),
        (Program.run arguments : StateM Screened Outcome).run (world.screen threshold)
          = ((world.run arguments).1, (world.run arguments).2.screen threshold) := by
  intro events n
  have hevents : events = encoder.eventsOf 1 ((Text.lines source).take n) := by
    rw [← processed_eq_take]
    exact encoder.assembleLines_events policy 1 _
  refine ⟨⟨encoder.contributions 1 (Text.lines source), encoder.assemble_continue source,
    List.length_map _, ?_, ?_⟩, ?_, ?_, ?_, Threshold.shown_trace events, ?_,
    World.run_screened⟩
  · rw [hevents, eventsOf_diagnostics, contributions_take]
    refine List.filter_congr fun d _ => decide_eq_decide.mpr ?_
    omega
  · rw [hevents, eventsOf_debug, List.map_take, List.zip_eq_zipWith, ← List.take_zipWith]
    rfl
  · intro e he
    rw [hevents] at he
    obtain ⟨line, hline, hle, hlt⟩ := mem_eventsOf he
    have hn := List.length_take_le n (Text.lines source)
    exact ⟨line, hline, hle, by omega⟩
  · rw [hevents]
    exact encoder.eventsOf_pairwise 1 _
  · rintro ⟨line, cause⟩ he
    cases policy with
    | «continue» =>
        rw [encoder.assemble_continue source] at he
        cases he
    | abort =>
        obtain ⟨i, rfl, hfirst⟩ := assembleLines_abort_eq_error_iff.mp he
        exact congrArg (· + 1) hfirst.length_processed.symm
  · intro low high h
    exact (Threshold.shown_shown h events).symm

example : ((Encoder.mk .v2 .lenient).assembleLogged .abort "n,0,x\ndi,7\ndi,?\ndi,8").events
    = [.warned 1 (.unknownClass "x"), .encoded 1 0, .encoded 2 7] := by
  decide +kernel

end Encoder

end LineAsm
