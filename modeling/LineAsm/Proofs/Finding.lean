import Mathlib
import LineAsm.Line.Reading

/-!
# Readings as findings

A reading is a function on sinks, but it never looks at what a sink has
taken in, and it asks for the mode only where it notes a warning. So
one value says all there is to say about it: the *finding*, which is
its result and its warnings on a sink that tolerates every warning.
`Finding.onSink` recovers the run on any sink from it:

- a lenient sink sees the result, and takes the warnings in;
- a strict sink sees the first warning as the failure if there is one,
  and the result otherwise; it takes nothing in.

`Reading.Denotes` says that a reading runs as its finding tells, on
every sink. It is closed under every building block of readers
(`denotes_pure`, `denotes_bind`, `denotes_orWarn`, `denotes_expect`),
so the finding of a reader is found by following its text, once for
both modes.

The failure of a finding is a `Misreading`, a token that could not be
read. That no lenient run is ever *rejected* is thereby part of the
type and needs no proof.
-/

namespace LineAsm

variable {α β γ : Type}

/-- A token that could not be read as what its place asks for. -/
structure Misreading where
  subject : Subject
  token : String
  reason : Reason
  deriving Repr, DecidableEq

def Misreading.error (m : Misreading) : EncodeError :=
  .unreadable m.subject m.token m.reason

/-- What a reading comes to if no warning stops it. The warnings of a
reading that fails are those noted before its failure. -/
structure Finding (α : Type) where
  result : Except Misreading α
  warnings : List Warning

namespace Finding

/-! ## Building blocks -/

protected def pure (a : α) : Finding α := ⟨.ok a, []⟩

protected def bind (o : Finding α) (next : α → Finding β) : Finding β :=
  match o.result with
  | .ok a => ⟨(next a).result, o.warnings ++ (next a).warnings⟩
  | .error m => ⟨.error m, o.warnings⟩

protected def map (f : α → β) (o : Finding α) : Finding β :=
  ⟨o.result.map f, o.warnings⟩

/-- A value that was found, or else a warning and a value to go on with. -/
def orWarn (found? : Option α) (warning : Warning) (fallback : α) : Finding α :=
  match found? with
  | some found => .pure found
  | none => ⟨.ok fallback, [warning]⟩

/-- A token read as the subject. -/
def expect (subject : Subject) (token : String) (value : Except Reason α) : Finding α :=
  ⟨value.mapError (Misreading.mk subject token), []⟩

@[simp] theorem bind_pure (a : α) (next : α → Finding β) :
    (Finding.pure a).bind next = next a := by
  simp [Finding.bind, Finding.pure]

@[simp] theorem bind_mk_ok (a : α) (ws : List Warning) (next : α → Finding β) :
    (Finding.mk (.ok a) ws).bind next
      = ⟨(next a).result, ws ++ (next a).warnings⟩ := rfl

@[simp] theorem bind_mk_error (m : Misreading) (ws : List Warning)
    (next : α → Finding β) :
    (Finding.mk (.error m) ws).bind next = ⟨.error m, ws⟩ := rfl

@[simp] theorem map_pure (f : α → β) (a : α) :
    (Finding.pure a).map f = .pure (f a) := rfl

@[simp] theorem map_map (f : α → β) (g : β → γ) (o : Finding α) :
    (o.map f).map g = o.map (g ∘ f) := by
  obtain ⟨result, ws⟩ := o
  cases result <;> rfl

theorem map_eq_bind (f : α → β) (o : Finding α) :
    o.map f = o.bind fun a => .pure (f a) := by
  obtain ⟨result, ws⟩ := o
  cases result <;> simp [Finding.map, Finding.bind, Finding.pure, Except.map]

theorem map_bind (f : β → γ) (o : Finding α) (next : α → Finding β) :
    (o.bind next).map f = o.bind fun a => (next a).map f := by
  obtain ⟨result, ws⟩ := o
  cases result <;> rfl

theorem bind_map (f : α → β) (o : Finding α) (next : β → Finding γ) :
    (o.map f).bind next = o.bind fun a => next (f a) := by
  obtain ⟨result, ws⟩ := o
  cases result <;> rfl

theorem bind_congr {o : Finding α} {f g : α → Finding β}
    (h : ∀ a, o.result = .ok a → f a = g a) : o.bind f = o.bind g := by
  obtain ⟨result, ws⟩ := o
  cases result with
  | error m => rfl
  | ok a => simp [h a rfl]

/-- A sequence succeeds exactly if both parts do, and its warnings are
those of the first part followed by those of the second. -/
theorem bind_eq_ok {o : Finding α} {next : α → Finding β} {b : β}
    {ws : List Warning} :
    o.bind next = ⟨.ok b, ws⟩ ↔
      ∃ a ws₁ ws₂, o = ⟨.ok a, ws₁⟩ ∧ next a = ⟨.ok b, ws₂⟩ ∧ ws = ws₁ ++ ws₂ := by
  obtain ⟨result, ws₁⟩ := o
  cases result with
  | error m => simp
  | ok a =>
      constructor
      · intro h
        obtain ⟨hresult, hws⟩ := Finding.mk.injEq .. |>.mp h
        exact ⟨a, ws₁, (next a).warnings, rfl, by rw [← hresult], hws.symm⟩
      · rintro ⟨a', ws₁', ws₂, hfirst, hnext, rfl⟩
        obtain ⟨⟨⟩, rfl⟩ := Finding.mk.injEq .. |>.mp hfirst
        rw [bind_mk_ok, hnext]

theorem bind_eq_clean {o : Finding α} {next : α → Finding β} {b : β} :
    o.bind next = ⟨.ok b, []⟩ ↔ ∃ a, o = ⟨.ok a, []⟩ ∧ next a = ⟨.ok b, []⟩ := by
  rw [bind_eq_ok]
  constructor
  · rintro ⟨a, ws₁, ws₂, hfirst, hnext, hws⟩
    obtain ⟨rfl, rfl⟩ := List.nil_eq_append_iff.mp hws
    exact ⟨a, hfirst, hnext⟩
  · rintro ⟨a, hfirst, hnext⟩
    exact ⟨a, [], [], hfirst, hnext, rfl⟩

theorem map_eq_ok {o : Finding α} {f : α → β} {b : β} {ws : List Warning} :
    o.map f = ⟨.ok b, ws⟩ ↔ ∃ a, o = ⟨.ok a, ws⟩ ∧ f a = b := by
  obtain ⟨result, ws'⟩ := o
  cases result with
  | error m => simp [Finding.map, Except.map]
  | ok a =>
      constructor
      · intro h
        obtain ⟨⟨⟩, rfl⟩ := Finding.mk.injEq .. |>.mp h
        exact ⟨a, rfl, rfl⟩
      · rintro ⟨a', h, rfl⟩
        obtain ⟨⟨⟩, rfl⟩ := Finding.mk.injEq .. |>.mp h
        rfl

theorem bind_result_eq_ok {o : Finding α} {next : α → Finding β} {b : β} :
    (o.bind next).result = .ok b ↔ ∃ a, o.result = .ok a ∧ (next a).result = .ok b := by
  obtain ⟨result, ws⟩ := o
  cases result <;> simp

theorem map_result_eq_ok {o : Finding α} {f : α → β} {b : β} :
    (o.map f).result = .ok b ↔ ∃ a, o.result = .ok a ∧ f a = b := by
  obtain ⟨result, ws⟩ := o
  cases result <;> simp [Finding.map, Except.map]

theorem bind_result_eq_error {o : Finding α} {next : α → Finding β} {m : Misreading} :
    (o.bind next).result = .error m ↔
      o.result = .error m ∨ ∃ a, o.result = .ok a ∧ (next a).result = .error m := by
  obtain ⟨result, ws⟩ := o
  cases result <;> simp

theorem map_result_eq_error {o : Finding α} {f : α → β} {m : Misreading} :
    (o.map f).result = .error m ↔ o.result = .error m := by
  obtain ⟨result, ws⟩ := o
  cases result <;> simp [Finding.map, Except.map]

theorem map_congr {o : Finding α} {f g : α → β}
    (h : ∀ a, o.result = .ok a → f a = g a) : o.map f = o.map g := by
  rw [map_eq_bind, map_eq_bind]
  exact bind_congr fun a ha => by rw [h a ha]

/-! ## Findings seen by a sink -/

/-- The run on a sink of a reading with this finding. -/
def onSink (o : Finding α) (sink : Sink) : Except EncodeError α × Sink :=
  match sink.mode with
  | .lenient =>
    (o.result.mapError Misreading.error,
      { sink with warnings := sink.warnings ++ o.warnings })
  | .strict =>
    match o.warnings with
    | [] => (o.result.mapError Misreading.error, sink)
    | warning :: _ => (.error (.rejected warning), sink)

end Finding

/-! ## What a reading denotes -/

namespace Reading

/-- The reading runs on every sink as the finding tells. -/
def Denotes (reading : Reading α) (o : Finding α) : Prop :=
  ∀ sink, reading.runOn sink = o.onSink sink

theorem denotes_pure (a : α) : Denotes (pure a) (.pure a) := by
  rintro ⟨mode, noted⟩
  cases mode <;> simp [Finding.onSink, Finding.pure, Except.mapError]

theorem denotes_warn (warning : Warning) : Denotes (warn warning) ⟨.ok (), [warning]⟩ := by
  rintro ⟨mode, noted⟩
  cases mode <;> simp [Finding.onSink, Except.mapError]

/-- Sequencing. In strict mode the second part is reached only if the
first one noted nothing, and then the first warning of the whole is the
first one of the second part. -/
theorem denotes_bind {reading : Reading α} {next : α → Reading β} {o : Finding α}
    {after : α → Finding β} (hfirst : Denotes reading o)
    (hnext : ∀ a, Denotes (next a) (after a)) :
    Denotes (reading >>= next) (o.bind after) := by
  intro sink
  rw [runOn_bind, hfirst sink]
  obtain ⟨mode, noted⟩ := sink
  obtain ⟨result, ws⟩ := o
  cases mode with
  | lenient =>
      cases result with
      | error m => rfl
      | ok a =>
          show (next a).runOn ⟨.lenient, noted ++ ws⟩ = _
          rw [hnext a]
          simp [Finding.onSink]
  | strict =>
      cases ws with
      | cons warning rest => cases result <;> rfl
      | nil =>
          cases result with
          | error m => rfl
          | ok a => exact hnext a ⟨.strict, noted⟩

theorem denotes_map {reading : Reading α} {o : Finding α} (f : α → β)
    (h : Denotes reading o) : Denotes (f <$> reading) (o.map f) := by
  intro sink
  rw [runOn_map, h sink]
  obtain ⟨mode, noted⟩ := sink
  obtain ⟨result, ws⟩ := o
  cases mode <;> cases ws <;> cases result <;> rfl

theorem denotes_orWarn (found? : Option α) (warning : Warning) (fallback : α) :
    Denotes (orWarn found? warning fallback) (.orWarn found? warning fallback) := by
  cases found? with
  | some found => exact denotes_pure found
  | none => exact denotes_bind (denotes_warn warning) fun _ => denotes_pure fallback

theorem denotes_expect (subject : Subject) (token : String) (value : Except Reason α) :
    Denotes (expect subject token value) (.expect subject token value) := by
  rintro ⟨mode, noted⟩
  rw [expect, runOn_ofExcept]
  cases mode <;> cases value <;>
    simp [Finding.onSink, Finding.expect, Except.mapError, Misreading.error]

end Reading

end LineAsm
