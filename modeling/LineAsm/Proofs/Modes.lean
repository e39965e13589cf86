import LineAsm.Line.Encoder
import LineAsm.Proofs.PartValue

/-!
# The two modes

One reader serves both modes, so both are views of one finding. The
finding of a line is found here (`Line.finding`), and with it:

- encoding in either mode is read off the finding
  (`Encoder.encodeTokens_eq`);
- the modes agree up to the first warning (`Line.modes_agree`). The
  warnings of a line arise between the readings of its literals, so
  which of two faults is reported depends on their order; the finding
  has them in that order.
-/

namespace LineAsm

variable {α : Type}

/-! ## Either mode from the finding -/

namespace Reading

/-- A strict sink reports the first warning, or else what a lenient one
reports. -/
theorem Denotes.strict_result {reading : Reading α} {o : Finding α}
    (h : Denotes reading o) :
    (reading.runOn (.fresh .strict)).1 =
      match (reading.runOn (.fresh .lenient)).2.warnings with
      | [] => (reading.runOn (.fresh .lenient)).1
      | warning :: _ => .error (.rejected warning) := by
  rw [h, h]
  obtain ⟨result, ws⟩ := o
  cases ws <;> rfl

theorem Denotes.lenient_eq_ok {reading : Reading α} {o : Finding α} (h : Denotes reading o)
    {a : α} : (reading.runOn (.fresh .lenient)).1 = .ok a ↔ o.result = .ok a := by
  rw [h]
  obtain ⟨result, ws⟩ := o
  cases result <;> simp [Finding.onSink, Sink.fresh, Except.mapError]

theorem Denotes.lenient_ne_rejected {reading : Reading α} {o : Finding α}
    (h : Denotes reading o) (warning : Warning) :
    (reading.runOn (.fresh .lenient)).1 ≠ .error (.rejected warning) := by
  rw [h]
  obtain ⟨result, ws⟩ := o
  cases result <;> simp [Finding.onSink, Sink.fresh, Except.mapError, Misreading.error]

theorem Denotes.strict_sink {reading : Reading α} {o : Finding α}
    (h : Denotes reading o) (noted : List Warning) :
    (reading.runOn ⟨.strict, noted⟩).2 = ⟨.strict, noted⟩ := by
  rw [h]
  obtain ⟨result, ws⟩ := o
  cases ws <;> rfl

end Reading

/-! ## The finding of a line -/

namespace Line

/-- What reading a line comes to. Only instructions bring warnings. -/
def finding (isa : Isa) : List String → Finding Line
  | [] => .pure .blank
  | [_] => .pure .blank
  | head :: literal :: rest =>
    match Directive.Kind.ofMarker? head with
    | some kind =>
      (Finding.expect kind.subject literal (Directive.readLiteral kind literal.toList)).map
        fun word => .directive ⟨kind, word⟩
    | none => (Instruction.finding isa (head :: literal :: rest)).map .instruction

theorem directive_denotes (kind : Directive.Kind) (literal : String) :
    Reading.Denotes (Reading.ofExcept (Directive.read kind literal))
      ((Finding.expect kind.subject literal (Directive.readLiteral kind literal.toList)).map
        (Directive.mk kind)) := by
  rintro ⟨mode, noted⟩
  rw [Reading.runOn_ofExcept, Directive.read]
  cases mode <;> cases Directive.readLiteral kind literal.toList <;>
    simp [Finding.onSink, Finding.expect, Finding.map, Except.map, Except.mapError,
      Misreading.error]

theorem read_denotes (isa : Isa) (tokens : List String) :
    Reading.Denotes (read isa tokens) (finding isa tokens) := by
  match tokens with
  | [] => exact Reading.denotes_pure _
  | [_] => exact Reading.denotes_pure _
  | head :: literal :: rest =>
      rw [read, finding]
      cases Directive.Kind.ofMarker? head with
      | some kind =>
          have h := Reading.denotes_map Line.directive (directive_denotes kind literal)
          rw [Finding.map_map] at h
          exact h
      | none => exact Reading.denotes_map _ (Instruction.read_denotes isa _)

end Line

/-! ## Encoding -/

/-- The encoded line of a finding, in either mode. -/
def Finding.encoded (o : Finding Word) : Mode → Except EncodeError Encoded
  | .lenient => (o.result.map (Encoded.mk · o.warnings)).mapError Misreading.error
  | .strict =>
    match o.warnings with
    | [] => (o.result.map (Encoded.mk · [])).mapError Misreading.error
    | warning :: _ => .error (.rejected warning)

theorem Finding.encoded_eq_ok {o : Finding Word} {mode : Mode} {word : Word}
    {ws : List Warning} :
    o.encoded mode = .ok ⟨word, ws⟩ ↔ o = ⟨.ok word, ws⟩ ∧ (mode = .strict → ws = []) := by
  obtain ⟨result, warnings⟩ := o
  cases mode with
  | lenient => cases result <;> simp [Finding.encoded, Except.map, Except.mapError]
  | strict =>
      cases warnings with
      | nil => cases result <;> simp [Finding.encoded, Except.map, Except.mapError]
      | cons warning rest =>
          constructor
          · intro h
            cases h
          · rintro ⟨h, hempty⟩
            obtain ⟨-, rfl⟩ := Finding.mk.injEq .. |>.mp h
            cases hempty rfl

theorem Finding.encoded_lenient_eq_ok_iff {o : Finding Word} :
    (∃ encoded, o.encoded .lenient = .ok encoded) ↔ ∃ word, o.result = .ok word := by
  obtain ⟨result, warnings⟩ := o
  cases result <;> simp [Finding.encoded, Except.map, Except.mapError]

theorem Finding.encoded_lenient_eq_error_iff {o : Finding Word} {e : EncodeError} :
    o.encoded .lenient = .error e ↔ ∃ m, o.result = .error m ∧ m.error = e := by
  obtain ⟨result, warnings⟩ := o
  cases result <;> simp [Finding.encoded, Except.map, Except.mapError]

theorem Finding.encoded_strict_eq_ok_iff {o : Finding Word} :
    (∃ encoded, o.encoded .strict = .ok encoded) ↔ ∃ word, o = ⟨.ok word, []⟩ := by
  constructor
  · rintro ⟨⟨word, ws⟩, h⟩
    obtain ⟨hclean, hempty⟩ := Finding.encoded_eq_ok.mp h
    exact ⟨word, hempty rfl ▸ hclean⟩
  · rintro ⟨word, h⟩
    exact ⟨⟨word, []⟩, Finding.encoded_eq_ok.mpr ⟨h, fun _ => rfl⟩⟩

namespace Encoder

theorem encodeTokens_eq (encoder : Encoder) (tokens : List String) :
    encoder.encodeTokens tokens =
      ((Line.finding encoder.revision.isa tokens).map
        (Line.word encoder.revision.isa)).encoded encoder.mode := by
  obtain ⟨revision, mode⟩ := encoder
  rw [encodeTokens, parse, Line.read_denotes revision.isa tokens]
  obtain ⟨result, ws⟩ := Line.finding revision.isa tokens
  cases mode <;> cases result <;> cases ws <;> rfl

end Encoder

/-! ## Agreement -/

/-- **The modes agree up to the first warning.** Without a warning the
strict run gives what the lenient one gives, be it a line or an error;
otherwise it rejects the first warning, also where the lenient run goes
on to fail. A lenient run never rejects, and a strict sink stays empty. -/
theorem Line.modes_agree (revision : Revision) (tokens : List String) :
    let lenient := (Line.read revision.isa tokens).runOn (.fresh .lenient)
    let strict := (Line.read revision.isa tokens).runOn (.fresh .strict)
    (strict.1 =
        match lenient.2.warnings with
        | [] => lenient.1
        | warning :: _ => .error (.rejected warning))
      ∧ (∀ warning, lenient.1 ≠ .error (.rejected warning))
      ∧ strict.2.warnings = []
      ∧ ∀ word, (Encoder.mk revision .strict).encodeTokens tokens = .ok ⟨word, []⟩ ↔
          (Encoder.mk revision .lenient).encodeTokens tokens = .ok ⟨word, []⟩ := by
  have h := Line.read_denotes revision.isa tokens
  refine ⟨h.strict_result, h.lenient_ne_rejected, ?_, fun word => ?_⟩
  · rw [Sink.fresh, h.strict_sink]
  · rw [Encoder.encodeTokens_eq, Encoder.encodeTokens_eq, Finding.encoded_eq_ok,
      Finding.encoded_eq_ok]
    simp

end LineAsm
