import LineAsm.Proofs.Assembling

/-!
# Assembling a source in two parts

A source can be cut behind a newline and its parts assembled one by one.
The image of the whole is that of the first part followed by that of the
second, and the same holds for the diagnostics, with the lines of the
second part counted on from the first (`assemble_concat`). A failure of
the first part is that of the whole, and one of the second part moves
down with its line.

Two inductions over lines carry this, and neither asks for the policy.
Lines that stand further down contribute the same, with other numbers
(`assembleLines_shift`), and lines that follow others are assembled once
these are done (`assembleLines_append`).
-/

namespace LineAsm

/-! ## Moving lines down -/

/-- The same about a line that stands `n` lines further down. -/
def Diagnostic.shift (n : Nat) (d : Diagnostic) : Diagnostic := { d with line := d.line + n }

def AssembleError.shift (n : Nat) (e : AssembleError) : AssembleError :=
  { e with line := e.line + n }

namespace Assembly

/-- The image of lines that stand `n` lines further down. -/
def shift (n : Nat) (a : Assembly) : Assembly :=
  { a with diagnostics := a.diagnostics.map (·.shift n) }

theorem shift_append (n : Nat) (a b : Assembly) :
    (a.append b).shift n = (a.shift n).append (b.shift n) := by
  simp only [append, shift, List.map_append]

theorem shift_ofEncoded (n line : Nat) (encoded : Encoded) :
    (ofEncoded line encoded).shift n = ofEncoded (line + n) encoded := by
  simp only [ofEncoded, shift, List.map_map]
  rfl

theorem append_assoc (a b c : Assembly) :
    (a.append b).append c = a.append (b.append c) := by
  simp only [append, List.append_assoc]

end Assembly

/-- The result for lines that stand `n` lines further down. -/
def Logged.shiftResult (n : Nat) (logged : Logged Assembly) : Except AssembleError Assembly :=
  (logged.result.map (·.shift n)).mapError (·.shift n)

namespace Encoder

theorem assembleLine_shift (encoder : Encoder) (policy : Policy) (n line : Nat) (text : String) :
    (encoder.assembleLine policy (line + n) text).result
      = (encoder.assembleLine policy line text).shiftResult n := by
  simp only [assembleLine, Logged.shiftResult]
  cases encoder.encodeLine text with
  | ok encoded => exact congrArg Except.ok (Assembly.shift_ofEncoded n line encoded).symm
  | error cause => cases policy <;> rfl

/-- Lines contribute the same wherever they stand, their numbers apart. -/
theorem assembleLines_shift (encoder : Encoder) (policy : Policy) (n line : Nat)
    (texts : List String) :
    (encoder.assembleLines policy (line + n) texts).result
      = (encoder.assembleLines policy line texts).shiftResult n := by
  induction texts generalizing line with
  | nil => rfl
  | cons text rest ih =>
      rw [assembleLines_cons_bind, assembleLine_shift, Nat.add_right_comm, ih]
      simp only [Logged.shiftResult, assembleLines_cons_bind]
      cases (encoder.assembleLine policy line text).result with
      | error e => rfl
      | ok first =>
          cases (encoder.assembleLines policy (line + 1) rest).result with
          | error e => rfl
          | ok others => exact congrArg Except.ok (Assembly.shift_append n first others).symm

/-- Lines that follow others are assembled once these are done. -/
theorem assembleLines_append (encoder : Encoder) (policy : Policy) (line : Nat)
    (texts others : List String) :
    (encoder.assembleLines policy line (texts ++ others)).result
      = (encoder.assembleLines policy line texts).result.bind fun first =>
          (encoder.assembleLines policy (line + texts.length) others).result.map
            first.append := by
  induction texts generalizing line with
  | nil =>
      show (encoder.assembleLines policy line others).result
        = (encoder.assembleLines policy line others).result.map Assembly.empty.append
      cases (encoder.assembleLines policy line others).result <;> rfl
  | cons text rest ih =>
      have hnext : line + (text :: rest).length = line + 1 + rest.length := by
        rw [List.length_cons, Nat.add_right_comm, Nat.add_assoc]
      rw [List.cons_append, assembleLines_cons_bind, assembleLines_cons_bind, ih, hnext]
      cases (encoder.assembleLine policy line text).result with
      | error e => rfl
      | ok first =>
          cases (encoder.assembleLines policy (line + 1) rest).result with
          | error e => rfl
          | ok second =>
              show Except.map first.append (Except.map second.append _) = Except.map _ _
              cases (encoder.assembleLines policy (line + 1 + rest.length) others).result with
              | error e => rfl
              | ok third =>
                  exact congrArg Except.ok (Assembly.append_assoc first second third).symm

/-! ## Sources -/

/-- A source in two parts, under either policy. -/
theorem assemble_concat (encoder : Encoder) (policy : Policy) {first : String}
    (h : first = "" ∨ ∃ text, first = text ++ "\n") (second : String) :
    encoder.assemble policy (first ++ second)
      = (encoder.assemble policy first).bind fun a =>
          (((encoder.assemble policy second).map (·.shift (first.toList.count '\n'))).mapError
            (·.shift (first.toList.count '\n'))).map a.append := by
  simp only [assemble, assembleLogged]
  rw [Text.lines_append h, assembleLines_append, Text.length_lines_of_newline h]
  refine congrArg _ (funext fun a => ?_)
  rw [assembleLines_shift]
  rfl

/-- **Assembling is compositional.** Let the first part of a source be
empty or end with a newline. Under the policy to continue, the words and
the diagnostics of the parts follow one another, with the lines of the
second part counted on by the newlines of the first. Under the policy to
abort, the first part to fail decides, the first one with its own line,
the second with its line counted on; and if none fails, the image is put
together as before. -/
theorem assemble_append (encoder : Encoder) {first : String}
    (h : first = "" ∨ ∃ text, first = text ++ "\n") (second : String) :
    (∃ a b, encoder.assemble .continue first = .ok a ∧ encoder.assemble .continue second = .ok b
      ∧ encoder.assemble .continue (first ++ second)
        = .ok ⟨a.words ++ b.words,
            a.diagnostics ++ b.diagnostics.map (·.shift (first.toList.count '\n'))⟩)
    ∧ (∀ e, encoder.assemble .abort first = .error e →
      encoder.assemble .abort (first ++ second) = .error e)
    ∧ ∀ a, encoder.assemble .abort first = .ok a →
      (∀ i cause, encoder.assemble .abort second = .error ⟨i, cause⟩ →
        encoder.assemble .abort (first ++ second)
          = .error ⟨i + first.toList.count '\n', cause⟩)
      ∧ ∀ b, encoder.assemble .abort second = .ok b →
        encoder.assemble .abort (first ++ second)
          = .ok ⟨a.words ++ b.words,
              a.diagnostics ++ b.diagnostics.map (·.shift (first.toList.count '\n'))⟩ := by
  refine ⟨?_, fun e hfirst => ?_, fun a hfirst => ⟨fun i cause hsecond => ?_,
    fun b hsecond => ?_⟩⟩
  · refine ⟨encoder.contributions 1 (Text.lines first),
      encoder.contributions 1 (Text.lines second), encoder.assemble_continue first,
      encoder.assemble_continue second, ?_⟩
    rw [assemble_concat encoder .continue h, assemble_continue, assemble_continue]
    rfl
  · rw [assemble_concat encoder .abort h, hfirst]
    rfl
  · rw [assemble_concat encoder .abort h, hfirst, hsecond]
    rfl
  · rw [assemble_concat encoder .abort h, hfirst, hsecond]
    rfl

/-- Two lines, one of which ends with a carriage return, and then a line
that fails: its number goes up by two. -/
theorem assemble_append_third_line :
    (∃ text, "di,1\r\ndi,2\n" = text ++ "\n")
    ∧ (Encoder.mk .v2 .lenient).assemble .abort ("di,1\r\ndi,2\n" ++ "di,x\n")
      = .error ⟨1 + 2, .unreadable .decimalLiteral "x" (.integer .invalidDigit)⟩ :=
  ⟨⟨"di,1\r\ndi,2", rfl⟩,
    ((Encoder.mk .v2 .lenient).assemble_append (Or.inr ⟨"di,1\r\ndi,2", rfl⟩) "di,x\n").2.2 _
      rfl |>.1 1 _ rfl⟩

end Encoder

end LineAsm
