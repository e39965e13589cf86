import LineAsm.Image.Assembly
import LineAsm.Proofs.SourceLines

/-!
# Assembling is encoding line by line

What a line contributes to an image depends on the line alone, its
number apart: a word and some diagnostics (`lineWord`,
`lineDiagnostics`). Under the policy to continue, the image of a source
is made of these contributions and of nothing else
(`assembleLines_continue`). Under the policy to abort, the first line
that fails is the result (`assembleLines_abort_eq_error_iff`); if there
is none, the policy makes no difference (`assembleLines_of_encoded`).

The step is the same under both policies: a line that gives its
contribution leaves it to the rest what becomes of the image
(`assembleLines_cons`). The number of the first line is left open in the
inductions.
-/

namespace LineAsm

namespace Assembly

theorem hasErrors_append (a b : Assembly) :
    (a.append b).hasErrors = (a.hasErrors || b.hasErrors) := by
  rw [hasErrors, append, List.any_append]
  rfl

end Assembly

namespace Encoder

/-! ## The contribution of a line -/

/-- The word of a line, and zero if it cannot be encoded. -/
def lineWord (encoder : Encoder) (text : String) : Word :=
  match encoder.encodeLine text with
  | .ok encoded => encoded.word
  | .error _ => 0

/-- What there is to say about a line: its warnings, or else its error. -/
def lineDiagnostics (encoder : Encoder) (line : Nat) (text : String) : List Diagnostic :=
  match encoder.encodeLine text with
  | .ok encoded => encoded.warnings.map fun w => ⟨line, .warning, w.message⟩
  | .error cause => [⟨line, .error, cause.message⟩]

/-- The contributions of some lines, the first of which has the given
number. -/
def contributions (encoder : Encoder) (line : Nat) (texts : List String) : Assembly :=
  ⟨texts.map encoder.lineWord,
    (texts.mapIdx fun i text => encoder.lineDiagnostics (i + line) text).flatten⟩

theorem contributions_cons (encoder : Encoder) (line : Nat) (text : String)
    (rest : List String) :
    encoder.contributions line (text :: rest)
      = (Assembly.mk [encoder.lineWord text] (encoder.lineDiagnostics line text)).append
          (encoder.contributions (line + 1) rest) := by
  simp [contributions, Assembly.append, List.mapIdx_cons, Nat.add_comm, Nat.add_left_comm]

theorem hasErrors_line {encoder : Encoder} {line : Nat} {text : String} {words : List Word} :
    (Assembly.mk words (encoder.lineDiagnostics line text)).hasErrors = true
      ↔ ∃ cause, encoder.encodeLine text = .error cause := by
  rw [Assembly.hasErrors, lineDiagnostics]
  cases encoder.encodeLine text with
  | error cause => simp
  | ok encoded => simp

theorem hasErrors_contributions {encoder : Encoder} {line : Nat} {texts : List String} :
    (encoder.contributions line texts).hasErrors = true
      ↔ ∃ text ∈ texts, ∃ cause, encoder.encodeLine text = .error cause := by
  induction texts generalizing line with
  | nil => simp [contributions, Assembly.hasErrors]
  | cons text rest ih =>
      rw [contributions_cons, Assembly.hasErrors_append, Bool.or_eq_true, hasErrors_line, ih]
      simp only [List.mem_cons, exists_eq_or_imp]

/-! ## One line -/

theorem assembleLine_of_encoded {encoder : Encoder} {text : String} {encoded : Encoded}
    (h : encoder.encodeLine text = .ok encoded) (policy : Policy) (line : Nat) :
    (encoder.assembleLine policy line text).result
      = .ok ⟨[encoder.lineWord text], encoder.lineDiagnostics line text⟩ := by
  rw [assembleLine, lineWord, lineDiagnostics, h]
  rfl

theorem assembleLine_continue (encoder : Encoder) (line : Nat) (text : String) :
    (encoder.assembleLine .continue line text).result
      = .ok ⟨[encoder.lineWord text], encoder.lineDiagnostics line text⟩ := by
  rw [assembleLine, lineWord, lineDiagnostics]
  cases encoder.encodeLine text <;> rfl

theorem assembleLine_abort {encoder : Encoder} {text : String} {cause : EncodeError}
    (h : encoder.encodeLine text = .error cause) (line : Nat) :
    (encoder.assembleLine .abort line text).result = .error ⟨line, cause⟩ := by
  rw [assembleLine, h]

/-! ## All lines -/

theorem map_eq_error_iff {ε α β : Type} {result : Except ε α} {f : α → β} {e : ε} :
    result.map f = .error e ↔ result = .error e := by
  cases result <;> simp [Except.map]

theorem assembleLines_cons_bind (encoder : Encoder) (policy : Policy) (line : Nat)
    (text : String) (rest : List String) :
    (encoder.assembleLines policy line (text :: rest)).result
      = (encoder.assembleLine policy line text).result.bind fun first =>
          (encoder.assembleLines policy (line + 1) rest).result.map first.append := by
  simp only [assembleLines]
  cases (encoder.assembleLine policy line text).result <;> rfl

/-- If the first line gives its contribution, the rest decides. -/
theorem assembleLines_cons {encoder : Encoder} {policy : Policy} {line : Nat} {text : String}
    (h : (encoder.assembleLine policy line text).result
      = .ok ⟨[encoder.lineWord text], encoder.lineDiagnostics line text⟩) (rest : List String) :
    (encoder.assembleLines policy line (text :: rest)).result
      = (encoder.assembleLines policy (line + 1) rest).result.map
          (Assembly.mk [encoder.lineWord text] (encoder.lineDiagnostics line text)).append := by
  rw [assembleLines_cons_bind, h]
  rfl

/-- Lines that all give their contributions make up the image. -/
theorem assembleLines_of_contributions {encoder : Encoder} {policy : Policy}
    {texts : List String}
    (h : ∀ text ∈ texts, ∀ line, (encoder.assembleLine policy line text).result
      = .ok ⟨[encoder.lineWord text], encoder.lineDiagnostics line text⟩) (line : Nat) :
    (encoder.assembleLines policy line texts).result
      = .ok (encoder.contributions line texts) := by
  induction texts generalizing line with
  | nil => rfl
  | cons text rest ih =>
      obtain ⟨htext, hrest⟩ := List.forall_mem_cons.mp h
      rw [assembleLines_cons (htext line), ih hrest, contributions_cons]
      rfl

theorem assembleLines_continue (encoder : Encoder) (line : Nat) (texts : List String) :
    (encoder.assembleLines .continue line texts).result
      = .ok (encoder.contributions line texts) :=
  assembleLines_of_contributions (fun text _ line => encoder.assembleLine_continue line text) line

theorem assemble_continue (encoder : Encoder) (source : String) :
    encoder.assemble .continue source = .ok (encoder.contributions 1 (Text.lines source)) :=
  encoder.assembleLines_continue 1 _

/-- Without a failing line the policy makes no difference. -/
theorem assembleLines_of_encoded {encoder : Encoder} {texts : List String}
    (h : ∀ text ∈ texts, ∃ encoded, encoder.encodeLine text = .ok encoded) (policy : Policy)
    (line : Nat) :
    (encoder.assembleLines policy line texts).result
      = .ok (encoder.contributions line texts) := by
  refine assembleLines_of_contributions (fun text htext line => ?_) line
  obtain ⟨encoded, hencoded⟩ := h text htext
  exact assembleLine_of_encoded hencoded policy line

/-- The line at the index fails with the cause, and no line before it
fails. -/
structure FailsFirst (encoder : Encoder) (texts : List String) (i : Nat) (cause : EncodeError) :
    Prop where
  fails : texts[i]?.map encoder.encodeLine = some (.error cause)
  before : ∀ j < i, ∃ encoded, texts[j]?.map encoder.encodeLine = some (.ok encoded)

theorem failsFirst_cons_of_error {encoder : Encoder} {text : String} {cause : EncodeError}
    (h : encoder.encodeLine text = .error cause) {rest : List String} {i : Nat}
    {cause' : EncodeError} :
    encoder.FailsFirst (text :: rest) i cause' ↔ i = 0 ∧ cause' = cause := by
  constructor
  · rintro ⟨hfails, hbefore⟩
    cases i with
    | zero =>
        rw [List.getElem?_cons_zero, Option.map_some, h] at hfails
        exact ⟨rfl, (Except.error.inj (Option.some.inj hfails)).symm⟩
    | succ i =>
        obtain ⟨encoded, hencoded⟩ := hbefore 0 (Nat.succ_pos i)
        rw [List.getElem?_cons_zero, Option.map_some, h] at hencoded
        cases hencoded
  · rintro ⟨rfl, rfl⟩
    exact ⟨by rw [List.getElem?_cons_zero, Option.map_some, h], fun j hj => (by cases hj)⟩

theorem failsFirst_cons_of_ok {encoder : Encoder} {text : String} {encoded : Encoded}
    (h : encoder.encodeLine text = .ok encoded) {rest : List String} {i : Nat}
    {cause : EncodeError} :
    encoder.FailsFirst (text :: rest) i cause
      ↔ ∃ k, i = k + 1 ∧ encoder.FailsFirst rest k cause := by
  constructor
  · rintro ⟨hfails, hbefore⟩
    cases i with
    | zero =>
        rw [List.getElem?_cons_zero, Option.map_some, h] at hfails
        cases hfails
    | succ k => exact ⟨k, rfl, hfails, fun j hj => hbefore (j + 1) (Nat.succ_lt_succ hj)⟩
  · rintro ⟨k, rfl, hfails, hbefore⟩
    refine ⟨hfails, fun j hj => ?_⟩
    cases j with
    | zero => exact ⟨encoded, by rw [List.getElem?_cons_zero, Option.map_some, h]⟩
    | succ j => exact hbefore j (Nat.lt_of_succ_lt_succ hj)

theorem assembleLines_abort_eq_error_iff {encoder : Encoder} {texts : List String}
    {line n : Nat} {cause : EncodeError} :
    (encoder.assembleLines .abort line texts).result = .error ⟨n, cause⟩
      ↔ ∃ i, n = i + line ∧ encoder.FailsFirst texts i cause := by
  induction texts generalizing line with
  | nil =>
      constructor
      · intro h
        cases h
      · rintro ⟨i, -, hfails, -⟩
        cases hfails
  | cons text rest ih =>
      cases hline : encoder.encodeLine text with
      | error cause' =>
          simp only [assembleLines, assembleLine_abort hline, failsFirst_cons_of_error hline,
            Except.error.injEq, AssembleError.mk.injEq]
          constructor
          · rintro ⟨rfl, rfl⟩
            exact ⟨0, (Nat.zero_add _).symm, rfl, rfl⟩
          · rintro ⟨i, rfl, rfl, rfl⟩
            exact ⟨(Nat.zero_add _).symm, rfl⟩
      | ok encoded =>
          rw [assembleLines_cons (assembleLine_of_encoded hline .abort line),
            map_eq_error_iff, ih]
          constructor
          · rintro ⟨k, rfl, hfirst⟩
            exact ⟨k + 1, by omega, (failsFirst_cons_of_ok hline).mpr ⟨k, rfl, hfirst⟩⟩
          · rintro ⟨i, rfl, hfirst⟩
            obtain ⟨k, rfl, hrest⟩ := (failsFirst_cons_of_ok hline).mp hfirst
            exact ⟨k, by omega, hrest⟩

/-! ## Lines that fail -/

/-- Can a line not be encoded? -/
def fails (encoder : Encoder) (text : String) : Bool := !(encoder.encodeLine text).isOk

theorem fails_eq_false_iff {encoder : Encoder} {text : String} :
    encoder.fails text = false ↔ ∃ encoded, encoder.encodeLine text = .ok encoded := by
  rw [fails]
  cases encoder.encodeLine text <;> simp [Except.isOk, Except.toBool]

/-- There are as many errors as failing lines. -/
theorem length_errors_contributions (encoder : Encoder) (line : Nat) (texts : List String) :
    (encoder.contributions line texts).errors.length = texts.countP encoder.fails := by
  induction texts generalizing line with
  | nil => rfl
  | cons text rest ih =>
      have hfirst : ((encoder.lineDiagnostics line text).filter (·.severity = .error)).length
          = if encoder.fails text then 1 else 0 := by
        rw [lineDiagnostics, fails]
        cases encoder.encodeLine text <;> simp [Except.isOk, Except.toBool]
      rw [contributions_cons, Assembly.errors, Assembly.append, List.filter_append,
        List.length_append, hfirst, ← Assembly.errors, ih, List.countP_cons, Nat.add_comm]

theorem assembleLines_abort_of_fails {encoder : Encoder} {texts : List String} {text : String}
    (htext : text ∈ texts) (hfails : encoder.fails text = true) (line : Nat) :
    ∃ e, (encoder.assembleLines .abort line texts).result = .error e := by
  induction texts generalizing line with
  | nil => cases htext
  | cons first rest ih =>
      cases hfirst : encoder.encodeLine first with
      | error cause =>
          refine ⟨⟨line, cause⟩, ?_⟩
          rw [assembleLines_cons_bind, assembleLine_abort hfirst]
          rfl
      | ok encoded =>
          have hrest : text ∈ rest := by
            refine (List.mem_cons.mp htext).resolve_left fun heq => ?_
            rw [heq, fails_eq_false_iff.mpr ⟨encoded, hfirst⟩] at hfails
            cases hfails
          obtain ⟨e, he⟩ := ih hrest (line + 1)
          refine ⟨e, ?_⟩
          rw [assembleLines_cons (assembleLine_of_encoded hfirst .abort line), map_eq_error_iff]
          exact he

/-- Whatever the policy, there is an image unless it makes a line that
fails end the work. -/
theorem assemble_of_policy {encoder : Encoder} {policy : Policy} {source : String}
    (h : policy = .abort → ∀ text ∈ Text.lines source, encoder.fails text = false) :
    encoder.assemble policy source = .ok (encoder.contributions 1 (Text.lines source)) := by
  cases policy with
  | «continue» => exact encoder.assemble_continue source
  | abort =>
      exact assembleLines_of_encoded
        (fun text htext => fails_eq_false_iff.mp (h rfl text htext)) .abort 1

/-- **Assembling is encoding line by line.** The lines are what the
newlines of the source cut it into, one for each newline, and one more
if anything follows the last of them. Under the policy to continue there
always is an image, made of what the lines contribute, and it has an
error exactly if a line fails. Under the policy to abort the first
failing line is reported, and without one the image is the same, with no
error. -/
theorem assemble_by_lines (encoder : Encoder) (source : String) :
    Text.lines source = (Text.linesOfPieces (source.toList.splitOn '\n')).map String.ofList
    ∧ (Text.lines source).length
        = source.toList.count '\n' + (if Text.openEnd source.toList = [] then 0 else 1)
    ∧ (∃ image, encoder.assemble .continue source = .ok image
      ∧ image.words = (Text.lines source).map encoder.lineWord
      ∧ image.diagnostics = ((Text.lines source).mapIdx fun i text =>
          encoder.lineDiagnostics (i + 1) text).flatten
      ∧ (image.hasErrors = true
        ↔ ∃ text ∈ Text.lines source, ∃ cause, encoder.encodeLine text = .error cause)
      ∧ ((∀ text ∈ Text.lines source, ∃ encoded, encoder.encodeLine text = .ok encoded) →
        encoder.assemble .abort source = .ok image ∧ image.hasErrors = false))
    ∧ ∀ n cause, encoder.assemble .abort source = .error ⟨n, cause⟩
      ↔ ∃ i, n = i + 1 ∧ encoder.FailsFirst (Text.lines source) i cause := by
  refine ⟨Text.lines_eq source, Text.length_lines source,
    ⟨encoder.contributions 1 (Text.lines source), encoder.assembleLines_continue 1 _, rfl, rfl,
      hasErrors_contributions, fun hall => ?_⟩,
    fun n cause => assembleLines_abort_eq_error_iff⟩
  refine ⟨assembleLines_of_encoded hall .abort 1, ?_⟩
  rw [← Bool.not_eq_true, hasErrors_contributions]
  rintro ⟨text, htext, cause, hfails⟩
  obtain ⟨encoded, hencoded⟩ := hall text htext
  rw [hencoded] at hfails
  cases hfails

end Encoder

end LineAsm
