import LineAsm.Proofs.Concatenation
import LineAsm.Proofs.Tokens

/-!
# Blanks do not matter

Blanks go away in two places with different rules. Cutting a source into
lines takes a carriage return off the end of a line, and cutting a line
into tokens takes all of its blanks out. So the blanks of a source other
than its newlines can just as well be taken out beforehand, and the
lines are the same but for their blanks (`map_compact_splitLines`).

There is one exception. What follows the last newline is a line unless
it is empty, and taking its blanks out may make it so. Such a line has
the word zero and nothing to say, so the source as it stands has just
one more word (`assemble_withoutBlanks`).
-/

namespace LineAsm

namespace Text

/-! ## Taking blanks out -/

/-- The text without its blanks, but with its newlines. -/
def dropBlanks (text : List Char) : List Char := text.filter fun c => c == '\n' || !isBlank c

theorem dropBlanks_newline_cons (text : List Char) :
    dropBlanks ('\n' :: text) = '\n' :: dropBlanks text := rfl

theorem dropBlanks_cons {c : Char} (hc : c ≠ '\n') (text : List Char) :
    dropBlanks (c :: text) = if isBlank c then dropBlanks text else c :: dropBlanks text := by
  have hnewline : (c == '\n') = false := by simpa using hc
  rw [dropBlanks, List.filter_cons, hnewline]
  cases isBlank c <;> rfl

theorem compact_cons (c : Char) (text : List Char) :
    compact (c :: text) = if isBlank c then compact text else c :: compact text := by
  rw [compact, List.filter_cons]
  cases isBlank c <;> rfl

theorem not_blank_of_mem_compact {text : List Char} : ∀ c ∈ compact text, isBlank c = false := by
  intro c hc
  simpa using (List.mem_filter.mp hc).2

theorem compact_compact (text : List Char) : compact (compact text) = compact text :=
  compact_of_not_blank not_blank_of_mem_compact

theorem compact_eq_nil_iff {text : List Char} :
    compact text = [] ↔ ∀ c ∈ text, isBlank c = true := by
  simp [compact, List.filter_eq_nil_iff]

/-- A carriage return is a blank, so it does not matter which of the two
takes it off. -/
theorem compact_chopReturn (text : List Char) : compact (chopReturn text) = compact text := by
  rw [chopReturn]
  split
  · rename_i hlast
    obtain ⟨front, rfl⟩ := List.getLast?_eq_some_iff.mp hlast
    have hreturn : compact ['\r'] = [] := rfl
    rw [List.dropLast_concat, compact, compact, List.filter_append, ← compact, ← compact,
      hreturn, List.append_nil]
  · rfl

theorem chopReturn_compact (text : List Char) : chopReturn (compact text) = compact text :=
  chopReturn_of_unbroken (unbroken_of_not_blank not_blank_of_mem_compact)

/-! ## Lines without blanks -/

/-- The newlines stay, so the pieces between them are the same, less their
blanks. -/
theorem splitOn_dropBlanks (text : List Char) :
    (dropBlanks text).splitOn '\n' = (text.splitOn '\n').map compact := by
  induction text with
  | nil => rfl
  | cons c text ih =>
      by_cases hc : c = '\n'
      · rw [hc, dropBlanks_newline_cons, splitOn_newline_cons, splitOn_newline_cons, ih]
        rfl
      · obtain ⟨piece, rest, hpieces⟩ := exists_splitOn_eq_cons text
        rw [hpieces, List.map_cons] at ih
        rw [splitOn_cons hc hpieces, List.map_cons, dropBlanks_cons hc, compact_cons]
        cases isBlank c with
        | true => exact ih
        | false => exact splitOn_cons hc ih

/-- Is there something after the last newline, and is it blank? -/
def endsBlank (text : List Char) : Bool := openEnd text ≠ [] && (openEnd text).all isBlank

theorem linesOfPieces_last (last : List Char) :
    (linesOfPieces [last]).map compact
      = linesOfPieces [compact last] ++ if last ≠ [] && last.all isBlank then [[]] else [] := by
  by_cases hlast : last = []
  · subst hlast
    rfl
  by_cases hblank : compact last = []
  · have hall : last.all isBlank = true := List.all_eq_true.mpr (compact_eq_nil_iff.mp hblank)
    simp [linesOfPieces, hlast, hblank, hall]
  · have hall : ¬ last.all isBlank = true :=
      fun hall => hblank (compact_eq_nil_iff.mpr (List.all_eq_true.mp hall))
    simp [linesOfPieces, hlast, hblank, hall]

/-- The lines of a source are those of the source without blanks, but for
their blanks, and for an open end that has nothing else. -/
theorem map_compact_splitLines (text : List Char) :
    (splitLines text).map compact
      = splitLines (dropBlanks text) ++ if endsBlank text then [[]] else [] := by
  obtain ⟨init, last, hpieces⟩ :
      ∃ init last, text.splitOn '\n' = init ++ [last] := by
    rcases List.eq_nil_or_concat (text.splitOn '\n') with hnil | ⟨init, last, h⟩
    · exact absurd hnil (List.splitOn_ne_nil _ _)
    · exact ⟨init, last, by rw [h, List.concat_eq_append]⟩
  have hlast : openEnd text = last := by rw [openEnd, hpieces, List.getLastD_concat]
  have hchop : (init.map chopReturn).map compact = init.map compact := by
    rw [List.map_map]
    exact List.map_congr_left fun piece _ => compact_chopReturn piece
  have hkept : (init.map compact).map chopReturn = init.map compact := by
    rw [List.map_map]
    exact List.map_congr_left fun piece _ => chopReturn_compact piece
  have hne : ∀ piece : List Char, [piece] ≠ [] := fun piece => List.cons_ne_nil _ _
  rw [splitLines_eq, splitLines_eq, splitOn_dropBlanks, hpieces, List.map_append,
    List.map_singleton, linesOfPieces_append (hne _), linesOfPieces_append (hne _), hkept,
    List.map_append, hchop, linesOfPieces_last, endsBlank, hlast, List.append_assoc]

def withoutBlanks (source : String) : String := String.ofList (dropBlanks source.toList)

/-! ## Other line endings -/

/-- The text with a carriage return in front of each of its newlines. -/
def addReturns (text : List Char) : List Char :=
  text.flatMap fun c => if c = '\n' then ['\r', '\n'] else [c]

def withReturns (source : String) : String := String.ofList (addReturns source.toList)

theorem addReturns_newline_cons (text : List Char) :
    addReturns ('\n' :: text) = '\r' :: '\n' :: addReturns text := rfl

theorem addReturns_cons {c : Char} (hc : c ≠ '\n') (text : List Char) :
    addReturns (c :: text) = c :: addReturns text := by
  rw [addReturns, List.flatMap_cons, if_neg hc]
  rfl

theorem dropBlanks_addReturns (text : List Char) :
    dropBlanks (addReturns text) = dropBlanks text := by
  induction text with
  | nil => rfl
  | cons c text ih =>
      by_cases hc : c = '\n'
      · rw [hc, addReturns_newline_cons, dropBlanks_cons (by decide), dropBlanks_newline_cons,
          dropBlanks_newline_cons, ih]
        rfl
      · rw [addReturns_cons hc, dropBlanks_cons hc, dropBlanks_cons hc, ih]

/-- The returns go to the pieces that a newline follows. -/
theorem splitOn_addReturns (text : List Char) :
    ∃ init last, text.splitOn '\n' = init ++ [last]
      ∧ (addReturns text).splitOn '\n' = init.map (· ++ ['\r']) ++ [last] := by
  induction text with
  | nil => exact ⟨[], [], rfl, rfl⟩
  | cons c text ih =>
      obtain ⟨init, last, hpieces, hreturns⟩ := ih
      by_cases hc : c = '\n'
      · refine ⟨[] :: init, last, ?_, ?_⟩
        · rw [hc, splitOn_newline_cons, hpieces]
          rfl
        · rw [hc, addReturns_newline_cons, splitOn_cons (by decide) (splitOn_newline_cons _),
            hreturns]
          rfl
      · rw [addReturns_cons hc]
        cases init with
        | nil => exact ⟨[], c :: last, splitOn_cons hc hpieces, splitOn_cons hc hreturns⟩
        | cons piece init =>
            exact ⟨(c :: piece) :: init, last, splitOn_cons hc hpieces, splitOn_cons hc hreturns⟩

theorem openEnd_addReturns (text : List Char) : openEnd (addReturns text) = openEnd text := by
  obtain ⟨init, last, hpieces, hreturns⟩ := splitOn_addReturns text
  rw [openEnd, openEnd, hpieces, hreturns, List.getLastD_concat, List.getLastD_concat]

end Text

/-! ## Assembling without blanks -/

theorem tokenize_compact (text : List Char) :
    tokenize (String.ofList (Text.compact text)) = tokenize (String.ofList text) := by
  rw [tokenize, tokenize, String.toList_ofList, String.toList_ofList, Text.compact_compact]

namespace Encoder

/-- Texts may be replaced by others that encode the same. -/
theorem assembleLines_map {encoder : Encoder} {f : String → String}
    (hf : ∀ text, encoder.encodeLine (f text) = encoder.encodeLine text) (policy : Policy)
    (line : Nat) (texts : List String) :
    encoder.assembleLines policy line (texts.map f) = encoder.assembleLines policy line texts := by
  induction texts generalizing line with
  | nil => rfl
  | cons text rest ih =>
      have hline : encoder.assembleLine policy line (f text)
          = encoder.assembleLine policy line text := by
        rw [assembleLine, assembleLine, hf]
      rw [List.map_cons, assembleLines, assembleLines, hline, ih]

theorem encodeLine_empty (encoder : Encoder) : encoder.encodeLine "" = .ok ⟨0, []⟩ := by
  obtain ⟨revision, mode⟩ := encoder
  cases mode <;> rfl

/-- A blank line at the end adds a zero and nothing else. -/
theorem assembleLines_concat_empty (encoder : Encoder) (policy : Policy) (line : Nat)
    (texts : List String) :
    (encoder.assembleLines policy line (texts ++ [""])).result
      = (encoder.assembleLines policy line texts).result.map
          fun image => ⟨image.words ++ [0], image.diagnostics⟩ := by
  have hempty : ∀ n, (encoder.assembleLines policy n [""]).result = .ok ⟨[0], []⟩ := by
    intro n
    rw [assembleLines_of_encoded (List.forall_mem_singleton.mpr ⟨_, encoder.encodeLine_empty⟩),
      contributions, List.map_singleton, lineWord, encodeLine_empty, List.mapIdx_singleton,
      lineDiagnostics, encodeLine_empty]
    rfl
  rw [assembleLines_append, hempty]
  cases (encoder.assembleLines policy line texts).result with
  | error e => rfl
  | ok image => simp [Except.bind, Except.map, Assembly.append]

theorem lines_withoutBlanks (source : String) :
    (Text.lines source).map (fun text => String.ofList (Text.compact text.toList))
      = Text.lines (Text.withoutBlanks source)
        ++ if Text.endsBlank source.toList then [""] else [] := by
  have hlines := congrArg (List.map String.ofList) (Text.map_compact_splitLines source.toList)
  rw [List.map_map, List.map_append] at hlines
  rw [Text.lines, Text.lines, Text.withoutBlanks, String.toList_ofList, List.map_map]
  simp only [Function.comp_def, String.toList_ofList] at hlines ⊢
  rw [hlines]
  split <;> rfl

/-- A source against the same source without blanks. -/
theorem assemble_withoutBlanks (encoder : Encoder) (policy : Policy) (source : String) :
    encoder.assemble policy source
      = if Text.endsBlank source.toList then
          (encoder.assemble policy (Text.withoutBlanks source)).map
            fun image => ⟨image.words ++ [0], image.diagnostics⟩
        else encoder.assemble policy (Text.withoutBlanks source) := by
  have hcompact : ∀ text, encoder.encodeLine (String.ofList (Text.compact text.toList))
      = encoder.encodeLine text := by
    intro text
    rw [encodeLine, tokenize_compact, String.ofList_toList, ← encodeLine]
  rw [assemble, assembleLogged, ← assembleLines_map hcompact, lines_withoutBlanks]
  split
  · exact assembleLines_concat_empty ..
  · rw [List.append_nil]
    rfl

/-- **Blanks and line endings do not matter.** Let the blanks of a source be
taken out, all but its newlines. If nothing follows the last newline, or
something that is not all blank, the result is the same. If what follows
is not empty and all blank, errors are the same, and an image has one
word less, a zero at its end. In particular it does not matter whether
lines end with a newline or with a carriage return and a newline. -/
theorem assemble_blanks (encoder : Encoder) (policy : Policy) (source : String) :
    (Text.openEnd source.toList = []
        ∨ (∃ c ∈ Text.openEnd source.toList, Text.isBlank c = false) →
      encoder.assemble policy source = encoder.assemble policy (Text.withoutBlanks source))
    ∧ (Text.openEnd source.toList ≠ [] →
      (∀ c ∈ Text.openEnd source.toList, Text.isBlank c = true) →
      encoder.assemble policy source
        = (encoder.assemble policy (Text.withoutBlanks source)).map
            fun image => ⟨image.words ++ [0], image.diagnostics⟩)
    ∧ encoder.assemble policy (Text.withReturns source) = encoder.assemble policy source := by
  refine ⟨fun hend => ?_, fun hne hblank => ?_, ?_⟩
  · have hends : Text.endsBlank source.toList = false := by
      rcases hend with hempty | ⟨c, hc, hblank⟩
      · simp [Text.endsBlank, hempty]
      · rw [Text.endsBlank, Bool.and_eq_false_iff]
        exact Or.inr (List.all_eq_false.mpr ⟨c, hc, by simp [hblank]⟩)
    rw [assemble_withoutBlanks, hends, if_neg Bool.false_ne_true]
  · have hends : Text.endsBlank source.toList = true := by
      rw [Text.endsBlank, Bool.and_eq_true]
      exact ⟨decide_eq_true hne, List.all_eq_true.mpr hblank⟩
    rw [assemble_withoutBlanks, hends, if_pos rfl]
  · have hsame : Text.withoutBlanks (Text.withReturns source) = Text.withoutBlanks source := by
      rw [Text.withoutBlanks, Text.withReturns, String.toList_ofList, Text.dropBlanks_addReturns,
        Text.withoutBlanks]
    have hends : Text.endsBlank (Text.withReturns source).toList
        = Text.endsBlank source.toList := by
      rw [Text.withReturns, String.toList_ofList, Text.endsBlank, Text.openEnd_addReturns,
        Text.endsBlank]
    rw [assemble_withoutBlanks, hsame, hends, ← assemble_withoutBlanks]

example : (Encoder.mk .v2 .lenient).assemble .abort "di, 1\n \t" = .ok ⟨[1, 0], []⟩
    ∧ (Encoder.mk .v2 .lenient).assemble .abort "di,1\n" = .ok ⟨[1], []⟩ :=
  ⟨rfl, rfl⟩

end Encoder

end LineAsm
