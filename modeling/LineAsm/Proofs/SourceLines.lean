import LineAsm.Text.Lines

/-!
# How a text falls into lines

A text is cut at its newlines, and the pieces are its lines but for two
exceptions (`linesOfPieces`): a carriage return at the end of a piece
goes with the newline that follows, and the last piece, which no newline
follows, is a line only if it is not empty. So a text has a line for
each of its newlines, and one more if anything follows the last of them
(`length_lines`).

Texts that hold no line ending come back as the lines of the text that
they make together, whether newlines stand only between them
(`lines_intercalate`) or behind each of them (`splitLines_flatMap`).
-/

namespace LineAsm.Text

/-! ## Pieces -/

/-- The text without a carriage return at its end. -/
def chopReturn (text : List Char) : List Char :=
  if text.getLast? = some '\r' then text.dropLast else text

/-- The lines of a text that newlines cut into these pieces. -/
def linesOfPieces : List (List Char) → List (List Char)
  | [] => []
  | [last] => if last = [] then [] else [last]
  | piece :: next :: rest => chopReturn piece :: linesOfPieces (next :: rest)

theorem linesOfPieces_cons_of_ne_nil {rest : List (List Char)} (h : rest ≠ [])
    (piece : List Char) :
    linesOfPieces (piece :: rest) = chopReturn piece :: linesOfPieces rest := by
  cases rest with
  | nil => exact absurd rfl h
  | cons next rest => rfl

/-- Pieces that others follow are lines, less the carriage returns at
their ends. -/
theorem linesOfPieces_append {pieces rest : List (List Char)} (h : rest ≠ []) :
    linesOfPieces (pieces ++ rest) = pieces.map chopReturn ++ linesOfPieces rest := by
  induction pieces with
  | nil => rfl
  | cons piece pieces ih =>
      rw [List.cons_append, linesOfPieces_cons_of_ne_nil (List.append_ne_nil_of_right_ne_nil _ h),
        ih, List.map_cons, List.cons_append]

theorem chopReturn_cons {c : Char} {text : List Char} (h : text = [] → c ≠ '\r') :
    chopReturn (c :: text) = c :: chopReturn text := by
  cases text with
  | nil => simp [chopReturn, h rfl]
  | cons d text =>
      rw [chopReturn, chopReturn, List.getLast?_cons_cons]
      split <;> rfl

/-- A character in front of the first piece goes to the first line, unless
it is a carriage return that the next newline takes along. -/
theorem linesOfPieces_cons {c : Char} {piece : List Char} {rest : List (List Char)}
    (h : piece = [] → rest ≠ [] → c ≠ '\r') :
    linesOfPieces ((c :: piece) :: rest) =
      match linesOfPieces (piece :: rest) with
      | [] => [[c]]
      | line :: lines => (c :: line) :: lines := by
  by_cases hrest : rest = []
  · subst hrest
    cases piece <;> rfl
  · rw [linesOfPieces_cons_of_ne_nil hrest, linesOfPieces_cons_of_ne_nil hrest,
      chopReturn_cons fun hempty => h hempty hrest]

theorem exists_splitOn_eq_cons (text : List Char) :
    ∃ piece rest, text.splitOn '\n' = piece :: rest :=
  List.exists_cons_of_ne_nil (List.splitOn_ne_nil _ _)

theorem splitOn_newline_cons (text : List Char) :
    ('\n' :: text).splitOn '\n' = [] :: text.splitOn '\n' := by
  rw [List.splitOn_cons_eq_if_modifyHead, if_pos (beq_self_eq_true _)]

theorem splitOn_cons {c : Char} {text piece : List Char} {rest : List (List Char)}
    (hc : c ≠ '\n') (h : text.splitOn '\n' = piece :: rest) :
    (c :: text).splitOn '\n' = (c :: piece) :: rest := by
  rw [List.splitOn_cons_eq_if_modifyHead, if_neg (by simpa using hc), h]
  rfl

/-- An empty first piece with another one behind it stands for a newline. -/
theorem eq_newline_cons_of_splitOn {text : List Char} {rest : List (List Char)}
    (h : text.splitOn '\n' = [] :: rest) (hrest : rest ≠ []) :
    ∃ after, text = '\n' :: after := by
  cases text with
  | nil =>
      rw [List.splitOn_nil] at h
      exact absurd (List.cons.inj h).2.symm hrest
  | cons c text =>
      by_cases hc : c = '\n'
      · exact ⟨text, by rw [hc]⟩
      · obtain ⟨piece, others, hpieces⟩ := exists_splitOn_eq_cons text
        rw [splitOn_cons hc hpieces] at h
        cases h

theorem splitLines_eq (text : List Char) :
    splitLines text = linesOfPieces (text.splitOn '\n') := by
  fun_induction splitLines text with
  | case1 => rfl
  | case2 rest ih =>
      rw [ih, splitOn_newline_cons, linesOfPieces_cons_of_ne_nil (List.splitOn_ne_nil _ _)]
      rfl
  | case3 rest ih =>
      rw [ih, splitOn_cons (by decide) (splitOn_newline_cons rest),
        linesOfPieces_cons_of_ne_nil (List.splitOn_ne_nil _ _)]
      rfl
  | case4 c rest hnewline hreturn hlines ih | case5 c rest hnewline hreturn _ _ hlines ih =>
      obtain ⟨piece, others, hpieces⟩ := exists_splitOn_eq_cons rest
      have hopen : piece = [] → others ≠ [] → c ≠ '\r' := by
        rintro rfl hothers rfl
        obtain ⟨after, rfl⟩ := eq_newline_cons_of_splitOn hpieces hothers
        exact hreturn after rfl rfl
      rw [splitOn_cons hnewline hpieces, linesOfPieces_cons hopen, ← hpieces, ← ih, hlines]

theorem lines_eq (text : String) :
    lines text = (linesOfPieces (text.toList.splitOn '\n')).map String.ofList := by
  rw [lines, splitLines_eq]

/-! ## Counting lines -/

/-- What follows the last newline. -/
def openEnd (text : List Char) : List Char := (text.splitOn '\n').getLastD []

theorem length_splitOn (text : List Char) :
    (text.splitOn '\n').length = text.count '\n' + 1 := by
  induction text with
  | nil => rfl
  | cons c text ih =>
      by_cases hc : c = '\n'
      · rw [hc, splitOn_newline_cons, List.length_cons, ih, List.count_cons_self]
      · obtain ⟨piece, rest, hpieces⟩ := exists_splitOn_eq_cons text
        rw [splitOn_cons hc hpieces, List.count_cons_of_ne hc, ← ih, hpieces]
        rfl

theorem length_linesOfPieces : ∀ {pieces : List (List Char)}, pieces ≠ [] →
    (linesOfPieces pieces).length + 1
      = pieces.length + if pieces.getLastD [] = [] then 0 else 1
  | [], h => absurd rfl h
  | [last], _ => by
      by_cases hlast : last = [] <;> simp [linesOfPieces, hlast]
  | piece :: next :: rest, _ => by
      have ih := length_linesOfPieces (List.cons_ne_nil next rest)
      rw [linesOfPieces, List.length_cons, List.length_cons, ih]
      simp only [List.getLastD_cons]
      omega

theorem length_lines (text : String) :
    (lines text).length
      = text.toList.count '\n' + if openEnd text.toList = [] then 0 else 1 := by
  have hlength := length_linesOfPieces (List.splitOn_ne_nil '\n' text.toList)
  rw [length_splitOn] at hlength
  rw [lines_eq, List.length_map, openEnd]
  omega

/-! ## One text after the other -/

/-- Behind a newline the lines of a text start anew. -/
theorem splitLines_append_newline (first second : List Char) :
    splitLines (first ++ '\n' :: second)
      = splitLines (first ++ ['\n']) ++ splitLines second := by
  have hlast : linesOfPieces (List.splitOn '\n' []) = [] := rfl
  rw [splitLines_eq, splitLines_eq, splitLines_eq, List.splitOn_append_cons_self,
    List.splitOn_append_cons_self, linesOfPieces_append (List.splitOn_ne_nil _ _),
    linesOfPieces_append (List.splitOn_ne_nil _ _), hlast, List.append_nil]

theorem lines_append {first second : String} (h : first = "" ∨ ∃ text, first = text ++ "\n") :
    lines (first ++ second) = lines first ++ lines second := by
  rcases h with rfl | ⟨text, rfl⟩
  · rw [String.empty_append]
    rfl
  · have hnewline : "\n".toList = ['\n'] := rfl
    rw [lines, lines, lines, String.toList_append, String.toList_append, hnewline,
      List.append_assoc, List.singleton_append, splitLines_append_newline, List.map_append]

/-- A text that no open line ends has as many lines as newlines. -/
theorem length_lines_of_newline {text : String} (h : text = "" ∨ ∃ before, text = before ++ "\n") :
    (lines text).length = text.toList.count '\n' := by
  have hclosed : openEnd text.toList = [] := by
    rcases h with rfl | ⟨before, rfl⟩
    · rfl
    · have hnewline : "\n".toList = ['\n'] := rfl
      rw [openEnd, String.toList_append, hnewline, List.splitOn_append_cons_self,
        List.splitOn_nil, List.getLastD_concat]
  rw [length_lines, if_pos hclosed, Nat.add_zero]

/-! ## Texts without line endings -/

/-- A text that ends no line, not even together with what follows it. -/
def Unbroken (text : List Char) : Prop := ∀ c ∈ text, c ≠ '\n' ∧ c ≠ '\r'

instance (text : List Char) : Decidable (Unbroken text) :=
  List.decidableBAll (fun c => c ≠ '\n' ∧ c ≠ '\r') text

theorem unbroken_append {first second : List Char} :
    Unbroken (first ++ second) ↔ Unbroken first ∧ Unbroken second :=
  List.forall_mem_append

theorem chopReturn_of_unbroken {text : List Char} (h : Unbroken text) :
    chopReturn text = text := by
  rw [chopReturn, if_neg]
  intro hreturn
  exact (h _ (List.mem_of_getLast? hreturn)).2 rfl

/-- In front of the last piece, pieces that hold no line ending are lines
as they stand. -/
theorem linesOfPieces_concat {texts : List (List Char)} (h : ∀ text ∈ texts, Unbroken text)
    (last : List Char) :
    linesOfPieces (texts ++ [last]) = texts ++ linesOfPieces [last] := by
  have hkept : texts.map chopReturn = texts.map id :=
    List.map_congr_left fun text htext => chopReturn_of_unbroken (h text htext)
  rw [linesOfPieces_append (List.cons_ne_nil _ _), hkept, List.map_id]

theorem splitLines_intercalate_concat {texts : List (List Char)} {last : List Char}
    (h : ∀ text ∈ texts, Unbroken text) (hlast : Unbroken last) :
    splitLines (['\n'].intercalate (texts ++ [last])) = texts ++ linesOfPieces [last] := by
  have hnewline : ∀ text ∈ texts ++ [last], '\n' ∉ text := by
    intro text htext hmem
    rw [List.mem_append, List.mem_singleton] at htext
    rcases htext with htext | rfl
    · exact (h text htext _ hmem).1 rfl
    · exact (hlast _ hmem).1 rfl
  rw [splitLines_eq, List.splitOn_intercalate _ hnewline (by simp), linesOfPieces_concat h]

theorem splitLines_intercalate {texts : List (List Char)}
    (h : ∀ text ∈ texts, Unbroken text ∧ text ≠ []) :
    splitLines (['\n'].intercalate texts) = texts := by
  rcases List.eq_nil_or_concat texts with rfl | ⟨init, last, rfl⟩
  · rfl
  · rw [List.concat_eq_append] at h ⊢
    obtain ⟨hinit, hlast⟩ := List.forall_mem_append.mp h
    obtain ⟨hunbroken, hne⟩ := hlast last List.mem_cons_self
    rw [splitLines_intercalate_concat (fun text htext => (hinit text htext).1) hunbroken,
      linesOfPieces, if_neg hne]

theorem flatMap_append_newline (texts : List (List Char)) :
    texts.flatMap (· ++ ['\n']) = ['\n'].intercalate (texts ++ [[]]) := by
  induction texts with
  | nil => rfl
  | cons text texts ih =>
      rw [List.flatMap_cons, ih, List.cons_append, List.intercalate_cons_of_ne_nil (by simp)]

theorem splitLines_flatMap {texts : List (List Char)} (h : ∀ text ∈ texts, Unbroken text) :
    splitLines (texts.flatMap (· ++ ['\n'])) = texts := by
  have hempty : Unbroken [] := fun _ hc => absurd hc List.not_mem_nil
  rw [flatMap_append_newline, splitLines_intercalate_concat h hempty]
  exact List.append_nil texts

theorem lines_intercalate {texts : List String}
    (h : ∀ text ∈ texts, Unbroken text.toList ∧ text ≠ "") :
    lines ("\n".intercalate texts) = texts := by
  have hlists : ∀ text ∈ texts.map String.toList, Unbroken text ∧ text ≠ [] := by
    intro text htext
    obtain ⟨source, hsource, rfl⟩ := List.mem_map.mp htext
    obtain ⟨hunbroken, hne⟩ := h source hsource
    exact ⟨hunbroken, by simpa using hne⟩
  rw [lines, String.toList_intercalate, show "\n".toList = ['\n'] from rfl,
    splitLines_intercalate hlists]
  simp

end LineAsm.Text
