import LineAsm.Text.Blank

/-!
# Marks in a text

A reader of a text finds its way by *marks*, short texts of their own.
It takes a mark off at either end (`dropMarks`, `dropLastMarks`), cuts
the text at the first place where a mark stands (`cutAt?`), and takes
blanks off at both ends (`trim`). For each of them there is a law here,
for a text that was written with the mark in place; and there is a place
to cut at exactly if the mark is part of the text (`isSome_cutAt?_iff`).
-/

namespace LineAsm.Text

variable {mark before after text : List Char} {c : Char}

/-- The text without the mark at its start, as often as it stands there. -/
def dropMarks (mark text : List Char) : List Char :=
  if mark ≠ [] ∧ mark <+: text then dropMarks mark (text.drop mark.length) else text
termination_by text.length
decreasing_by
  rename_i h
  have hmark : 0 < mark.length := List.length_pos_iff.mpr h.1
  have hle : mark.length ≤ text.length := h.2.length_le
  rw [List.length_drop]
  omega

/-- The text without the mark at its end, as often as it stands there. -/
def dropLastMarks (mark text : List Char) : List Char :=
  (dropMarks mark.reverse text.reverse).reverse

/-- What stands before and behind the first place of the mark. -/
def cutAt? (mark : List Char) : List Char → Option (List Char × List Char)
  | [] => if mark = [] then some ([], []) else none
  | c :: rest =>
    if mark <+: c :: rest then some ([], (c :: rest).drop mark.length)
    else (cutAt? mark rest).map fun cut => (c :: cut.1, cut.2)

/-- The text without the blanks at its ends. -/
def trim (text : List Char) : List Char :=
  ((text.dropWhile isBlank).reverse.dropWhile isBlank).reverse

/-! ## Taking marks off -/

theorem dropMarks_of_not_prefix (h : ¬ mark <+: text) : dropMarks mark text = text := by
  rw [dropMarks, if_neg fun hmark => h hmark.2]

theorem dropMarks_append (hmark : mark ≠ []) (text : List Char) :
    dropMarks mark (mark ++ text) = dropMarks mark text := by
  rw [dropMarks, if_pos ⟨hmark, List.prefix_append ..⟩, List.drop_left]

theorem dropLastMarks_append (hmark : mark ≠ []) (h : ¬ mark <:+ text) :
    dropLastMarks mark (text ++ mark) = text := by
  have hreverse : mark.reverse ≠ [] := by simpa using hmark
  have hprefix : ¬ mark.reverse <+: text.reverse := by
    rw [List.reverse_prefix]
    exact h
  rw [dropLastMarks, List.reverse_append, dropMarks_append hreverse,
    dropMarks_of_not_prefix hprefix, List.reverse_reverse]

/-! ## Cutting at a mark -/

/-- The place is the first one if the mark cannot begin earlier. -/
theorem cutAt?_append (hbefore : c ∉ before) (mark after : List Char) :
    cutAt? (c :: mark) (before ++ (c :: mark) ++ after) = some (before, after) := by
  induction before with
  | nil =>
      have hprefix : c :: mark <+: c :: (mark ++ after) := List.prefix_append (c :: mark) after
      have hdrop : (c :: (mark ++ after)).drop (c :: mark).length = after :=
        List.drop_left
      rw [List.nil_append, List.cons_append, cutAt?, if_pos hprefix, hdrop]
  | cons d before ih =>
      rw [List.mem_cons, not_or] at hbefore
      obtain ⟨hd, hbefore⟩ := hbefore
      have hprefix : ¬ c :: mark <+: d :: (before ++ (c :: mark) ++ after) := fun h =>
        hd (List.cons_prefix_cons.mp h).1
      rw [List.cons_append, List.cons_append, cutAt?, if_neg hprefix, ih hbefore]
      rfl

/-- There is a place to cut at exactly if the mark is part of the text. -/
theorem isSome_cutAt?_iff : (cutAt? mark text).isSome = true ↔ mark <:+: text := by
  induction text with
  | nil =>
      rw [cutAt?, List.infix_nil]
      split <;> simp_all
  | cons c rest ih =>
      rw [cutAt?, List.infix_cons_iff]
      split
      next h => simp [h]
      next h => rw [Option.isSome_map, ih, or_iff_right h]

/-! ## Taking blanks off -/

theorem dropWhile_isBlank (hbefore : ∀ c ∈ before, isBlank c = true)
    (htext : ∀ c, text.head? = some c → isBlank c = false) :
    (before ++ text).dropWhile isBlank = text := by
  rw [List.dropWhile_append_of_pos hbefore]
  cases text with
  | nil => rfl
  | cons c text => rw [List.dropWhile_cons, htext c rfl, if_neg Bool.false_ne_true]

/-- Blanks in front are taken off, and no more, if what follows has no
blank at its ends. -/
theorem trim_append (hbefore : ∀ c ∈ before, isBlank c = true)
    (hfirst : ∀ c, text.head? = some c → isBlank c = false)
    (hlast : ∀ c, text.getLast? = some c → isBlank c = false) :
    trim (before ++ text) = text := by
  have hreverse : ∀ c, text.reverse.head? = some c → isBlank c = false := by
    intro c hc
    rw [List.head?_reverse] at hc
    exact hlast c hc
  have hend : text.reverse.dropWhile isBlank = text.reverse :=
    dropWhile_isBlank (fun _ hc => absurd hc List.not_mem_nil) hreverse
  rw [trim, dropWhile_isBlank hbefore hfirst, hend, List.reverse_reverse]

end LineAsm.Text
