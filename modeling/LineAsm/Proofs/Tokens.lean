import LineAsm.Line.Token
import LineAsm.Proofs.SourceLines

/-!
# Joining tokens and cutting them again

A text is *plain* if it holds no blank and no comma. Plain tokens that
are joined by commas are found again when the line is cut
(`tokenize_joinTokens`): there is no blank to take out, and every comma
is a place where two tokens were joined. The line endings are blanks
too, so a plain text is never cut into lines.
-/

namespace LineAsm

/-- The text holds no blank and no comma. -/
def PlainText (text : List Char) : Prop := ∀ c ∈ text, c ≠ delimiter ∧ Text.isBlank c = false

theorem plainText_nil : PlainText [] := fun _ hc => absurd hc List.not_mem_nil

theorem plainText_cons {c : Char} {text : List Char} :
    PlainText (c :: text) ↔ (c ≠ delimiter ∧ Text.isBlank c = false) ∧ PlainText text :=
  List.forall_mem_cons

theorem Text.unbroken_of_not_blank {text : List Char} (h : ∀ c ∈ text, isBlank c = false) :
    Unbroken text := by
  intro c hc
  refine ⟨?_, ?_⟩ <;>
  · rintro rfl
    exact absurd (h _ hc) (by decide)

theorem Text.compact_of_not_blank {text : List Char} (h : ∀ c ∈ text, isBlank c = false) :
    compact text = text := by
  rw [compact, List.filter_eq_self]
  intro c hc
  rw [h c hc]
  rfl

/-- A character of joined texts stands in one of them, or between two. -/
theorem mem_of_mem_intercalate {x c : Char} : ∀ {texts : List (List Char)},
    c ∈ [x].intercalate texts → c = x ∨ ∃ text ∈ texts, c ∈ text
  | [], h => by cases h
  | [text], h => by
      rw [List.intercalate_singleton] at h
      exact Or.inr ⟨text, List.mem_singleton.mpr rfl, h⟩
  | text :: next :: texts, h => by
      rw [List.intercalate_cons_cons, List.append_assoc, List.singleton_append,
        List.mem_append, List.mem_cons] at h
      rcases h with h | rfl | h
      · exact Or.inr ⟨text, List.mem_cons_self .., h⟩
      · exact Or.inl rfl
      · rcases mem_of_mem_intercalate h with rfl | ⟨text', htext', hc⟩
        · exact Or.inl rfl
        · exact Or.inr ⟨text', List.mem_cons_of_mem _ htext', hc⟩

theorem not_blank_of_mem_joinTokens {tokens : List String}
    (h : ∀ token ∈ tokens, PlainText token.toList) :
    ∀ c ∈ (joinTokens tokens).toList, Text.isBlank c = false := by
  intro c hc
  rw [joinTokens, String.toList_ofList] at hc
  rcases mem_of_mem_intercalate hc with rfl | ⟨text, htext, hc⟩
  · decide
  · obtain ⟨token, htoken, rfl⟩ := List.mem_map.mp htext
    exact (h token htoken c hc).2

theorem tokenize_joinTokens {tokens : List String} (hne : tokens ≠ [])
    (h : ∀ token ∈ tokens, PlainText token.toList) : tokenize (joinTokens tokens) = tokens := by
  have hcut : ∀ text ∈ tokens.map String.toList, delimiter ∉ text := by
    intro text htext hmem
    obtain ⟨token, htoken, rfl⟩ := List.mem_map.mp htext
    exact (h token htoken _ hmem).1 rfl
  rw [tokenize, Text.compact_of_not_blank (not_blank_of_mem_joinTokens h), joinTokens,
    String.toList_ofList, List.splitOn_intercalate _ hcut (by simpa using hne)]
  simp

theorem joinTokens_pair (first second : String) :
    joinTokens [first, second] = first ++ "," ++ second := by
  rw [← String.toList_inj, joinTokens, String.toList_ofList, String.toList_append,
    String.toList_append, List.map_cons, List.map_singleton, List.intercalate_cons_cons,
    List.intercalate_singleton]
  rfl

end LineAsm
