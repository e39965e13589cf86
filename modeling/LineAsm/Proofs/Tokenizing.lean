import LineAsm.Proofs.Blanks

/-!
# Cutting a line undoes joining its tokens

Blanks may be put anywhere into a line, inside its tokens too, and the
line is still cut into the same tokens. `Text.Spaced` is that freedom,
said by what is put in and not by what is taken out, and
`tokenize_eq_iff` says that there is no other: a line is cut into some
tokens exactly if they are plain, at least one, and the line is made of
them by joining and putting blanks in. So no position is lost and none
is invented, wherever tokens are empty, and tokens that differ are
never read from the same line.

Both directions rest on the two ways to look at a cut: the pieces of a
text hold no cutting character (`mem_of_mem_splitOn`), and joining them
with it gives the text back.
-/

namespace LineAsm

namespace Text

/-! ## Putting blanks in -/

/-- The second text is the first one with blanks put in. -/
inductive Spaced : List Char → List Char → Prop where
  | nil : Spaced [] []
  | keep (c : Char) {plain text : List Char} (h : Spaced plain text) :
      Spaced (c :: plain) (c :: text)
  | blank {c : Char} (hc : isBlank c = true) {plain text : List Char} (h : Spaced plain text) :
      Spaced plain (c :: text)

/-- Blanks that were put in are taken out again. -/
theorem Spaced.compact_eq {plain text : List Char} (h : Spaced plain text) :
    compact text = compact plain := by
  induction h with
  | nil => rfl
  | keep c _ ih => rw [compact_cons, compact_cons, ih]
  | blank hc _ ih => rw [compact_cons, if_pos hc, ih]

theorem spaced_compact (text : List Char) : Spaced (compact text) text := by
  induction text with
  | nil => exact .nil
  | cons c text ih =>
      rw [compact_cons]
      split
      · rename_i hblank
        exact .blank hblank ih
      · exact .keep c ih

theorem spaced_iff_compact {plain text : List Char} (h : ∀ c ∈ plain, isBlank c = false) :
    Spaced plain text ↔ compact text = plain := by
  constructor
  · intro hspaced
    rw [hspaced.compact_eq, compact_of_not_blank h]
  · intro hcompact
    exact hcompact ▸ spaced_compact text

end Text

/-! ## Pieces -/

/-- A piece of a text has its characters from the text, and not the one that
the text is cut at. -/
theorem mem_of_mem_splitOn {x : Char} {text piece : List Char} (h : piece ∈ text.splitOn x) :
    ∀ c ∈ piece, c ≠ x ∧ c ∈ text := by
  induction text generalizing piece with
  | nil =>
      rw [List.splitOn_nil, List.mem_singleton] at h
      subst h
      intro c hc
      cases hc
  | cons d text ih =>
      obtain ⟨first, rest, hpieces⟩ := List.exists_cons_of_ne_nil (List.splitOn_ne_nil x text)
      rw [hpieces] at ih
      rw [List.splitOn_cons_eq_if_modifyHead, hpieces] at h
      have hrest : ∀ piece' ∈ first :: rest, ∀ c ∈ piece', c ≠ x ∧ c ∈ d :: text := by
        intro piece' hpiece' c hc
        obtain ⟨hne, hmem⟩ := ih hpiece' c hc
        exact ⟨hne, List.mem_cons_of_mem _ hmem⟩
      split at h
      · rcases List.mem_cons.mp h with rfl | h
        · intro c hc
          cases hc
        · exact hrest piece h
      · rename_i hd
        rcases List.mem_cons.mp h with rfl | h
        · -- The new character goes in front of the first piece.
          intro c hc
          rcases List.mem_cons.mp hc with rfl | hc
          · exact ⟨by simpa using hd, List.mem_cons_self ..⟩
          · exact hrest first (List.mem_cons_self ..) c hc
        · exact hrest piece (List.mem_cons_of_mem _ h)

/-! ## Tokens of a line -/

theorem tokenize_ne_nil (line : String) : tokenize line ≠ [] := by
  unfold tokenize
  intro h
  exact List.splitOn_ne_nil _ _ (List.map_eq_nil_iff.mp h)

theorem plainText_of_mem_tokenize {line token : String} (h : token ∈ tokenize line) :
    PlainText token.toList := by
  unfold tokenize at h
  obtain ⟨piece, hpiece, rfl⟩ := List.mem_map.mp h
  rw [String.toList_ofList]
  intro c hc
  obtain ⟨hne, hmem⟩ := mem_of_mem_splitOn hpiece c hc
  exact ⟨hne, Text.not_blank_of_mem_compact c hmem⟩

theorem joinTokens_tokenize (line : String) :
    joinTokens (tokenize line) = String.ofList (Text.compact line.toList) := by
  have hpieces : (tokenize line).map String.toList
      = (Text.compact line.toList).splitOn delimiter := by
    simp [tokenize, Function.comp_def]
  rw [joinTokens, hpieces, List.intercalate_splitOn]

/-- A line is cut into the tokens that it is made of, and into no others. -/
theorem tokenize_eq_iff {line : String} {tokens : List String} :
    tokenize line = tokens ↔ tokens ≠ [] ∧ (∀ token ∈ tokens, PlainText token.toList)
      ∧ Text.Spaced (joinTokens tokens).toList line.toList := by
  constructor
  · rintro rfl
    refine ⟨tokenize_ne_nil line, fun token htoken => plainText_of_mem_tokenize htoken, ?_⟩
    rw [joinTokens_tokenize, String.toList_ofList]
    exact Text.spaced_compact line.toList
  · rintro ⟨hne, hplain, hspaced⟩
    have hcompact : Text.compact line.toList = (joinTokens tokens).toList :=
      (Text.spaced_iff_compact (not_blank_of_mem_joinTokens hplain)).mp hspaced
    calc tokenize line
        = tokenize (String.ofList (Text.compact line.toList)) := by
          rw [tokenize_compact, String.ofList_toList]
      _ = tokenize (joinTokens tokens) := by rw [hcompact, String.ofList_toList]
      _ = tokens := tokenize_joinTokens hne hplain

/-- **Cutting a line undoes joining its tokens**, up to blanks. Every line is
cut into at least one token, no token holds a blank or a comma, and joining
them gives the line without its blanks. Tokens without blanks and commas
are found again in the line that joins them, empty ones too and wherever
blanks are put in, and encoding that line is encoding them. -/
theorem tokenize_inverse_joinTokens :
    (∀ line : String, tokenize line ≠ []
      ∧ (∀ token ∈ tokenize line, ∀ c ∈ token.toList, c ≠ ',' ∧ Text.isBlank c = false)
      ∧ joinTokens (tokenize line) = String.ofList (Text.compact line.toList))
    ∧ ∀ tokens : List String, tokens ≠ [] →
      (∀ token ∈ tokens, ∀ c ∈ token.toList, c ≠ ',' ∧ Text.isBlank c = false) →
        tokenize (joinTokens tokens) = tokens
        ∧ ∀ line : String, Text.Spaced (joinTokens tokens).toList line.toList →
          tokenize line = tokens
          ∧ ∀ encoder : Encoder, encoder.encodeLine line = encoder.encodeTokens tokens := by
  refine ⟨fun line => ⟨tokenize_ne_nil line, fun token htoken =>
    plainText_of_mem_tokenize htoken, joinTokens_tokenize line⟩, ?_⟩
  intro tokens hne hplain
  refine ⟨tokenize_joinTokens hne hplain, fun line hspaced => ?_⟩
  have htokens : tokenize line = tokens := tokenize_eq_iff.mpr ⟨hne, hplain, hspaced⟩
  refine ⟨htokens, fun encoder => ?_⟩
  rw [Encoder.encodeLine, htokens]

example : tokenize "\ti ,, a\u00a0d d," = ["i", "", "add", ""] := by decide +kernel

end LineAsm
