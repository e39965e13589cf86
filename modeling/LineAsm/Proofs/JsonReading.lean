import LineAsm.Json.Reader
import LineAsm.Proofs.JsonTexts

/-!
# Reading JSON texts

Every text of the grammar is read as the value that it spells
(`parse?_of_spelled`). Cutting a text into lexemes and taking them in
are put together as one run over the text (`State.run`), which a blank
does not change and a lexeme takes one step further. The grammar then
says how far a phrase takes the machine: a value is done and goes into
the frame on top, items and members up to their closing mark make the
array or object (`Phrase.Taken`).

Where a value may start, the machine is in one of two states, because
an array may also end there; `ReadsValue` is what they have in common,
and `ReadsKey` the same for keys.
-/

namespace LineAsm.Json

/-! ## Runs over a text -/

/-- Cuts a text into lexemes and takes them in. -/
def State.run (state : State) (text : List Char) : Option State :=
  (lexemes? text).bind fun lexemes => lexemes.foldlM State.step? state

theorem lexemes?_eq (text : List Char) :
    lexemes? text = match text.dropWhile isSpace with
      | [] => some []
      | c :: tail => (splitLexeme? (c :: tail)).bind fun (lexeme, rest) =>
          (lexemes? rest).map (lexeme :: ·) := by
  rw [lexemes?]
  split
  · rename_i hskip
    rw [hskip]
  · rename_i c tail hskip
    rw [hskip]
    split
    · rename_i hsplit
      simp only [hsplit, Option.bind_none]
    · rename_i hsplit
      simp only [hsplit, Option.bind_some]

theorem State.run_nil (state : State) : state.run [] = some state := by
  rw [run, lexemes?_eq]
  rfl

theorem State.run_blank {blanks : List Char} (h : Blank blanks) (state : State)
    (text : List Char) : state.run (blanks ++ text) = state.run text := by
  have hskip : (blanks ++ text).dropWhile isSpace = text.dropWhile isSpace :=
    List.dropWhile_append_of_pos fun c hc => isSpace_iff.mpr (h c hc)
  rw [run, run, lexemes?_eq (blanks ++ text), hskip, ← lexemes?_eq]

/-- A lexeme takes the machine one step further. -/
theorem State.run_lexeme {text rest : List Char} {lexeme : Lexeme}
    (hhead : ∀ c ∈ text.head?, isSpace c = false)
    (hsplit : splitLexeme? text = some (lexeme, rest)) (state : State) :
    state.run text = (state.step? lexeme).bind fun next => next.run rest := by
  cases text with
  | nil => cases hsplit
  | cons c tail =>
      have hskip : (c :: tail).dropWhile isSpace = c :: tail := by simp [hhead c rfl]
      rw [run, lexemes?_eq, hskip]
      simp only [hsplit, Option.bind_some]
      cases hrest : lexemes? rest with
      | none => cases state.step? lexeme <;> simp [run, hrest]
      | some lexemes => simp [run, hrest, List.foldlM_cons]

theorem State.run_mark {c : Char} {rest : List Char} {lexeme : Lexeme}
    (hsplit : splitLexeme? (c :: rest) = some (lexeme, rest)) (hc : isSpace c = false)
    (state : State) :
    state.run (c :: rest) = (state.step? lexeme).bind fun next => next.run rest := by
  refine run_lexeme (fun d hd => ?_) hsplit state
  rw [← Option.some.inj hd]
  exact hc

theorem State.run_quoted {text : String} {spelled : List Char} (h : Quoted text spelled)
    (rest : List Char) (state : State) :
    state.run (spelled ++ rest)
      = (state.step? (.string (some text))).bind fun next => next.run rest := by
  refine run_lexeme ?_ (splitLexeme?_of_quoted h rest) state
  obtain ⟨inner, -, rfl⟩ := h
  rintro c ⟨⟩
  rfl

/-! ## States -/

/-- The machine is where a value starts, and the value goes into the frames. -/
def ReadsValue (frames : List Frame) (state : State) : Prop :=
  ∀ lexeme, lexeme ≠ .rightBracket → state.step? lexeme = State.start? frames lexeme

/-- The machine is where a key starts, with these members before it. -/
def ReadsKey (frames : List Frame) (before : List (Option String × Json)) (state : State) :
    Prop :=
  ∀ key?, state.step? (.string key?) = some ⟨frames, .colon before key?⟩

theorem readsValue_value (frames : List Frame) : ReadsValue frames ⟨frames, .value⟩ := by
  intro lexeme _
  rfl

theorem readsValue_itemOrClose (frames : List Frame) :
    ReadsValue (.items [] :: frames) ⟨frames, .itemOrClose⟩ := by
  intro lexeme hlexeme
  cases lexeme with
  | rightBracket => exact absurd rfl hlexeme
  | _ => rfl

theorem readsKey_keyOrClose (frames : List Frame) :
    ReadsKey frames [] ⟨frames, .keyOrClose⟩ := by
  intro key?
  rfl

theorem readsKey_key (frames : List Frame) (before : List (Option String × Json)) :
    ReadsKey frames before ⟨frames, .key before⟩ := by
  intro key?
  rfl

/-! ## Phrases -/

/-- The members as an object has them. -/
def keyed (members : List (String × Json)) : List (Option String × Json) :=
  members.map fun (key, value) => (some key, value)

/-- What a text makes of the machine, if it stands for the phrase. -/
def Phrase.Taken (spelled : List Char) : Phrase → Prop
  | .value v | .padded v => ∀ frames state rest, ReadsValue frames state → Follows rest →
      state.run (spelled ++ rest) = State.run ⟨frames, .done v⟩ rest
  | .items vs => ∀ frames before state rest, ReadsValue (.items before :: frames) state →
      state.run (spelled ++ ']' :: rest)
        = State.run ⟨frames, .done (.array (before.reverse ++ vs))⟩ rest
  | .member key v => ∀ frames before state rest, ReadsKey frames before state →
      Follows rest → state.run (spelled ++ rest)
        = State.run ⟨.member before (some key) :: frames, .done v⟩ rest
  | .members ms => ∀ frames before state rest, ReadsKey frames before state →
      state.run (spelled ++ '\x7d' :: rest)
        = State.run ⟨frames, .done (.object (before.reverse ++ keyed ms))⟩ rest

/-- A value of one lexeme. -/
theorem ReadsValue.run_scalar {frames : List Frame} {state : State}
    (h : ReadsValue frames state) {text rest : List Char} {lexeme : Lexeme} {value : Json}
    (hhead : ∀ c ∈ text.head?, isSpace c = false)
    (hsplit : splitLexeme? text = some (lexeme, rest))
    (hstart : State.start? frames lexeme = some ⟨frames, .done value⟩) :
    state.run text = State.run ⟨frames, .done value⟩ rest := by
  have hlexeme : lexeme ≠ .rightBracket := by
    rintro rfl
    cases hstart
  rw [State.run_lexeme hhead hsplit, h lexeme hlexeme, hstart, Option.bind_some]

/-- **A phrase is taken in as what it spells.** -/
theorem Phrase.taken_of_spelled {phrase : Phrase} {spelled : List Char}
    (h : phrase.Spelled spelled) : phrase.Taken spelled := by
  induction h with
  | null | boolTrue | boolFalse =>
      intro frames state rest hstate _
      refine hstate.run_scalar ?_ rfl rfl
      rintro c ⟨⟩
      rfl
  | natural hn =>
      intro frames state rest hstate hrest
      exact hstate.run_scalar (fun c hc => (head?_toDigits_isSpace _ rest c hc).1)
        (splitLexeme?_natural _ hrest) rfl
  | negative hn =>
      intro frames state rest hstate hrest
      refine hstate.run_scalar ?_ (splitLexeme?_negative _ hrest) rfl
      rintro c ⟨⟩
      rfl
  | string hquoted =>
      intro frames state rest hstate _
      rw [State.run_quoted hquoted, hstate _ (by simp)]
      rfl
  | emptyArray hblanks =>
      intro frames state rest hstate _
      rw [List.append_assoc, List.cons_append, State.run_mark rfl rfl, hstate _ (by simp)]
      simp only [State.start?, Option.bind_some]
      rw [State.run_blank hblanks, List.singleton_append, State.run_mark rfl rfl]
      rfl
  | array _ ih =>
      intro frames state rest hstate _
      rw [List.append_assoc, List.cons_append, State.run_mark rfl rfl, hstate _ (by simp)]
      exact ih frames [] _ rest (readsValue_itemOrClose frames)
  | emptyObject hblanks =>
      intro frames state rest hstate _
      rw [List.append_assoc, List.cons_append, State.run_mark rfl rfl, hstate _ (by simp)]
      simp only [State.start?, Option.bind_some]
      rw [State.run_blank hblanks, List.singleton_append, State.run_mark rfl rfl]
      rfl
  | object _ ih =>
      intro frames state rest hstate _
      rw [List.append_assoc, List.cons_append, State.run_mark rfl rfl, hstate _ (by simp)]
      exact ih frames [] _ rest (readsKey_keyOrClose frames)
  | padded hbefore _ hafter ih =>
      intro frames state rest hstate hrest
      rw [List.append_assoc, List.append_assoc, State.run_blank hbefore,
        ih frames state _ hstate (hrest.blank hafter), State.run_blank hafter]
  | lastItem _ ih =>
      intro frames before state rest hstate
      rw [ih _ state _ hstate (by simp [Follows]), State.run_mark rfl rfl]
      simp [State.step?, State.close?]
  | moreItems _ _ ih ihrest =>
      intro frames before state rest hstate
      rw [List.append_assoc, List.cons_append, ih _ state _ hstate (by simp [Follows]),
        State.run_mark rfl rfl]
      simp only [State.step?, State.close?, Option.bind_some]
      rw [ihrest _ _ _ rest (readsValue_value _)]
      simp
  | member hbefore hkey hafter _ ih =>
      intro frames before state rest hstate hrest
      rw [List.append_assoc, List.append_assoc, List.append_assoc, State.run_blank hbefore,
        State.run_quoted hkey, hstate, Option.bind_some, State.run_blank hafter,
        List.cons_append, State.run_mark rfl rfl]
      exact ih _ _ rest (readsValue_value _) hrest
  | lastMember _ ih =>
      intro frames before state rest hstate
      rw [ih frames before state _ hstate (by simp [Follows]), State.run_mark rfl rfl]
      simp [State.step?, State.close?, keyed]
  | moreMembers _ _ ih ihrest =>
      intro frames before state rest hstate
      rw [List.append_assoc, List.cons_append, ih frames before state _ hstate (by simp [Follows]),
        State.run_mark rfl rfl]
      simp only [State.step?, State.close?, Option.bind_some]
      rw [ihrest _ _ _ rest (readsKey_key _ _)]
      simp [keyed]

/-- A text of the grammar is read as the value that it spells. -/
theorem parse?_of_spelled {value : Json} {text : String}
    (h : (Phrase.padded value).Spelled text.toList) : parse? text = some value := by
  have hrun : State.run ⟨[], .value⟩ text.toList = some ⟨[], .done value⟩ := by
    have htaken := Phrase.taken_of_spelled h [] ⟨[], .value⟩ [] (readsValue_value [])
      (by simp [Follows])
    rw [List.append_nil, State.run_nil] at htaken
    exact htaken
  rw [State.run, Option.bind_eq_some_iff] at hrun
  obtain ⟨lexemes, hlexemes, hfinal⟩ := hrun
  simp only [parse?, hlexemes, hfinal, Option.bind_eq_bind, Option.bind_some]
  rfl

end LineAsm.Json
