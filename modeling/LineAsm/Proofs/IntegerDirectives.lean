import LineAsm.Proofs.DigitTexts

/-!
# Which integers a directive accepts

A decimal directive takes an optional sign and digits, a hexadecimal one
an optional sign, an optional mark and digits, and both take the
integers that have a word (`Directive.integer_directives`).

What a literal says is fixed without reading it. `Spells` relates a text
to the number that its digits stand for, however many zeros come first,
and `SignedLiteral` adds the sign and the mark. The readers work on
integers of 64 bits and check the range of words afterwards. The wider
range contains the narrower one, so a literal that is refused for the
wider one is out of the narrower one as well, and the two checks differ
only in the reason that they give.

A literal falls into sign, mark and digits in one way only. This is where
the order of the steps matters: a digit is neither a sign nor the letter
of the mark, so what is taken off in front never belongs to the digits
(`signedLiteral_hex_iff`).
-/

namespace LineAsm

namespace Literal

/-! ## Digits and numbers -/

/-- The character is the digit `d` of the radix, in either case. -/
def IsDigit (radix : Nat) (c : Char) (d : Nat) : Prop :=
  d < radix ∧ (c = Nat.digitChar d ∨ c = (Nat.digitChar d).toUpper)

/-- The text is a number of the radix: at least one digit, the most
significant one first. -/
def Spells (radix : Nat) (text : List Char) (n : Nat) : Prop :=
  ∃ ds, ds ≠ [] ∧ List.Forall₂ (IsDigit radix) text ds ∧ Nat.ofDigits radix ds.reverse = n

theorem digitValue?_toUpper_digitChar {radix d : Nat} (hradix : radix ≤ 16) (hd : d < radix) :
    digitValue? radix (Nat.digitChar d).toUpper = some d := by
  have h : ∀ r : Fin 17, ∀ e : Fin 16, e.val < r.val →
      digitValue? r.val (Nat.digitChar e.val).toUpper = some e.val := by decide
  exact h ⟨radix, by omega⟩ ⟨d, by omega⟩ hd

/-- A character of a range is its first one counted on. -/
theorem exists_eq_ofNat_of_range {c lo hi : Char} (h : lo ≤ c ∧ c ≤ hi) :
    ∃ e ≤ hi.toNat - lo.toNat, c.toNat - lo.toNat = e ∧ c = Char.ofNat (lo.toNat + e) := by
  have hlo : lo.toNat ≤ c.toNat := h.1
  have hhi : c.toNat ≤ hi.toNat := h.2
  refine ⟨c.toNat - lo.toNat, by omega, rfl, ?_⟩
  rw [Nat.add_sub_cancel' hlo, Char.ofNat_toNat]

theorem digitValue?_eq_some_iff {radix : Nat} (hradix : radix ≤ 16) {c : Char} {d : Nat} :
    digitValue? radix c = some d ↔ IsDigit radix c d := by
  constructor
  · intro h
    simp only [digitValue?, Option.ite_none_right_eq_some, Option.some.injEq] at h
    obtain ⟨hlt, hvalue⟩ := h
    rw [hvalue] at hlt
    refine ⟨hlt, ?_⟩
    have hten : ∀ e ≤ 9, Char.ofNat ('0'.toNat + e) = Nat.digitChar e := by decide
    have hlower : ∀ e ≤ 5, Char.ofNat ('a'.toNat + e) = Nat.digitChar (e + 10) := by decide
    have hupper : ∀ e ≤ 5, Char.ofNat ('A'.toNat + e) = (Nat.digitChar (e + 10)).toUpper := by
      decide
    split at hvalue
    · rename_i hrange
      obtain ⟨e, hle, he, rfl⟩ := exists_eq_ofNat_of_range hrange
      rw [he] at hvalue
      exact Or.inl (hvalue ▸ hten e hle)
    split at hvalue
    · rename_i hrange
      obtain ⟨e, hle, he, rfl⟩ := exists_eq_ofNat_of_range hrange
      rw [he] at hvalue
      exact Or.inl (hvalue ▸ hlower e hle)
    split at hvalue
    · rename_i hrange
      obtain ⟨e, hle, he, rfl⟩ := exists_eq_ofNat_of_range hrange
      rw [he] at hvalue
      exact Or.inr (hvalue ▸ hupper e hle)
    · exact absurd hlt (hvalue ▸ Nat.lt_irrefl _)
  · rintro ⟨hd, rfl | rfl⟩
    · exact digitValue?_digitChar hradix hd
    · exact digitValue?_toUpper_digitChar hradix hd

/-- The accumulator and the digits. -/
theorem digitsValue_eq_foldl {radix : Nat} (hradix : radix ≤ 16) {text : List Char}
    {ds : List Nat} (h : List.Forall₂ (IsDigit radix) text ds) (acc : Nat) :
    digitsValue radix acc text = ds.foldl (fun value d => d + radix * value) acc := by
  induction h generalizing acc with
  | nil => rfl
  | cons hdigit _ ih =>
      rw [digitsValue, (digitValue?_eq_some_iff hradix).mpr hdigit, Option.getD_some, ih,
        List.foldl_cons, Nat.add_comm, Nat.mul_comm]

theorem digitsValue_of_forall₂ {radix : Nat} (hradix : radix ≤ 16) {text : List Char}
    {ds : List Nat} (h : List.Forall₂ (IsDigit radix) text ds) :
    digitsValue radix 0 text = Nat.ofDigits radix ds.reverse := by
  rw [digitsValue_eq_foldl hradix h, Nat.ofDigits_eq_foldr, List.foldr_reverse]
  rfl

theorem exists_digits_iff {radix : Nat} (hradix : radix ≤ 16) {text : List Char} :
    (∀ c ∈ text, (digitValue? radix c).isSome)
      ↔ ∃ ds, List.Forall₂ (IsDigit radix) text ds := by
  induction text with
  | nil => simp
  | cons c text ih =>
      rw [List.forall_mem_cons, ih, Option.isSome_iff_exists]
      constructor
      · rintro ⟨⟨d, hd⟩, ds, hds⟩
        exact ⟨d :: ds, .cons ((digitValue?_eq_some_iff hradix).mp hd) hds⟩
      · rintro ⟨_, hds⟩
        cases hds with
        | cons hdigit hds =>
            exact ⟨⟨_, (digitValue?_eq_some_iff hradix).mpr hdigit⟩, _, hds⟩

/-- Reading the digits behind a sign accepts the numbers up to the limit. -/
theorem readMagnitude_eq_ok_iff_spells {radix limit : Nat} (hpos : 0 < radix)
    (hradix : radix ≤ 16) {overrun : IntegerError} {digits : List Char} {n : Nat} :
    readMagnitude radix limit overrun digits = .ok n ↔ Spells radix digits n ∧ n ≤ limit := by
  cases digits with
  | nil =>
      constructor
      · intro h
        cases h
      · rintro ⟨⟨ds, hne, hds, -⟩, -⟩
        cases hds
        exact absurd rfl hne
  | cons c rest =>
      show accumulate radix limit overrun 0 (c :: rest) = .ok n ↔ _
      rw [accumulate_eq_ok_iff hpos (Nat.zero_le _), exists_digits_iff hradix, ← and_assoc]
      refine and_congr_left fun _ => ?_
      constructor
      · rintro ⟨⟨ds, hds⟩, hvalue⟩
        refine ⟨ds, ?_, hds, (digitsValue_of_forall₂ hradix hds).symm.trans hvalue⟩
        rintro rfl
        cases hds
      · rintro ⟨ds, -, hds, hvalue⟩
        exact ⟨⟨ds, hds⟩, (digitsValue_of_forall₂ hradix hds).trans hvalue⟩

/-- A digit is no sign, and not the letter of the mark. -/
theorem IsDigit.not_mem_marks {radix : Nat} (hradix : radix ≤ 16) {c : Char} {d : Nat}
    (h : IsDigit radix c d) : c ∉ ['+', '-', 'x', 'X'] := by
  have hdigit : ∀ e < 16, Nat.digitChar e ∉ ['+', '-', 'x', 'X']
      ∧ (Nat.digitChar e).toUpper ∉ ['+', '-', 'x', 'X'] := by decide
  obtain ⟨hlower, hupper⟩ := hdigit d (Nat.lt_of_lt_of_le h.1 hradix)
  rcases h.2 with rfl | rfl
  · exact hlower
  · exact hupper

theorem Spells.not_mem_marks {radix : Nat} (hradix : radix ≤ 16) {text : List Char} {n : Nat}
    (h : Spells radix text n) : ∀ c ∈ text, c ∉ ['+', '-', 'x', 'X'] := by
  obtain ⟨ds, -, hds, -⟩ := h
  intro c hc
  obtain ⟨d, hd⟩ := Option.isSome_iff_exists.mp ((exists_digits_iff hradix).mpr ⟨ds, hds⟩ c hc)
  exact ((digitValue?_eq_some_iff hradix).mp hd).not_mem_marks hradix

theorem Spells.ne_nil {radix : Nat} {text : List Char} {n : Nat} (h : Spells radix text n) :
    text ≠ [] := by
  rintro rfl
  obtain ⟨ds, hne, hds, -⟩ := h
  cases hds
  exact hne rfl

theorem Spells.unique {radix : Nat} (hradix : radix ≤ 16) {text : List Char} {n m : Nat}
    (hn : Spells radix text n) (hm : Spells radix text m) : n = m := by
  obtain ⟨ds, -, hds, rfl⟩ := hn
  obtain ⟨es, -, hes, rfl⟩ := hm
  rw [← digitsValue_of_forall₂ hradix hds, digitsValue_of_forall₂ hradix hes]

/-! ## Signs -/

theorem startsWithSign_iff {text : List Char} :
    startsWithSign text = true ↔ ∃ c ∈ ['+', '-'], ∃ rest, text = c :: rest := by
  unfold startsWithSign
  split <;> simp_all

theorem Spells.startsWithSign {radix : Nat} (hradix : radix ≤ 16) {text : List Char} {n : Nat}
    (h : Spells radix text n) : startsWithSign text = false := by
  rw [← Bool.not_eq_true, startsWithSign_iff]
  rintro ⟨c, hc, rest, rfl⟩
  have hmarks := h.not_mem_marks hradix c (List.mem_cons_self ..)
  simp_all

/-- What is taken off as a sign. -/
theorem splitSign_cases (text : List Char) :
    (∃ rest, text = '-' :: rest ∧ splitSign text = (true, rest))
      ∨ (∃ rest, text = '+' :: rest ∧ splitSign text = (false, rest))
      ∨ (startsWithSign text = false ∧ splitSign text = (false, text)) := by
  unfold splitSign startsWithSign
  split <;> simp_all

theorem splitSign_of_unsigned {text : List Char} (h : startsWithSign text = false) :
    splitSign text = (false, text) := by
  rcases splitSign_cases text with ⟨rest, rfl, -⟩ | ⟨rest, rfl, -⟩ | ⟨-, hsplit⟩
  · cases h
  · cases h
  · exact hsplit

/-- The literal is an optional sign, one of the marks and a number of the
radix, and with its sign it stands for `v`. -/
def SignedLiteral (radix : Nat) (marks : List (List Char)) (literal : List Char) (v : Int) :
    Prop :=
  ∃ sign mark digits n, literal = sign ++ mark ++ digits ∧ mark ∈ marks
    ∧ Spells radix digits n ∧ ((sign ∈ [[], ['+']] ∧ v = n) ∨ (sign = ['-'] ∧ v = -n))

/-- The sign of a literal is the one that is taken off. -/
theorem signedLiteral_iff {radix : Nat} (hradix : radix ≤ 16) {marks : List (List Char)}
    (hmarks : ∀ mark ∈ marks, startsWithSign mark = false) {literal : List Char} {v : Int} :
    SignedLiteral radix marks literal v ↔
      ∃ mark ∈ marks, ∃ digits n, (splitSign literal).2 = mark ++ digits
        ∧ Spells radix digits n ∧ v = if (splitSign literal).1 then -(n : Int) else n := by
  constructor
  · rintro ⟨sign, mark, digits, n, rfl, hmark, hspells, hsign⟩
    have hrest : startsWithSign (mark ++ digits) = false := by
      cases mark with
      | nil => exact hspells.startsWithSign hradix
      | cons c rest =>
          rw [← Bool.not_eq_true, startsWithSign_iff]
          rintro ⟨c, hc, _, heq⟩
          obtain ⟨rfl, -⟩ := List.cons.inj heq
          have hsign := startsWithSign_iff.mpr ⟨_, hc, rest, rfl⟩
          rw [hmarks _ hmark] at hsign
          cases hsign
    rw [List.append_assoc]
    refine ⟨mark, hmark, digits, n, ?_⟩
    rcases hsign with ⟨hplus, rfl⟩ | ⟨rfl, rfl⟩
    · rcases List.mem_pair.mp hplus with rfl | rfl
      · rw [List.nil_append, splitSign_of_unsigned hrest]
        exact ⟨rfl, hspells, rfl⟩
      · exact ⟨rfl, hspells, rfl⟩
    · exact ⟨rfl, hspells, rfl⟩
  · rintro ⟨mark, hmark, digits, n, hrest, hspells, rfl⟩
    rcases splitSign_cases literal with ⟨rest, rfl, hsplit⟩ | ⟨rest, rfl, hsplit⟩ | ⟨-, hsplit⟩ <;>
      rw [hsplit] at hrest ⊢
    · exact ⟨['-'], mark, digits, n, congrArg ('-' :: ·) hrest, hmark, hspells,
        Or.inr ⟨rfl, rfl⟩⟩
    · exact ⟨['+'], mark, digits, n, congrArg ('+' :: ·) hrest, hmark, hspells,
        Or.inl ⟨by decide, rfl⟩⟩
    · exact ⟨[], mark, digits, n, hrest, hmark, hspells, Or.inl ⟨by decide, rfl⟩⟩

/-- Without a mark, the digits are all that is left. -/
theorem signedLiteral_plain_iff {radix : Nat} (hradix : radix ≤ 16) {literal : List Char}
    {v : Int} :
    SignedLiteral radix [[]] literal v ↔
      ∃ n, Spells radix (splitSign literal).2 n
        ∧ v = if (splitSign literal).1 then -(n : Int) else n := by
  rw [signedLiteral_iff hradix (List.forall_mem_singleton.mpr rfl)]
  simp only [List.mem_singleton, exists_eq_left, List.nil_append]
  constructor
  · rintro ⟨_, n, rfl, h⟩
    exact ⟨n, h⟩
  · rintro ⟨n, h⟩
    exact ⟨_, n, rfl, h⟩

theorem SignedLiteral.unique_plain {radix : Nat} (hradix : radix ≤ 16) {literal : List Char}
    {u v : Int} (hu : SignedLiteral radix [[]] literal u)
    (hv : SignedLiteral radix [[]] literal v) : u = v := by
  obtain ⟨n, hn, rfl⟩ := (signedLiteral_plain_iff hradix).mp hu
  obtain ⟨m, hm, rfl⟩ := (signedLiteral_plain_iff hradix).mp hv
  rw [hn.unique hradix hm]

/-- Either sign, read with its own limit. -/
theorem readSigned_eq (radix : Nat) {text : List Char} (hne : text ≠ []) :
    readSigned radix text =
      if (splitSign text).1 then
        (readMagnitude radix (1 <<< 63) .tooSmall (splitSign text).2).map
          fun n : Nat => -(n : Int)
      else
        (readMagnitude radix ((1 <<< 63) - 1) .tooLarge (splitSign text).2).map
          fun n : Nat => (n : Int) := by
  rcases splitSign_cases text with ⟨rest, rfl, hsplit⟩ | ⟨rest, rfl, hsplit⟩ | ⟨hsign, hsplit⟩
  · rw [hsplit, readSigned]
    cases readMagnitude radix (1 <<< 63) .tooSmall rest <;> rfl
  · rw [hsplit, readSigned]
    cases readMagnitude radix ((1 <<< 63) - 1) .tooLarge rest <;> rfl
  · rw [hsplit, readSigned_of_unsigned hne hsign]
    cases readMagnitude radix ((1 <<< 63) - 1) .tooLarge text <;> rfl

theorem map_eq_ok_iff {ε α β : Type} {result : Except ε α} {f : α → β} {b : β} :
    result.map f = .ok b ↔ ∃ a, result = .ok a ∧ f a = b := by
  cases result <;> simp [Except.map]

/-- A signed integer without a mark is accepted if it has 64 bits. -/
theorem readSigned_eq_ok_iff {radix : Nat} (hpos : 0 < radix) (hradix : radix ≤ 16)
    {text : List Char} {v : Int} :
    readSigned radix text = .ok v ↔ SignedLiteral radix [[]] text v ∧ -2 ^ 63 ≤ v ∧ v < 2 ^ 63 := by
  rw [signedLiteral_plain_iff hradix]
  by_cases hne : text = []
  · subst hne
    constructor
    · intro h
      cases h
    · rintro ⟨⟨n, hspells, -⟩, -⟩
      exact absurd rfl hspells.ne_nil
  rw [readSigned_eq radix hne]
  cases (splitSign text).1 with
  | true =>
      simp only [if_true, map_eq_ok_iff, readMagnitude_eq_ok_iff_spells hpos hradix,
        Nat.one_shiftLeft]
      constructor
      · rintro ⟨n, ⟨hspells, hle⟩, rfl⟩
        exact ⟨⟨n, hspells, rfl⟩, by omega, by omega⟩
      · rintro ⟨⟨n, hspells, rfl⟩, hlow, -⟩
        exact ⟨n, ⟨hspells, by omega⟩, rfl⟩
  | false =>
      simp only [Bool.false_eq_true, if_false, map_eq_ok_iff,
        readMagnitude_eq_ok_iff_spells hpos hradix, Nat.one_shiftLeft]
      constructor
      · rintro ⟨n, ⟨hspells, hle⟩, rfl⟩
        exact ⟨⟨n, hspells, rfl⟩, by omega, by omega⟩
      · rintro ⟨⟨n, hspells, rfl⟩, -, hhigh⟩
        exact ⟨n, ⟨hspells, by omega⟩, rfl⟩

/-- Without a sign, the integer is the number of the digits. -/
theorem readSigned_eq_ok_iff_of_unsigned {radix : Nat} (hpos : 0 < radix) (hradix : radix ≤ 16)
    {digits : List Char} (hsign : startsWithSign digits = false) {v : Int} :
    readSigned radix digits = .ok v ↔ ∃ n, Spells radix digits n ∧ n < 2 ^ 63 ∧ v = n := by
  rw [readSigned_eq_ok_iff hpos hradix, signedLiteral_plain_iff hradix,
    splitSign_of_unsigned hsign]
  simp only [Bool.false_eq_true, if_false]
  constructor
  · rintro ⟨⟨n, hspells, rfl⟩, -, hhigh⟩
    exact ⟨n, hspells, by omega, rfl⟩
  · rintro ⟨n, hspells, hn, rfl⟩
    exact ⟨⟨n, hspells, rfl⟩, by omega, by omega⟩

end Literal

/-- No two reasons have their message in common. -/
theorem Reason.message_injective : Function.Injective Reason.message := by
  rintro ((_ | _ | _ | _) | (_ | _ | _ | _) | _ | _) ((_ | _ | _ | _) | (_ | _ | _ | _) | _ | _) h
  all_goals simp_all [Reason.message, IntegerError.message, FloatError.message]

namespace Directive

open Literal

/-! ## The mark of the radix -/

/-- The mark of a hexadecimal integer, in either case, or none. -/
def hexMarks : List (List Char) :=
  [[], ['0', 'x'], ['0', 'X']]

theorem exists_hexMark (text : List Char) : ∃ mark ∈ hexMarks, text = mark ++ dropHexMark text := by
  unfold dropHexMark
  split
  · exact ⟨['0', 'x'], by decide, rfl⟩
  · exact ⟨['0', 'X'], by decide, rfl⟩
  · exact ⟨[], by decide, rfl⟩

/-- A text that has no mark keeps to itself behind one. -/
theorem dropHexMark_append {mark text : List Char} (hmark : mark ∈ hexMarks)
    (htext : dropHexMark text = text) : dropHexMark (mark ++ text) = text := by
  simp only [hexMarks, List.mem_cons, List.not_mem_nil, or_false] at hmark
  rcases hmark with rfl | rfl | rfl
  · exact htext
  · rfl
  · rfl

theorem dropHexMark_of_spells {digits : List Char} {n : Nat} (h : Spells 16 digits n) :
    dropHexMark digits = digits := by
  have hmarks := h.not_mem_marks (Nat.le_refl 16)
  unfold dropHexMark
  split
  · exact absurd (hmarks 'x' (by simp)) (by decide)
  · exact absurd (hmarks 'X' (by simp)) (by decide)
  · rfl

/-- A literal falls into sign, mark and digits in one way only. -/
theorem signedLiteral_hex_iff {literal : List Char} {v : Int} :
    SignedLiteral 16 hexMarks literal v ↔
      ∃ n, Spells 16 (dropHexMark (splitSign literal).2) n
        ∧ v = if (splitSign literal).1 then -(n : Int) else n := by
  rw [signedLiteral_iff (Nat.le_refl 16) (by decide)]
  constructor
  · rintro ⟨mark, hmark, digits, n, hrest, hspells, hv⟩
    rw [hrest, dropHexMark_append hmark (dropHexMark_of_spells hspells)]
    exact ⟨n, hspells, hv⟩
  · rintro ⟨n, hspells, hv⟩
    obtain ⟨mark, hmark, hrest⟩ := exists_hexMark (splitSign literal).2
    exact ⟨mark, hmark, _, n, hrest, hspells, hv⟩

theorem signedLiteral_hex_unique {literal : List Char} {u v : Int}
    (hu : SignedLiteral 16 hexMarks literal u) (hv : SignedLiteral 16 hexMarks literal v) :
    u = v := by
  obtain ⟨n, hn, rfl⟩ := signedLiteral_hex_iff.mp hu
  obtain ⟨m, hm, rfl⟩ := signedLiteral_hex_iff.mp hv
  rw [hn.unique (Nat.le_refl 16) hm]

/-- A sign stands behind the sign and the mark of a literal, at least one of
which is there. -/
def RepeatedSign (literal : List Char) : Prop :=
  ∃ sign mark c rest, literal = sign ++ mark ++ c :: rest ∧ sign ∈ [[], ['+'], ['-']]
    ∧ mark ∈ hexMarks ∧ (sign ≠ [] ∨ mark ≠ []) ∧ c ∈ ['+', '-']

theorem repeatedSign_iff {literal : List Char} :
    RepeatedSign literal ↔ startsWithSign (dropHexMark (splitSign literal).2) = true := by
  rw [startsWithSign_iff]
  constructor
  · rintro ⟨sign, mark, c, rest, rfl, hsign, hmark, hfront, hc⟩
    refine ⟨c, hc, rest, ?_⟩
    have hdrop : dropHexMark (mark ++ c :: rest) = c :: rest := by
      refine dropHexMark_append hmark ?_
      rcases List.mem_pair.mp hc with rfl | rfl <;> rfl
    have hsplit : (splitSign (sign ++ mark ++ c :: rest)).2 = mark ++ c :: rest := by
      simp only [hexMarks, List.mem_cons, List.not_mem_nil, or_false] at hsign hmark
      rcases hsign with rfl | rfl | rfl
      · -- Without a sign in front there is a mark, and a mark is no sign.
        rcases hmark with rfl | rfl | rfl
        · simp at hfront
        · rfl
        · rfl
      · rfl
      · rfl
    rw [hsplit, hdrop]
  · rintro ⟨c, hc, rest, hdigits⟩
    obtain ⟨mark, hmark, hrest⟩ := exists_hexMark (splitSign literal).2
    rw [hdigits] at hrest
    rcases splitSign_cases literal with ⟨_, rfl, hsplit⟩ | ⟨_, rfl, hsplit⟩ | ⟨hsign, hsplit⟩ <;>
      rw [hsplit] at hrest
    · exact ⟨['-'], mark, c, rest, congrArg ('-' :: ·) hrest, by decide, hmark,
        Or.inl (by decide), hc⟩
    · exact ⟨['+'], mark, c, rest, congrArg ('+' :: ·) hrest, by decide, hmark,
        Or.inl (by decide), hc⟩
    · refine ⟨[], mark, c, rest, hrest, by decide, hmark, Or.inr ?_, hc⟩
      rintro rfl
      rw [startsWithSign_iff.mpr ⟨c, hc, rest, hrest⟩] at hsign
      cases hsign

/-! ## The range of words -/

/-- The integer is a word, signed or unsigned. -/
def HasWord (v : Int) : Prop :=
  -2 ^ 31 ≤ v ∧ v ≤ 2 ^ 32 - 1

theorem wordOf_of_hasWord {v : Int} (h : HasWord v) : wordOf v = .ok (BitVec.ofInt 32 v) :=
  wordOf_eq_ok h.1 (by have := h.2; omega)

theorem wordOf_of_not_hasWord {v : Int} (h : ¬ HasWord v) : wordOf v = .error .outOfWordRange := by
  rw [wordOf, Word.ofInt?, if_neg]
  rintro ⟨hlow, hhigh⟩
  exact h ⟨hlow, by omega⟩

theorem eq_ofInt_iff {w : Word} {v : Int} :
    w = BitVec.ofInt 32 v ↔ (w.toNat : Int) = v % 2 ^ 32 := by
  rw [← BitVec.toNat_inj, BitVec.toNat_ofInt]
  omega

theorem wordOf_eq_ok_iff {v : Int} {w : Word} :
    wordOf v = .ok w ↔ HasWord v ∧ (w.toNat : Int) = v % 2 ^ 32 := by
  rw [← eq_ofInt_iff]
  by_cases h : HasWord v
  · rw [wordOf_of_hasWord h, Except.ok.injEq, eq_comm]
    exact (and_iff_right h).symm
  · rw [wordOf_of_not_hasWord h]
    exact iff_of_false (by simp) fun hword => h hword.1

theorem wordOf_eq_error_iff {v : Int} {reason : Reason} :
    wordOf v = .error reason ↔ ¬ HasWord v ∧ reason = .outOfWordRange := by
  by_cases h : HasWord v
  · rw [wordOf_of_hasWord h]
    exact iff_of_false (by simp) fun hword => hword.1 h
  · rw [wordOf_of_not_hasWord h, Except.error.injEq, eq_comm]
    exact (and_iff_right h).symm

/-- An integer is read, then its range is checked. -/
theorem mapError_bind_wordOf_eq_ok_iff {result : Except IntegerError Int} {w : Word} :
    (result.mapError Reason.integer >>= wordOf) = .ok w ↔
      ∃ v, result = .ok v ∧ HasWord v ∧ (w.toNat : Int) = v % 2 ^ 32 := by
  cases result with
  | error cause => simp [Except.mapError, bind, Except.bind]
  | ok v => simp [Except.mapError, bind, Except.bind, wordOf_eq_ok_iff]

theorem mapError_bind_wordOf_eq_error_iff {result : Except IntegerError Int} {reason : Reason} :
    (result.mapError Reason.integer >>= wordOf) = .error reason ↔
      (∃ cause, result = .error cause ∧ reason = .integer cause)
        ∨ ∃ v, result = .ok v ∧ ¬ HasWord v ∧ reason = .outOfWordRange := by
  cases result with
  | error cause => simp [Except.mapError, bind, Except.bind, eq_comm]
  | ok v => simp [Except.mapError, bind, Except.bind, wordOf_eq_error_iff]

/-! ## What a directive takes -/

/-- The directive is refused with the message, and the fault names the whole
literal. -/
def Refused (marker : String) (kind : Kind) (literal message : String) : Prop :=
  ∃ reason, ofTokens marker literal = .error (.unreadable kind.subject literal reason)
    ∧ reason.message = message

/-- The directive takes the literals that say an integer with a word, and
refuses all others. Those that say an integer which fits the reader but has
no word are refused for their range, and only those. -/
structure TakesIntegers (marker : String) (kind : Kind) (literal : String)
    (spelled fits : Int → Prop) : Prop where
  accepted_iff : ∀ word, ofTokens marker literal = .ok (some ⟨kind, word⟩) ↔
    ∃ v, spelled v ∧ HasWord v ∧ (word.toNat : Int) = v % 2 ^ 32
  accepted_or_refused : (∃ word, ofTokens marker literal = .ok (some ⟨kind, word⟩))
    ∨ ∃ message, Refused marker kind literal message
  outOfRange_iff : Refused marker kind literal "out of 32-bit range" ↔
    ∃ v, spelled v ∧ fits v ∧ ¬ HasWord v

variable {marker literal : String} {kind : Kind}

theorem ofTokens_eq_ok_iff (hmarker : Kind.ofMarker? marker = some kind) {word : Word} :
    ofTokens marker literal = .ok (some ⟨kind, word⟩) ↔
      readLiteral kind literal.toList = .ok word := by
  simp only [ofTokens, hmarker, read]
  cases readLiteral kind literal.toList <;> simp [Except.map, Except.mapError]

theorem refused_iff (hmarker : Kind.ofMarker? marker = some kind) {message : String} :
    Refused marker kind literal message ↔
      ∃ reason, readLiteral kind literal.toList = .error reason ∧ reason.message = message := by
  simp only [Refused, ofTokens, hmarker, read]
  cases readLiteral kind literal.toList <;> simp [Except.map, Except.mapError]

/-- The message of a fault tells which of the checks has failed. -/
theorem refused_message_iff (hmarker : Kind.ofMarker? marker = some kind) (reason : Reason) :
    Refused marker kind literal reason.message ↔
      readLiteral kind literal.toList = .error reason := by
  simp only [refused_iff hmarker, Reason.message_injective.eq_iff, exists_eq_right]

theorem exists_word_or_refused (hmarker : Kind.ofMarker? marker = some kind) :
    (∃ word, ofTokens marker literal = .ok (some ⟨kind, word⟩))
      ∨ ∃ message, Refused marker kind literal message := by
  simp only [ofTokens_eq_ok_iff hmarker, refused_iff hmarker]
  cases readLiteral kind literal.toList with
  | error reason => exact Or.inr ⟨_, reason, rfl, rfl⟩
  | ok word => exact Or.inl ⟨word, rfl⟩

variable {spelled fits : Int → Prop}

/-- A reader of integers followed by the check of the range. An integer with a
word fits the reader, so what the reader refuses has no word. -/
theorem TakesIntegers.of_result (hmarker : Kind.ofMarker? marker = some kind)
    {result : Except IntegerError Int}
    (hread : readLiteral kind literal.toList = (result.mapError Reason.integer >>= wordOf))
    (hresult : ∀ v, result = .ok v ↔ spelled v ∧ fits v) (hfits : ∀ v, HasWord v → fits v) :
    TakesIntegers marker kind literal spelled fits where
  accepted_iff := by
    intro word
    rw [ofTokens_eq_ok_iff hmarker, hread, mapError_bind_wordOf_eq_ok_iff]
    refine exists_congr fun v => ?_
    rw [hresult, and_assoc]
    exact and_congr_right fun _ => and_iff_right_of_imp fun h => hfits v h.1
  accepted_or_refused := exists_word_or_refused hmarker
  outOfRange_iff := by
    refine (refused_message_iff hmarker .outOfWordRange).trans ?_
    rw [hread, mapError_bind_wordOf_eq_error_iff]
    simp [hresult, and_assoc]

/-- A literal that is refused for another reason says no integer. -/
theorem TakesIntegers.of_error (hmarker : Kind.ofMarker? marker = some kind) {reason : Reason}
    (hread : readLiteral kind literal.toList = .error reason) (hreason : reason ≠ .outOfWordRange)
    (hspelled : ∀ v, ¬ spelled v) : TakesIntegers marker kind literal spelled fits where
  accepted_iff := by
    intro word
    rw [ofTokens_eq_ok_iff hmarker, hread]
    exact iff_of_false (by simp) fun ⟨v, hv, _⟩ => hspelled v hv
  accepted_or_refused := exists_word_or_refused hmarker
  outOfRange_iff := by
    refine (refused_message_iff hmarker .outOfWordRange).trans ?_
    rw [hread]
    exact iff_of_false (by simpa using hreason) fun ⟨v, hv, _⟩ => hspelled v hv

theorem TakesIntegers.accepted (h : TakesIntegers marker kind literal spelled fits) {v : Int}
    (hspelled : spelled v) (hv : HasWord v) :
    ofTokens marker literal = .ok (some ⟨kind, BitVec.ofInt 32 v⟩) :=
  (h.accepted_iff _).mpr ⟨v, hspelled, hv, eq_ofInt_iff.mp rfl⟩

theorem TakesIntegers.refused (h : TakesIntegers marker kind literal spelled fits) {v : Int}
    (hunique : ∀ u, spelled u → u = v) (hv : ¬ HasWord v) :
    ∃ message, Refused marker kind literal message := by
  refine h.accepted_or_refused.resolve_left ?_
  rintro ⟨word, hword⟩
  obtain ⟨u, hspelled, hu, -⟩ := (h.accepted_iff word).mp hword
  exact hv (hunique u hspelled ▸ hu)

/-! ## Decimal and hexadecimal -/

theorem takesIntegers_decimal (literal : String) :
    TakesIntegers "di" .decimal literal (SignedLiteral 10 [[]] literal.toList)
      (fun v => -2 ^ 63 ≤ v ∧ v < 2 ^ 63) := by
  have hread : readLiteral .decimal literal.toList
      = ((readSigned 10 literal.toList).mapError Reason.integer >>= wordOf) := rfl
  refine TakesIntegers.of_result rfl hread ?_ ?_
  · exact fun v => readSigned_eq_ok_iff (by decide) (by decide)
  · rintro v ⟨hlow, hhigh⟩
    exact ⟨by omega, by omega⟩

/-- The value of the digits with the sign of the literal. -/
def signedValue (literal : List Char) : Except IntegerError Int :=
  (readSigned 16 (dropHexMark (splitSign literal).2)).map fun value =>
    if (splitSign literal).1 then -value else value

theorem signedValue_eq_ok_iff {literal : List Char} (h : ¬ RepeatedSign literal) {v : Int} :
    signedValue literal = .ok v ↔ SignedLiteral 16 hexMarks literal v ∧ v.natAbs < 2 ^ 63 := by
  rw [repeatedSign_iff, Bool.not_eq_true] at h
  simp only [signedValue, map_eq_ok_iff, signedLiteral_hex_iff,
    readSigned_eq_ok_iff_of_unsigned (by decide : 0 < 16) (Nat.le_refl 16) h]
  constructor
  · rintro ⟨_, ⟨n, hspells, hn, rfl⟩, rfl⟩
    refine ⟨⟨n, hspells, rfl⟩, ?_⟩
    split <;> omega
  · rintro ⟨⟨n, hspells, rfl⟩, hn⟩
    refine ⟨n, ⟨n, hspells, ?_, rfl⟩, rfl⟩
    split at hn <;> omega

theorem readHex_of_not_repeatedSign {literal : List Char} (h : ¬ RepeatedSign literal) :
    readHex literal = ((signedValue literal).mapError Reason.integer >>= wordOf) := by
  rw [repeatedSign_iff, Bool.not_eq_true] at h
  simp only [readHex, signedValue, h, Bool.false_eq_true, if_false]
  cases readSigned 16 (dropHexMark (splitSign literal).2) <;> rfl

theorem readHex_of_repeatedSign {literal : List Char} (h : RepeatedSign literal) :
    readHex literal = .error .repeatedSign := by
  rw [repeatedSign_iff] at h
  simp only [readHex, h, if_true]
  rfl

theorem not_signedLiteral_of_repeatedSign {literal : List Char} (h : RepeatedSign literal)
    (v : Int) : ¬ SignedLiteral 16 hexMarks literal v := by
  rw [repeatedSign_iff] at h
  rw [signedLiteral_hex_iff]
  rintro ⟨n, hspells, -⟩
  rw [hspells.startsWithSign (Nat.le_refl 16)] at h
  cases h

theorem takesIntegers_hex (literal : String) :
    TakesIntegers "dh" .hex literal (SignedLiteral 16 hexMarks literal.toList)
      (fun v => v.natAbs < 2 ^ 63) := by
  by_cases h : RepeatedSign literal.toList
  · exact TakesIntegers.of_error rfl (readHex_of_repeatedSign h) (by decide)
      (not_signedLiteral_of_repeatedSign h)
  · refine TakesIntegers.of_result rfl (readHex_of_not_repeatedSign h) ?_ ?_
    · exact fun v => signedValue_eq_ok_iff h
    · rintro v ⟨hlow, hhigh⟩
      omega

theorem refused_repeatedSign_iff (literal : String) :
    Refused "dh" .hex literal "repeated sign" ↔ RepeatedSign literal.toList := by
  have hmarker : Kind.ofMarker? "dh" = some .hex := rfl
  refine (refused_message_iff hmarker .repeatedSign).trans ?_
  show readHex literal.toList = _ ↔ _
  by_cases h : RepeatedSign literal.toList
  · exact iff_of_true (readHex_of_repeatedSign h) h
  · refine iff_of_false ?_ h
    rw [readHex_of_not_repeatedSign h, mapError_bind_wordOf_eq_error_iff]
    simp

/-- The decimal directive takes an optional sign and digits, the hexadecimal
one an optional sign, an optional mark and digits, and both take the integers
that have a word. A repeated sign is refused as such, a hexadecimal value is
negated without leaving the 64 bits that it is read in, and the two directives
agree on every integer that both can say. -/
theorem integer_directives (literal : String) :
    TakesIntegers "di" .decimal literal (SignedLiteral 10 [[]] literal.toList)
        (fun v => -2 ^ 63 ≤ v ∧ v < 2 ^ 63)
      ∧ TakesIntegers "dh" .hex literal (SignedLiteral 16 hexMarks literal.toList)
        (fun v => v.natAbs < 2 ^ 63)
      ∧ (Refused "dh" .hex literal "repeated sign" ↔ RepeatedSign literal.toList)
      ∧ (∀ value, startsWithSign (dropHexMark (splitSign literal.toList).2) = false →
          readSigned 16 (dropHexMark (splitSign literal.toList).2) = .ok value →
          -2 ^ 63 ≤ -value ∧ -value < 2 ^ 63)
      ∧ ∀ other v, SignedLiteral 10 [[]] literal.toList v →
          SignedLiteral 16 hexMarks other.toList v →
          (∃ word, ofTokens "di" literal = .ok (some ⟨.decimal, word⟩)
              ∧ ofTokens "dh" other = .ok (some ⟨.hex, word⟩))
            ∨ (∃ message, Refused "di" .decimal literal message)
              ∧ ∃ message, Refused "dh" .hex other message := by
  refine ⟨takesIntegers_decimal literal, takesIntegers_hex literal,
    refused_repeatedSign_iff literal, ?_, ?_⟩
  · intro value hsign hread
    obtain ⟨n, -, hn, rfl⟩ :=
      (readSigned_eq_ok_iff_of_unsigned (by decide) (Nat.le_refl 16) hsign).mp hread
    exact ⟨by omega, by omega⟩
  · intro other v hdecimal hhex
    by_cases hv : HasWord v
    · exact Or.inl ⟨_, (takesIntegers_decimal literal).accepted hdecimal hv,
        (takesIntegers_hex other).accepted hhex hv⟩
    · refine Or.inr ⟨(takesIntegers_decimal literal).refused ?_ hv,
        (takesIntegers_hex other).refused ?_ hv⟩
      · exact fun u hu => hu.unique_plain (by decide) hdecimal
      · exact fun u hu => signedLiteral_hex_unique hu hhex

example : ofTokens "dh" "-0X0007f" = .ok (some ⟨.hex, -127⟩)
    ∧ ofTokens "di" "-0127" = .ok (some ⟨.decimal, -127⟩) := by
  decide

end Directive

end LineAsm
