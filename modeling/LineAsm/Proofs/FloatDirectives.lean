import LineAsm.Proofs.DecimalLiterals

/-!
# Which numbers a float directive accepts, and as what

A float directive takes a number that is not lost in single precision:
it must not be too large, nor vanish unless it is zero. The names of an
infinity and of what is no number are taken as they are, and any other
literal is refused (`Directive.float_directives`).

The word of a number is the nearest finite one (`RoundsTo`). Half way
between two words it is the one with the even significand. The sign bit is
kept apart: the magnitude is rounded without it and it is put in
afterwards, which changes nothing, because the nearest word is always
one with the sign of the number (`roundsTo_of_rounds`). Everything else
that is said about words comes from `Single.Rounds`, which fixes the
pattern of a number, however the number is spelled, and keeps the order
of numbers (`Directive.float_words`).
-/

namespace LineAsm

open Literal

namespace Single

/-! ## Words and the numbers they stand for -/

/-- The word stands for a number: its exponent is not the greatest one. -/
def IsFinite (w : Word) : Prop :=
  w.toNat / 2 ^ 23 % 2 ^ 8 ≠ 255

/-- The number that a finite word stands for. -/
def value (w : Word) : ℚ :=
  if w.getLsbD 31 then -magnitude (w.toNat % 2 ^ 31) else magnitude (w.toNat % 2 ^ 31)

/-- The word is the nearest finite one to `x`, and has an even significand
if another number is as near. -/
structure RoundsTo (x : ℚ) (w : Word) : Prop where
  finite : IsFinite w
  nearest : ∀ z, IsFinite z → |x - value w| ≤ |x - value z|
  even_of_tie : ∀ z, IsFinite z → value z ≠ value w → |x - value w| = |x - value z| →
    significand (w.toNat % 2 ^ 31) % 2 = 0

theorem isFinite_iff {w : Word} : IsFinite w ↔ w.toNat % 2 ^ 31 < infinity := by
  unfold IsFinite infinity
  omega

theorem abs_value (w : Word) : |value w| = magnitude (w.toNat % 2 ^ 31) := by
  unfold value
  split
  · rw [abs_neg, abs_of_nonneg (magnitude_nonneg _)]
  · exact abs_of_nonneg (magnitude_nonneg _)

variable {negative : Bool} {p : Nat}

theorem toNat_toWord (hp : p < 2 ^ 31) :
    (toWord negative p).toNat = (if negative then 2 ^ 31 else 0) + p := by
  unfold toWord
  rw [BitVec.toNat_ofNat]
  split <;> omega

theorem getLsbD_toWord (hp : p < 2 ^ 31) {i : Nat} (hi : i < 32) :
    (toWord negative p).getLsbD i = if i = 31 then negative else p.testBit i := by
  have hlast : p.testBit 31 = false := Nat.testBit_lt_two_pow hp
  rw [toWord, BitVec.getLsbD_ofNat, decide_eq_true hi, Bool.true_and]
  cases negative with
  | false =>
      simp only [Bool.false_eq_true, if_false]
      split
      · rename_i h
        rw [h, hlast]
      · rfl
  | true =>
      simp only [if_true, Nat.one_shiftLeft]
      split
      · rename_i h
        rw [h, Nat.testBit_two_pow_add_eq, hlast, Bool.not_false]
      · rw [Nat.testBit_two_pow_add_gt (by omega)]

theorem toNat_toWord_mod (hp : p < 2 ^ 31) : (toWord negative p).toNat % 2 ^ 31 = p := by
  rw [toNat_toWord hp]
  split <;> omega

theorem getLsbD_toWord_sign (hp : p < 2 ^ 31) : (toWord negative p).getLsbD 31 = negative := by
  rw [getLsbD_toWord hp (by decide), if_pos rfl]

theorem value_toWord (hp : p < 2 ^ 31) :
    value (toWord negative p) = if negative then -magnitude p else magnitude p := by
  rw [value, getLsbD_toWord_sign hp, toNat_toWord_mod hp]

/-- The other sign is the same word with the upper bit turned over. -/
theorem toWord_not (hp : p < 2 ^ 31) :
    toWord (!negative) p = toWord negative p ^^^ 0x80000000#32 := by
  have hsign : 0x80000000#32 = BitVec.twoPow 32 31 := by decide
  refine BitVec.eq_of_getLsbD_eq fun i hi => ?_
  rw [hsign, BitVec.getLsbD_xor, getLsbD_toWord hp hi, getLsbD_toWord hp hi,
    BitVec.getLsbD_twoPow]
  by_cases h : i = 31
  · subst h
    simp
  · simp [h, Ne.symm h]

/-! ## Rounding with a sign -/

/-- Only zero is as near to a number as to its negation. -/
theorem eq_zero_of_opposite {x a b : ℚ} (habs : |b| = |a|) (hne : b ≠ a)
    (htie : |x - a| = |x - b|) : x = 0 := by
  have hsquares : b ^ 2 = a ^ 2 := (sq_eq_sq_iff_abs_eq_abs _ _).mpr habs
  have hdistances : (x - a) ^ 2 = (x - b) ^ 2 := (sq_eq_sq_iff_abs_eq_abs _ _).mpr htie
  have hproduct : x * (b - a) = 0 := by linear_combination (hdistances + hsquares) / 2
  exact (mul_eq_zero.mp hproduct).resolve_right (sub_ne_zero.mpr hne)

/-- The magnitude is rounded, and the sign is put in afterwards. A word with
the other sign is never nearer, and as near only for zero. -/
theorem roundsTo_of_rounds {x : ℚ} (hx : x = if negative then -|x| else |x|)
    (hp : Rounds |x| p) (hfinite : p < infinity) : RoundsTo x (toWord negative p) := by
  have hlt : p < 2 ^ 31 := Nat.lt_trans hfinite (by decide)
  have hdistance : |x - value (toWord negative p)| = |(|x| - magnitude p)| := by
    rw [value_toWord hlt]
    cases negative with
    | false =>
        simp only [Bool.false_eq_true, if_false] at hx ⊢
        rw [← hx]
    | true =>
        simp only [if_true] at hx ⊢
        rw [abs_sub_comm |x|]
        congr 1
        linarith
  have hother : ∀ z, |(|x| - magnitude (z.toNat % 2 ^ 31))| ≤ |x - value z| := by
    intro z
    rw [← abs_value]
    exact abs_abs_sub_abs_le x (value z)
  refine ⟨?_, ?_, ?_⟩
  · rw [isFinite_iff, toNat_toWord_mod hlt]
    exact hfinite
  · intro z _
    rw [hdistance]
    exact (hp.nearest _).trans (hother z)
  · intro z _ hne htie
    rw [toNat_toWord_mod hlt, significand_mod_two]
    by_cases hr : z.toNat % 2 ^ 31 = p
    · -- The same magnitude with the other sign.
      have hzero := eq_zero_of_opposite (by rw [abs_value, abs_value, hr, toNat_toWord_mod hlt])
        hne htie
      have hp0 : p = 0 := by
        rw [hp.eq_zero_iff, hzero, abs_zero]
        positivity
      rw [hp0]
    · rw [hdistance] at htie
      exact hp.even_of_tie _ hr (le_antisymm (hp.nearest _) (htie ▸ hother z))

/-! ## Literals -/

theorem nearestDecimal_le (value : Decimal) : nearestDecimal value ≤ infinity := by
  obtain ⟨p, -, hnearest⟩ := nearestDecimal_rounds value
  rw [hnearest]
  exact Nat.min_le_left _ _

/-- A decimal is too large, or it vanishes, or it is rounded. -/
theorem ofLiteral_finite (value : Decimal) :
    (2 ^ 128 - 2 ^ 103 ≤ value.magnitude ∧ ofLiteral (.finite value) = .error .overflow)
      ∨ (0 < value.magnitude ∧ value.magnitude ≤ 2 ^ (-150 : ℤ)
        ∧ ofLiteral (.finite value) = .error .underflow)
      ∨ ((value.magnitude = 0 ∨ 2 ^ (-150 : ℤ) < value.magnitude)
        ∧ value.magnitude < 2 ^ 128 - 2 ^ 103
        ∧ ∃ p < infinity, Rounds value.magnitude p
          ∧ ofLiteral (.finite value) = .ok (toWord value.negative p)) := by
  obtain ⟨p, hp, hnearest⟩ := nearestDecimal_rounds value
  by_cases hlarge : infinity ≤ p
  · refine Or.inl ⟨hp.infinity_le_iff.mp hlarge, ?_⟩
    rw [Nat.min_eq_left hlarge] at hnearest
    rw [ofLiteral, if_pos hnearest]
  have hfinite : p < infinity := Nat.lt_of_not_le hlarge
  have hsmall := mt hp.infinity_le_iff.mpr hlarge
  rw [Nat.min_eq_right hfinite.le] at hnearest
  rw [ofLiteral, hnearest, if_neg (Nat.ne_of_lt hfinite)]
  by_cases hzero : value.magnitude = 0
  · refine Or.inr (Or.inr ⟨Or.inl hzero, lt_of_not_ge hsmall, p, hfinite, hp, ?_⟩)
    rw [if_neg]
    exact fun h => h.2 (Decimal.magnitude_eq_zero_iff.mp hzero)
  · have hdigits := mt Decimal.magnitude_eq_zero_iff.mpr hzero
    by_cases hvanish : p = 0
    · refine Or.inr (Or.inl ⟨?_, hp.eq_zero_iff.mp hvanish, if_pos ⟨hvanish, hdigits⟩⟩)
      exact lt_of_le_of_ne value.magnitude_nonneg (Ne.symm hzero)
    · refine Or.inr (Or.inr ⟨Or.inr ?_, lt_of_not_ge hsmall, p, hfinite, hp, ?_⟩)
      · exact lt_of_not_ge (mt hp.eq_zero_iff.mpr hvanish)
      · rw [if_neg]
        exact fun h => hvanish h.1

end Single

namespace Decimal

theorem abs_toRat (value : Decimal) : |value.toRat| = value.magnitude := by
  unfold toRat
  split
  · rw [abs_neg, abs_of_nonneg value.magnitude_nonneg]
  · exact abs_of_nonneg value.magnitude_nonneg

theorem toRat_eq (value : Decimal) :
    value.toRat = if value.negative then -|value.toRat| else |value.toRat| := by
  rw [abs_toRat, toRat]

/-- The literal with the other sign. -/
def Literal.negate : Literal → Literal
  | .finite ⟨negative, digits, exponent⟩ => .finite ⟨!negative, digits, exponent⟩
  | .infinity negative => .infinity !negative
  | .notANumber negative => .notANumber !negative

/-- A minus in front of a literal is its sign, if it had none. -/
theorem read_minus {text : List Char} (hne : text ≠ []) (h : startsWithSign text = false) :
    Literal.read ('-' :: text) = (Literal.read text).map Literal.negate := by
  have hminus : splitSign ('-' :: text) = (true, text) := rfl
  simp only [Literal.read, if_neg hne, if_neg (List.cons_ne_nil _ _), hminus,
    splitSign_of_unsigned h]
  split
  · rfl
  · split
    · rfl
    · cases readUnsigned? text <;> rfl

end Decimal

namespace Single

theorem ofLiteral_negate (l : Decimal.Literal) :
    ofLiteral l.negate = (ofLiteral l).map (· ^^^ 0x80000000#32) := by
  cases l with
  | finite value =>
      obtain ⟨negative, digits, exponent⟩ := value
      have hlt : nearestDecimal ⟨negative, digits, exponent⟩ < 2 ^ 31 :=
        Nat.lt_of_le_of_lt (nearestDecimal_le _) (by decide)
      have hsame : nearestDecimal ⟨!negative, digits, exponent⟩
          = nearestDecimal ⟨negative, digits, exponent⟩ := rfl
      simp only [Decimal.Literal.negate, ofLiteral, hsame, toWord_not hlt]
      split
      · rfl
      · split <;> rfl
  | infinity negative => exact congrArg Except.ok (toWord_not (by decide))
  | notANumber negative => exact congrArg Except.ok (toWord_not (by decide))

end Single

namespace Directive

/-! ## Reading a directive -/

variable {literal : String} {l : Decimal.Literal}

theorem float_eq_ok_iff (hread : Decimal.Literal.read literal.toList = .ok l) {w : Word} :
    ofTokens "df" literal = .ok (some ⟨.float, w⟩) ↔ Single.ofLiteral l = .ok w := by
  rw [ofTokens_eq_ok_iff rfl, readLiteral, readFloat, hread]
  show (Single.ofLiteral l).mapError Reason.float = .ok w ↔ _
  cases Single.ofLiteral l <;> simp [Except.mapError]

theorem float_refused_iff (hread : Decimal.Literal.read literal.toList = .ok l) (e : FloatError) :
    Refused "df" .float literal e.message ↔ Single.ofLiteral l = .error e := by
  have hmarker : Kind.ofMarker? "df" = some .float := rfl
  refine (refused_message_iff hmarker (.float e)).trans ?_
  rw [readLiteral, readFloat, hread]
  show (Single.ofLiteral l).mapError Reason.float = _ ↔ _
  cases Single.ofLiteral l <;> simp [Except.mapError]

theorem float_refused_of_error {e : FloatError}
    (hread : Decimal.Literal.read literal.toList = .error e) :
    Refused "df" .float literal e.message := by
  have hmarker : Kind.ofMarker? "df" = some .float := rfl
  refine (refused_message_iff hmarker (.float e)).mpr ?_
  rw [readLiteral, readFloat, hread]
  rfl

theorem exists_literal_of_ok {w : Word} (h : ofTokens "df" literal = .ok (some ⟨.float, w⟩)) :
    ∃ l, Decimal.Literal.read literal.toList = .ok l ∧ Single.ofLiteral l = .ok w := by
  cases hread : Decimal.Literal.read literal.toList with
  | error e =>
      obtain ⟨reason, hrefused, -⟩ := float_refused_of_error hread
      cases hrefused.symm.trans h
  | ok l => exact ⟨l, rfl, (float_eq_ok_iff hread).mp h⟩

/-! ## Acceptance -/

/-- A number is taken unless it is lost, and the fault says how it is lost. -/
theorem float_number {x : ℚ} (hx : Decimal.NumberLiteral literal.toList x) :
    ((∃ word, ofTokens "df" literal = .ok (some ⟨.float, word⟩)) ↔
        x = 0 ∨ (2 ^ (-150 : ℤ) < |x| ∧ |x| < 2 ^ 128 - 2 ^ 103))
      ∧ (Refused "df" .float literal "overflows f32" ↔ 2 ^ 128 - 2 ^ 103 ≤ |x|)
      ∧ (Refused "df" .float literal "underflows f32" ↔ 0 < |x| ∧ |x| ≤ 2 ^ (-150 : ℤ)) := by
  obtain ⟨value, hread, -, rfl⟩ := Decimal.read_of_number hx
  have hoverflow : Refused "df" .float literal "overflows f32"
      ↔ Single.ofLiteral (.finite value) = .error .overflow := float_refused_iff hread .overflow
  have hunderflow : Refused "df" .float literal "underflows f32"
      ↔ Single.ofLiteral (.finite value) = .error .underflow := float_refused_iff hread .underflow
  have hrange : (2 : ℚ) ^ (-150 : ℤ) < 2 ^ 128 - 2 ^ 103 := by norm_num
  have hpositive : (0 : ℚ) < 2 ^ (-150 : ℤ) := by positivity
  rw [hoverflow, hunderflow, ← abs_eq_zero, value.abs_toRat]
  simp only [float_eq_ok_iff hread]
  rcases Single.ofLiteral_finite value with
    ⟨hlarge, hresult⟩ | ⟨hnonzero, hsmall, hresult⟩ | ⟨hlow, hhigh, p, -, -, hresult⟩ <;>
      rw [hresult]
  · refine ⟨iff_of_false (by simp) ?_, iff_of_true rfl hlarge, iff_of_false (by simp) ?_⟩
    · rintro (hzero | ⟨-, hlt⟩) <;> linarith
    · rintro ⟨-, hle⟩
      linarith
  · refine ⟨iff_of_false (by simp) ?_, iff_of_false (by simp) ?_,
      iff_of_true rfl ⟨hnonzero, hsmall⟩⟩
    · rintro (hzero | ⟨hlt, -⟩) <;> linarith
    · intro hle
      linarith
  · refine ⟨iff_of_true ⟨_, rfl⟩ ?_, iff_of_false (by simp) ?_, iff_of_false (by simp) ?_⟩
    · exact hlow.imp_right fun hlt => ⟨hlt, hhigh⟩
    · exact not_le_of_gt hhigh
    · rintro ⟨hpos, hle⟩
      rcases hlow with hzero | hlt <;> linarith

/-- **What a float directive accepts.** A number is taken if it is zero, or if
it is more than half of the least number of single precision and less
than half way from the greatest one to the next power of two. Otherwise
it is refused as too large, or as too small. The names are taken in
letters of either case, and all that is neither a number nor a name is
refused as malformed. -/
theorem float_directives (literal : String) :
    (∀ x, Decimal.NumberLiteral literal.toList x →
        ((∃ word, ofTokens "df" literal = .ok (some ⟨.float, word⟩)) ↔
            x = 0 ∨ (2 ^ (-150 : ℤ) < |x| ∧ |x| < 2 ^ 128 - 2 ^ 103))
          ∧ (Refused "df" .float literal "overflows f32" ↔ 2 ^ 128 - 2 ^ 103 ≤ |x|)
          ∧ (Refused "df" .float literal "underflows f32" ↔ 0 < |x| ∧ |x| ≤ 2 ^ (-150 : ℤ)))
      ∧ (Decimal.NamedLiteral literal.toList →
        ∃ word, ofTokens "df" literal = .ok (some ⟨.float, word⟩))
      ∧ ((∀ x, ¬ Decimal.NumberLiteral literal.toList x) →
        ¬ Decimal.NamedLiteral literal.toList →
          Refused "df" .float literal (if literal = "" then "cannot parse float from empty string"
            else "invalid float literal")) := by
  refine ⟨fun x hx => float_number hx, ?_, ?_⟩
  · intro hname
    rcases Decimal.read_of_named hname with hread | hread
    · exact ⟨_, (float_eq_ok_iff hread).mpr rfl⟩
    · exact ⟨_, (float_eq_ok_iff hread).mpr rfl⟩
  · intro hnumber hname
    have hrefused := float_refused_of_error (Decimal.read_of_neither hnumber hname)
    simp only [String.toList_eq_nil_iff] at hrefused
    split at hrefused
    · rename_i hempty
      rw [if_pos hempty]
      exact hrefused
    · rename_i hempty
      rw [if_neg hempty]
      exact hrefused

/-! ## Words -/

theorem splitSign_fst_iff {text : List Char} :
    (splitSign text).1 = true ↔ text.head? = some '-' := by
  rcases splitSign_cases text with ⟨rest, rfl, hsplit⟩ | ⟨rest, rfl, hsplit⟩ | ⟨hsign, hsplit⟩ <;>
    rw [hsplit]
  · exact iff_of_true rfl rfl
  · exact iff_of_false (by simp) (by simp)
  · refine iff_of_false (by simp) fun hhead => ?_
    obtain ⟨rest, rfl⟩ := List.head?_eq_some_iff.mp hhead
    cases hsign

/-- The word of a number is its pattern with the sign of the literal. -/
theorem exists_pattern_of_number {x : ℚ} {word : Word}
    (hx : Decimal.NumberLiteral literal.toList x)
    (h : ofTokens "df" literal = .ok (some ⟨.float, word⟩)) :
    ∃ p < Single.infinity, Single.Rounds |x| p
      ∧ x = (if (splitSign literal.toList).1 then -|x| else |x|)
      ∧ word = Single.toWord (splitSign literal.toList).1 p := by
  obtain ⟨value, hread, hnegative, rfl⟩ := Decimal.read_of_number hx
  rw [float_eq_ok_iff hread] at h
  rcases Single.ofLiteral_finite value with
    ⟨-, hresult⟩ | ⟨-, -, hresult⟩ | ⟨-, -, p, hp, hrounds, hresult⟩
  · cases hresult.symm.trans h
  · cases hresult.symm.trans h
  · refine ⟨p, hp, ?_, ?_, ?_⟩
    · rw [value.abs_toRat]
      exact hrounds
    · rw [← hnegative]
      exact value.toRat_eq
    · rw [← hnegative]
      exact Except.ok.inj (h.symm.trans hresult)

/-- The sign bit is the sign of the literal, of a name as well. -/
theorem getLsbD_float {word : Word} (h : ofTokens "df" literal = .ok (some ⟨.float, word⟩)) :
    word.getLsbD 31 = (splitSign literal.toList).1 := by
  by_cases hnumber : ∃ x, Decimal.NumberLiteral literal.toList x
  · obtain ⟨x, hx⟩ := hnumber
    obtain ⟨p, hp, -, -, rfl⟩ := exists_pattern_of_number hx h
    exact Single.getLsbD_toWord_sign (Nat.lt_trans hp (by decide))
  · by_cases hname : Decimal.NamedLiteral literal.toList
    · rcases Decimal.read_of_named hname with hread | hread
      · obtain rfl := Except.ok.inj ((float_eq_ok_iff hread).mp h)
        exact Single.getLsbD_toWord_sign (by decide)
      · obtain rfl := Except.ok.inj ((float_eq_ok_iff hread).mp h)
        exact Single.getLsbD_toWord_sign (by decide)
    · obtain ⟨l, hread, -⟩ := exists_literal_of_ok h
      rw [Decimal.read_of_neither (not_exists.mp hnumber) hname] at hread
      cases hread

/-- **The word of a float directive.** It is the nearest one to the number,
its upper bit is the sign of the literal, and nothing else about the
spelling matters: literals that say the same number have the same word, a
minus in front turns over the upper bit alone, and greater numbers have
greater words. -/
theorem float_words {word : Word} (h : ofTokens "df" literal = .ok (some ⟨.float, word⟩)) :
    (word.getLsbD 31 = true ↔ literal.toList.head? = some '-')
      ∧ (startsWithSign literal.toList = false →
        ofTokens "df" ("-" ++ literal) = .ok (some ⟨.float, word ^^^ 0x80000000#32⟩))
      ∧ ∀ x, Decimal.NumberLiteral literal.toList x →
        Single.RoundsTo x word
          ∧ ∀ other y otherWord, Decimal.NumberLiteral other.toList y →
            ofTokens "df" other = .ok (some ⟨.float, otherWord⟩) →
            (x = y → (literal.toList.head? = some '-' ↔ other.toList.head? = some '-') →
                word = otherWord)
              ∧ (literal.toList.head? ≠ some '-' → other.toList.head? ≠ some '-' → x ≤ y →
                word.toNat ≤ otherWord.toNat) := by
  refine ⟨?_, ?_, ?_⟩
  · rw [getLsbD_float h, splitSign_fst_iff]
  · intro hsign
    obtain ⟨l, hread, hword⟩ := exists_literal_of_ok h
    have hne : literal.toList ≠ [] := by
      intro hnil
      rw [hnil] at hread
      cases hread
    have hminus : Decimal.Literal.read ("-" ++ literal).toList = .ok l.negate := by
      rw [String.toList_append]
      show Decimal.Literal.read ('-' :: literal.toList) = _
      rw [Decimal.read_minus hne hsign, hread]
      rfl
    rw [float_eq_ok_iff hminus, Single.ofLiteral_negate, hword]
    rfl
  · intro x hx
    obtain ⟨p, hp, hrounds, hsigned, rfl⟩ := exists_pattern_of_number hx h
    refine ⟨Single.roundsTo_of_rounds hsigned hrounds hp, ?_⟩
    intro other y otherWord hy hother
    obtain ⟨r, hr, hrounds', hsigned', rfl⟩ := exists_pattern_of_number hy hother
    constructor
    · rintro rfl hheads
      rw [hrounds.unique hrounds']
      rw [← splitSign_fst_iff, ← splitSign_fst_iff, ← Bool.eq_iff_iff] at hheads
      rw [hheads]
    · intro hplus hplus' hxy
      rw [ne_eq, ← splitSign_fst_iff, Bool.not_eq_true] at hplus hplus'
      rw [hplus] at hsigned ⊢
      rw [hplus'] at hsigned' ⊢
      simp only [Bool.false_eq_true, if_false] at hsigned hsigned'
      rw [hsigned, hsigned'] at hxy
      have hle : p ≤ r := hrounds.mono hrounds' hxy
      rw [Single.toNat_toWord (Nat.lt_trans hp (by decide)),
        Single.toNat_toWord (Nat.lt_trans hr (by decide))]
      exact Nat.add_le_add_left hle _

theorem float_words_tie :
    ofTokens "df" "16777217" = .ok (some ⟨.float, 0x4B800000#32⟩)
      ∧ ofTokens "df" ("-" ++ "16777217") = .ok (some ⟨.float, 0xCB800000#32⟩)
      ∧ Single.RoundsTo 16777217 0x4B800000#32 := by
  have h : ofTokens "df" "16777217" = .ok (some ⟨.float, 0x4B800000#32⟩) := by decide
  obtain ⟨-, hminus, hnumber⟩ := float_words h
  have hdigits : Decimal.DigitRun "16777217".toList 16777217 :=
    Decimal.digitRun_iff.mpr ⟨by simp, by decide⟩
  have hliteral : Decimal.NumberLiteral "16777217".toList 16777217 := by
    refine ⟨[], _, _, rfl, ⟨_, [], 16777217, 0, (List.append_nil _).symm, ?_,
      Or.inl ⟨rfl, rfl⟩, ?_⟩, Or.inl ⟨by decide, rfl⟩⟩
    · exact ⟨_, [], _, 0, Or.inl ⟨rfl, rfl⟩, Or.inl (by decide), hdigits,
        Decimal.digitRun_iff.mpr ⟨by simp, rfl⟩, by norm_num⟩
    · norm_num
  exact ⟨h, hminus (by decide), (hnumber _ hliteral).1⟩

end Directive

end LineAsm
