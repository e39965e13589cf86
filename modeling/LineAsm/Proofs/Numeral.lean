import Mathlib
import LineAsm.Line.Instruction

/-!
# Unsigned numerals

The texts that `Literal.readUnsigned` accepts in radix ten: an optional
plus, then at least one digit, with a value below `2 ^ 32`. `Numeral`
says so without reading anything, and `readUnsigned_eq_ok_iff` says that
reading accepts these texts and gives their value.

The reader checks the range at every digit and not once at the end. The
value never falls from one digit to the next, so it leaves the range
for good once it leaves it, and the two checks agree
(`accumulate_eq_ok_iff`).
-/

namespace LineAsm

namespace Literal

/-- The value of the digits after those of value `acc`. -/
def digitsValue (radix acc : Nat) : List Char → Nat
  | [] => acc
  | c :: rest => digitsValue radix (acc * radix + (digitValue? radix c).getD 0) rest

theorem le_digitsValue {radix : Nat} (hradix : 0 < radix) :
    ∀ (digits : List Char) (acc : Nat), acc ≤ digitsValue radix acc digits
  | [], _ => Nat.le_refl _
  | c :: rest, acc => by
      calc acc ≤ acc * radix := Nat.le_mul_of_pos_right acc hradix
        _ ≤ acc * radix + (digitValue? radix c).getD 0 := Nat.le_add_right ..
        _ ≤ _ := le_digitsValue hradix rest _

theorem accumulate_eq_ok_iff {radix limit : Nat} {overrun : IntegerError} (hradix : 0 < radix) :
    ∀ {digits : List Char} {acc n : Nat}, acc ≤ limit →
      (accumulate radix limit overrun acc digits = .ok n ↔
        (∀ c ∈ digits, (digitValue? radix c).isSome) ∧ digitsValue radix acc digits = n
          ∧ n ≤ limit)
  | [], acc, n, hacc => by
      simp only [accumulate, digitsValue, Except.ok.injEq, List.not_mem_nil, false_implies,
        implies_true, true_and]
      constructor
      · rintro rfl
        exact ⟨rfl, hacc⟩
      · exact And.left
  | c :: rest, acc, n, hacc => by
      rw [accumulate, digitsValue]
      cases hdigit : digitValue? radix c with
      | none => simp [hdigit]
      | some d =>
          by_cases hnext : acc * radix + d ≤ limit
          · simp only [if_pos hnext, Option.getD_some]
            rw [accumulate_eq_ok_iff hradix hnext]
            simp [hdigit]
          · have hgrows := le_digitsValue hradix rest (acc * radix + d)
            simp only [if_neg hnext, Option.getD_some]
            constructor
            · intro h
              cases h
            · rintro ⟨-, rfl, hle⟩
              omega

/-! ## Radix ten -/

/-- The text is an unsigned numeral of 32 bits with the value `n`. -/
def Numeral (text : List Char) (n : Nat) : Prop :=
  ∃ digits, (text = digits ∨ text = '+' :: digits) ∧ digits ≠ []
    ∧ (∀ c ∈ digits, '0' ≤ c ∧ c ≤ '9') ∧ Nat.ofDigitChars 10 digits 0 = n ∧ n ≤ 2 ^ 32 - 1

theorem digitValue?_ten (c : Char) :
    digitValue? 10 c = if '0' ≤ c ∧ c ≤ '9' then some (c.toNat - '0'.toNat) else none := by
  by_cases hdigit : '0' ≤ c ∧ c ≤ '9'
  · have hle : c.toNat ≤ 57 := hdigit.2
    have hlt : c.toNat - '0'.toNat < 10 := by
      rw [show '0'.toNat = 48 from rfl]
      omega
    simp only [digitValue?, if_pos hdigit, if_pos hlt]
  · simp only [digitValue?, if_neg hdigit]
    split
    · rw [if_neg (by omega)]
    · split
      · rw [if_neg (by omega)]
      · rw [if_neg (by omega)]

theorem isSome_digitValue?_ten {c : Char} :
    (digitValue? 10 c).isSome ↔ '0' ≤ c ∧ c ≤ '9' := by
  rw [digitValue?_ten]
  split <;> simp_all

theorem digitsValue_ten : ∀ {digits : List Char} (_ : ∀ c ∈ digits, '0' ≤ c ∧ c ≤ '9')
    (acc : Nat), digitsValue 10 acc digits = Nat.ofDigitChars 10 digits acc
  | [], _, acc => (Nat.ofDigitChars_nil).symm
  | c :: rest, h, acc => by
      rw [digitsValue, digitValue?_ten, if_pos (h c (List.mem_cons_self ..)), Option.getD_some,
        digitsValue_ten fun d hd => h d (List.mem_cons_of_mem _ hd), Nat.ofDigitChars_cons,
        Nat.mul_comm acc]

theorem readMagnitude_eq_ok_iff {digits : List Char} {n : Nat} :
    readMagnitude 10 ((1 <<< 32) - 1) .tooLarge digits = .ok n ↔
      digits ≠ [] ∧ (∀ c ∈ digits, '0' ≤ c ∧ c ≤ '9') ∧ Nat.ofDigitChars 10 digits 0 = n
        ∧ n ≤ 2 ^ 32 - 1 := by
  cases digits with
  | nil => simp [readMagnitude]
  | cons c rest =>
      show accumulate 10 _ _ 0 (c :: rest) = .ok n ↔ _
      rw [accumulate_eq_ok_iff (by decide) (Nat.zero_le _)]
      simp only [isSome_digitValue?_ten, ne_eq, reduceCtorEq, not_false_eq_true, true_and]
      refine and_congr_right fun hdigits => ?_
      rw [digitsValue_ten hdigits]
      rfl

/-- Reading accepts exactly the numerals, and gives their value. -/
theorem readUnsigned_eq_ok_iff {text : List Char} {n : Nat} :
    readUnsigned 10 text = .ok n ↔ Numeral text n := by
  -- A plus is no digit, so a text has at most one digit part.
  have hplus : ∀ digits : List Char, ¬ ∀ c ∈ '+' :: digits, '0' ≤ c ∧ c ≤ '9' :=
    fun digits h => absurd (h '+' (List.mem_cons_self ..)) (by decide)
  unfold readUnsigned
  split
  · simp [Numeral]
  · rename_i digits
    rw [readMagnitude_eq_ok_iff]
    constructor
    · exact fun h => ⟨digits, Or.inr rfl, h⟩
    · rintro ⟨digits', rfl | hsame, hdigits⟩
      · exact absurd hdigits.2.1 (hplus digits)
      · obtain ⟨-, rfl⟩ := List.cons.inj hsame
        exact hdigits
  · rename_i hne hhead
    rw [readMagnitude_eq_ok_iff]
    constructor
    · exact fun h => ⟨text, Or.inl rfl, h⟩
    · rintro ⟨digits, rfl | rfl, hdigits⟩
      · exact hdigits
      · exact absurd rfl (hhead digits)

theorem numeral_toDigits {n : Nat} (h : n ≤ 2 ^ 32 - 1) : Numeral (Nat.toDigits 10 n) n := by
  refine ⟨Nat.toDigits 10 n, Or.inl rfl, Nat.toDigits_ne_nil, fun c hc => ?_,
    Nat.ofDigitChars_ten_toDigits, h⟩
  have hdigit : c.isDigit = true := Nat.isDigit_of_mem_toDigits (by decide) (Nat.le_refl 10) hc
  simp only [Char.isDigit, ge_iff_le, Bool.and_eq_true, decide_eq_true_eq] at hdigit
  exact hdigit

theorem Numeral.le {text : List Char} {n : Nat} (h : Numeral text n) : n ≤ 2 ^ 32 - 1 := by
  obtain ⟨_, -, -, -, -, hle⟩ := h
  exact hle

theorem Numeral.unique {text : List Char} {n m : Nat} (hn : Numeral text n)
    (hm : Numeral text m) : n = m :=
  Except.ok.inj ((readUnsigned_eq_ok_iff.mpr hn).symm.trans (readUnsigned_eq_ok_iff.mpr hm))

end Literal

namespace Instruction

/-! ## Tokens that hold a numeral -/

/-- A register token: any one character, then a numeral. -/
def RegisterToken (token : String) (n : Nat) : Prop :=
  ∃ mark text, token.toList = mark :: text ∧ Literal.Numeral text n

def OffsetToken (token : String) (n : Nat) : Prop := Literal.Numeral token.toList n

theorem wordOfNumeral_eq_ok_iff {text : List Char} {w : Word} :
    ((Literal.readUnsigned 10 text).map (BitVec.ofNat 32)).mapError Reason.integer = .ok w ↔
      Literal.Numeral text w.toNat := by
  rw [← Literal.readUnsigned_eq_ok_iff]
  cases hread : Literal.readUnsigned 10 text with
  | error e => simp [Except.map, Except.mapError]
  | ok n =>
      have hn : n ≤ 2 ^ 32 - 1 := (Literal.readUnsigned_eq_ok_iff.mp hread).le
      simp only [Except.map, Except.mapError, Except.ok.injEq]
      rw [← BitVec.toNat_inj, BitVec.toNat_ofNat, Nat.mod_eq_of_lt (by omega)]

theorem readOffset_eq_ok_iff {token : String} {w : Word} :
    readOffset token = .ok w ↔ OffsetToken token w.toNat :=
  wordOfNumeral_eq_ok_iff

theorem readRegister_eq_ok_iff {token : String} {w : Word} :
    readRegister token = .ok w ↔ RegisterToken token w.toNat := by
  rw [readRegister, wordOfNumeral_eq_ok_iff, RegisterToken]
  cases token.toList with
  | nil =>
      -- The empty token has no mark, and its rest is no numeral either.
      simp [Literal.Numeral]
  | cons mark text =>
      constructor
      · exact fun h => ⟨mark, text, rfl, h⟩
      · rintro ⟨_, _, hsame, h⟩
        obtain ⟨-, rfl⟩ := List.cons.inj hsame
        exact h

theorem RegisterToken.unique {token : String} {n m : Nat} (hn : RegisterToken token n)
    (hm : RegisterToken token m) : n = m := by
  obtain ⟨mark, text, htext, hn⟩ := hn
  obtain ⟨mark', text', htext', hm⟩ := hm
  obtain ⟨-, rfl⟩ := List.cons.inj (htext.symm.trans htext')
  exact hn.unique hm

/-- A numeral is the value of a word. -/
theorem exists_word_of_le {n : Nat} (h : n ≤ 2 ^ 32 - 1) : ∃ w : Word, w.toNat = n :=
  ⟨BitVec.ofNat 32 n, by rw [BitVec.toNat_ofNat, Nat.mod_eq_of_lt (by omega)]⟩

theorem exists_registerToken_iff {token : String} :
    (∃ n, RegisterToken token n) ↔ ∃ w, readRegister token = .ok w := by
  simp only [readRegister_eq_ok_iff]
  constructor
  · rintro ⟨n, hn⟩
    obtain ⟨mark, text, htext, hnumeral⟩ := hn
    obtain ⟨w, rfl⟩ := exists_word_of_le hnumeral.le
    exact ⟨w, mark, text, htext, hnumeral⟩
  · rintro ⟨w, hw⟩
    exact ⟨w.toNat, hw⟩

theorem exists_offsetToken_iff {token : String} :
    (∃ n, OffsetToken token n) ↔ ∃ w, readOffset token = .ok w := by
  simp only [readOffset_eq_ok_iff]
  constructor
  · rintro ⟨n, hn⟩
    obtain ⟨w, rfl⟩ := exists_word_of_le (Literal.Numeral.le hn)
    exact ⟨w, hn⟩
  · rintro ⟨w, hw⟩
    exact ⟨w.toNat, hw⟩

end Instruction

end LineAsm
