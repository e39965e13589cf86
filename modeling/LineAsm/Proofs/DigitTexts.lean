import LineAsm.Image.Listing
import LineAsm.Line.Directive
import LineAsm.Proofs.Numeral

/-!
# Reading digit texts back

Numbers are written digit by digit, the last one first in the recursion
of `Nat.toDigits`, and read by an accumulator from the left. That the
reader gives the number back (`digitsValue_toDigits`) is an induction
along the writer: the text of a number is the text of its quotient by
the radix, followed by the digit of the remainder.

On top of it stand the literals of directives. A word is read from the
decimal text of its unsigned value (`readDecimal_toNat`), from that of
its signed value (`readDecimal_toInt`), and from its line in a
hexadecimal listing (`readHex_hexLine`).
-/

namespace LineAsm

namespace Literal

/-! ## Digits -/

theorem digitValue?_digitChar {radix d : Nat} (hradix : radix ≤ 16) (hd : d < radix) :
    digitValue? radix (Nat.digitChar d) = some d := by
  have h : ∀ r : Fin 17, ∀ e : Fin 16, e.val < r.val →
      digitValue? r.val (Nat.digitChar e.val) = some e.val := by decide
  exact h ⟨radix, by omega⟩ ⟨d, by omega⟩ hd

/-- The text is made of digits of the radix, in lower case. -/
def IsDigits (radix : Nat) (text : List Char) : Prop :=
  ∀ c ∈ text, ∃ d < radix, c = Nat.digitChar d

theorem isDigits_toDigits {radix : Nat} (hradix : 1 < radix) (n : Nat) :
    IsDigits radix (Nat.toDigits radix n) := by
  intro c h
  induction n using Nat.strongRecOn with
  | ind n ih =>
      by_cases hn : n < radix
      · rw [Nat.toDigits_of_lt_base hn] at h
        exact ⟨n, hn, List.mem_singleton.mp h⟩
      · rw [Nat.toDigits_of_base_le hradix (Nat.le_of_not_lt hn)] at h
        rcases List.mem_append.mp h with h | h
        · exact ih (n / radix) (Nat.div_lt_self (by omega) hradix) h
        · exact ⟨n % radix, Nat.mod_lt _ (by omega), List.mem_singleton.mp h⟩

theorem digitsValue_append (radix : Nat) (first second : List Char) (acc : Nat) :
    digitsValue radix acc (first ++ second)
      = digitsValue radix (digitsValue radix acc first) second := by
  induction first generalizing acc with
  | nil => rfl
  | cons c first ih => exact ih _

theorem digitsValue_digitChar {radix d : Nat} (hradix : radix ≤ 16) (hd : d < radix)
    (acc : Nat) : digitsValue radix acc [Nat.digitChar d] = acc * radix + d := by
  rw [digitsValue, digitValue?_digitChar hradix hd]
  rfl

/-- The digits of a number have its value. -/
theorem digitsValue_toDigits {radix : Nat} (hradix : 1 < radix) (hle : radix ≤ 16) (n : Nat) :
    digitsValue radix 0 (Nat.toDigits radix n) = n := by
  induction n using Nat.strongRecOn with
  | ind n ih =>
      by_cases hn : n < radix
      · rw [Nat.toDigits_of_lt_base hn, digitsValue_digitChar hle hn, Nat.zero_mul, Nat.zero_add]
      · have hquotient : n / radix < n := Nat.div_lt_self (by omega) hradix
        have hremainder : n % radix < radix := Nat.mod_lt _ (by omega)
        rw [Nat.toDigits_of_base_le hradix (Nat.le_of_not_lt hn), digitsValue_append,
          ih _ hquotient, digitsValue_digitChar hle hremainder, Nat.div_add_mod']

theorem readMagnitude_of_digits {radix limit n : Nat} {digits : List Char} (hradix : 1 < radix)
    (hle : radix ≤ 16) (hne : digits ≠ []) (hdigits : IsDigits radix digits)
    (hvalue : digitsValue radix 0 digits = n) (hn : n ≤ limit) (overrun : IntegerError) :
    readMagnitude radix limit overrun digits = .ok n := by
  have hread : accumulate radix limit overrun 0 digits = .ok n := by
    rw [accumulate_eq_ok_iff (by omega) (Nat.zero_le _)]
    refine ⟨fun c hc => ?_, hvalue, hn⟩
    obtain ⟨d, hd, rfl⟩ := hdigits c hc
    rw [digitValue?_digitChar hle hd]
    rfl
  cases digits with
  | nil => exact absurd rfl hne
  | cons c rest => exact hread

theorem readMagnitude_toDigits {radix limit n : Nat} (hradix : 1 < radix) (hle : radix ≤ 16)
    (hn : n ≤ limit) (overrun : IntegerError) :
    readMagnitude radix limit overrun (Nat.toDigits radix n) = .ok n :=
  readMagnitude_of_digits hradix hle Nat.toDigits_ne_nil
    (isDigits_toDigits hradix n) (digitsValue_toDigits hradix hle n) hn overrun

/-- Only the text of zero starts with a zero. -/
theorem eq_zero_of_head?_toDigits {radix n : Nat} (hradix : 1 < radix) (hle : radix ≤ 16)
    (h : (Nat.toDigits radix n).head? = some '0') : n = 0 := by
  have hdigit : ∀ d : Fin 16, Nat.digitChar d.val = '0' → d.val = 0 := by decide
  induction n using Nat.strongRecOn with
  | ind n ih =>
      by_cases hn : n < radix
      · rw [Nat.toDigits_of_lt_base hn, List.head?_cons] at h
        exact hdigit ⟨n, by omega⟩ (Option.some.inj h)
      · -- The first digit is that of the quotient, which is not zero.
        have hquotient : n / radix < n := Nat.div_lt_self (by omega) hradix
        have hpos : 0 < n / radix := Nat.div_pos (Nat.le_of_not_lt hn) (by omega)
        rw [Nat.toDigits_of_base_le hradix (Nat.le_of_not_lt hn), List.head?_append] at h
        cases hhead : (Nat.toDigits radix (n / radix)).head? with
        | none => exact absurd (List.head?_eq_none_iff.mp hhead) Nat.toDigits_ne_nil
        | some c =>
            rw [hhead, Option.some_or] at h
            exact absurd (ih _ hquotient (hhead.trans h)) (by omega)

/-! ## Padding -/

theorem isDigits_leftpad {radix : Nat} (hradix : 1 < radix) (width n : Nat) :
    IsDigits radix ((Nat.toDigits radix n).leftpad width '0') := by
  intro c h
  rw [List.leftpad, List.mem_append] at h
  rcases h with h | h
  · exact ⟨0, by omega, (List.mem_replicate.mp h).2⟩
  · exact isDigits_toDigits hradix n c h

theorem length_leftpad_toDigits {radix width n : Nat} (hradix : 1 < radix) (hwidth : 0 < width)
    (hn : n < radix ^ width) : ((Nat.toDigits radix n).leftpad width '0').length = width := by
  have hle : (Nat.toDigits radix n).length ≤ width :=
    (Nat.length_toDigits_le_iff hradix hwidth).mpr hn
  rw [List.length_leftpad, Nat.max_eq_left hle]

theorem digitsValue_replicate_zero {radix : Nat} (hradix : 1 < radix) (hle : radix ≤ 16)
    (count : Nat) : digitsValue radix 0 (List.replicate count '0') = 0 := by
  have hzero : digitValue? radix '0' = some 0 :=
    digitValue?_digitChar (d := 0) hle (by omega)
  induction count with
  | zero => rfl
  | succ count ih =>
      rw [List.replicate_succ, digitsValue, hzero, Nat.zero_mul]
      exact ih

theorem digitsValue_leftpad {radix : Nat} (hradix : 1 < radix) (hle : radix ≤ 16)
    (width n : Nat) : digitsValue radix 0 ((Nat.toDigits radix n).leftpad width '0') = n := by
  rw [List.leftpad, digitsValue_append, digitsValue_replicate_zero hradix hle,
    digitsValue_toDigits hradix hle]

/-! ## Signed integers -/

theorem startsWithSign_of_digits {radix : Nat} {digits : List Char} (hle : radix ≤ 16)
    (h : IsDigits radix digits) : startsWithSign digits = false := by
  have hdigit : ∀ d : Fin 16, Nat.digitChar d.val ≠ '-' ∧ Nat.digitChar d.val ≠ '+' := by decide
  cases digits with
  | nil => rfl
  | cons c rest =>
      obtain ⟨d, hd, rfl⟩ := h c (List.mem_cons_self ..)
      obtain ⟨hminus, hplus⟩ := hdigit ⟨d, by omega⟩
      unfold startsWithSign
      split <;> simp_all

theorem startsWithSign_toDigits {radix : Nat} (hradix : 1 < radix) (hle : radix ≤ 16) (n : Nat) :
    startsWithSign (Nat.toDigits radix n) = false :=
  startsWithSign_of_digits hle (isDigits_toDigits hradix n)

theorem readSigned_of_unsigned {radix : Nat} {digits : List Char} (hne : digits ≠ [])
    (hsign : startsWithSign digits = false) :
    readSigned radix digits
      = (readMagnitude radix ((1 <<< 63) - 1) .tooLarge digits).map fun n => (n : Int) := by
  unfold readSigned
  split
  · exact absurd rfl hne
  · cases hsign
  · cases hsign
  · rfl

theorem readSigned_toDigits {radix n : Nat} (hradix : 1 < radix) (hle : radix ≤ 16)
    (hn : n < 2 ^ 63) : readSigned radix (Nat.toDigits radix n) = .ok (n : Int) := by
  have hlimit : n ≤ (1 <<< 63) - 1 := by
    rw [Nat.one_shiftLeft]
    omega
  rw [readSigned_of_unsigned Nat.toDigits_ne_nil (startsWithSign_toDigits hradix hle n),
    readMagnitude_toDigits hradix hle hlimit]
  rfl

/-- The decimal text of an integer of 64 bits is read as that integer. -/
theorem readSigned_repr {v : Int} (hlow : -2 ^ 63 ≤ v) (hhigh : v < 2 ^ 63) :
    readSigned 10 v.repr.toList = .ok v := by
  cases v with
  | ofNat n =>
      rw [Int.repr, Nat.toList_repr]
      exact readSigned_toDigits (by decide) (by decide) (by simp at hhigh; omega)
  | negSucc n =>
      have hlimit : n + 1 ≤ 1 <<< 63 := by
        rw [Nat.one_shiftLeft]
        omega
      rw [Int.repr, String.toList_append, Nat.toList_repr, show "-".toList = ['-'] from rfl,
        List.singleton_append, readSigned, readMagnitude_toDigits (by decide) (by decide) hlimit]
      rfl

/-! ## Unsigned integers -/

theorem readUnsigned_of_unsigned {radix : Nat} {digits : List Char} (hne : digits ≠ [])
    (hsign : startsWithSign digits = false) :
    readUnsigned radix digits = readMagnitude radix ((1 <<< 32) - 1) .tooLarge digits := by
  unfold readUnsigned
  split
  · exact absurd rfl hne
  · cases hsign
  · rfl

/-- An integer of 32 bits is read from its digits, padded or not. -/
theorem readUnsigned_leftpad {radix n : Nat} (hradix : 1 < radix) (hle : radix ≤ 16)
    (hn : n < 2 ^ 32) (width : Nat) :
    readUnsigned radix ((Nat.toDigits radix n).leftpad width '0') = .ok n := by
  have hne : (Nat.toDigits radix n).leftpad width '0' ≠ [] :=
    List.append_ne_nil_of_right_ne_nil _ Nat.toDigits_ne_nil
  have hdigits : IsDigits radix ((Nat.toDigits radix n).leftpad width '0') :=
    isDigits_leftpad hradix width n
  have hlimit : n ≤ (1 <<< 32) - 1 := by
    rw [Nat.one_shiftLeft]
    omega
  rw [readUnsigned_of_unsigned hne (startsWithSign_of_digits hle hdigits)]
  exact readMagnitude_of_digits hradix hle hne hdigits (digitsValue_leftpad hradix hle width n)
    hlimit .tooLarge

end Literal

/-! ## Literals of directives -/

namespace Directive

theorem wordOf_eq_ok {v : Int} (hlow : -2 ^ 31 ≤ v) (hhigh : v < 2 ^ 32) :
    wordOf v = .ok (BitVec.ofInt 32 v) := by
  rw [wordOf, Word.ofInt?, if_pos ⟨hlow, hhigh⟩]

theorem wordOf_toNat (w : Word) : wordOf (w.toNat : Int) = .ok w := by
  have hlt : w.toNat < 2 ^ 32 := w.isLt
  rw [wordOf_eq_ok (by omega) (by omega), BitVec.ofInt_natCast, BitVec.ofNat_toNat,
    BitVec.setWidth_eq]

theorem readDecimal_of_readSigned {literal : List Char} {v : Int}
    (h : Literal.readSigned 10 literal = .ok v) : readDecimal literal = wordOf v := by
  rw [readDecimal, h]
  rfl

/-- A word is read from its unsigned value. -/
theorem readDecimal_toNat (w : Word) : readDecimal w.toNat.repr.toList = .ok w := by
  have hlt : w.toNat < 2 ^ 32 := w.isLt
  have hread : Literal.readSigned 10 w.toNat.repr.toList = .ok (w.toNat : Int) :=
    Literal.readSigned_repr (v := w.toNat) (by omega) (by omega)
  rw [readDecimal_of_readSigned hread, wordOf_toNat]

/-- A word is read from its signed value. -/
theorem readDecimal_toInt (w : Word) : readDecimal w.toInt.repr.toList = .ok w := by
  have hlow : -2 ^ 31 ≤ w.toInt := BitVec.le_toInt w
  have hhigh : w.toInt < 2 ^ 31 := BitVec.toInt_lt
  have hread : Literal.readSigned 10 w.toInt.repr.toList = .ok w.toInt :=
    Literal.readSigned_repr (by omega) (by omega)
  rw [readDecimal_of_readSigned hread, wordOf_eq_ok hlow (by omega), BitVec.ofInt_toInt]

theorem readHex_hexLine (w : Word) : readHex (Listing.hexLine w) = .ok w := by
  have hlt : w.toNat < 2 ^ 32 := w.isLt
  have hdigits : Literal.readSigned 16 w.hexDigits = .ok (w.toNat : Int) :=
    Literal.readSigned_toDigits (by decide) (by decide) (by omega)
  have hsign : Literal.startsWithSign w.hexDigits = false :=
    Literal.startsWithSign_toDigits (by decide) (by decide) _
  have hsplit : Literal.splitSign (Listing.hexLine w) = (false, Listing.hexLine w) := rfl
  have hmark : dropHexMark (Listing.hexLine w) = w.hexDigits := rfl
  simp only [readHex, hsplit, hmark, hsign, hdigits, Bool.false_eq_true, if_false,
    Except.mapError, bind, Except.bind, wordOf_toNat]

end Directive

end LineAsm
