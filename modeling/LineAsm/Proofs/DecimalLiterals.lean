import LineAsm.Proofs.IntegerDirectives
import LineAsm.Proofs.SingleRounding

/-!
# Decimal literals and their values

A number is written as an optional sign, digits with an optional point,
and an optional exponent. `NumberLiteral` relates a text of this form to
the exact rational number that it stands for, digit by digit and without
reading it. In place of a number a literal may name an infinity or a
value that is no number, in letters of either case (`NamedLiteral`).

The reader is right about both. It gives a decimal with the sign and the
value of the number (`read_of_number`), takes the names (`read_of_named`),
and refuses everything else (`read_of_neither`). It takes as many digits
as there are, first before the point and then after it. What follows a
run of digits is never a digit itself, so a text falls into the parts of
a number in one way only (`readUnsigned?_append`).
-/

namespace LineAsm

open Literal

namespace Decimal

/-! ## The texts of numbers -/

/-- The text is a run of digits, maybe an empty one, with the value `n`. -/
def DigitRun (text : List Char) (n : Nat) : Prop :=
  ∃ ds, List.Forall₂ (IsDigit 10) text ds ∧ Nat.ofDigits 10 ds.reverse = n

/-- Digits with an optional point before, among or after them, and at
least one digit in all. -/
def Mantissa (text : List Char) (m : ℚ) : Prop :=
  ∃ whole fraction n k, (text = whole ∧ fraction = [] ∨ text = whole ++ '.' :: fraction)
    ∧ (whole ≠ [] ∨ fraction ≠ []) ∧ DigitRun whole n ∧ DigitRun fraction k
    ∧ m = n + k / 10 ^ fraction.length

/-- Nothing at all, or a mark and an integer. -/
def ExponentPart (text : List Char) (e : Int) : Prop :=
  (text = [] ∧ e = 0)
    ∨ ∃ mark rest, text = mark :: rest ∧ mark ∈ ['e', 'E'] ∧ SignedLiteral 10 [[]] rest e

/-- The text is a number without a sign, and `x` is its exact value. -/
def UnsignedNumber (text : List Char) (x : ℚ) : Prop :=
  ∃ mantissa exponent m e, text = mantissa ++ exponent ∧ Mantissa mantissa m
    ∧ ExponentPart exponent e ∧ x = m * 10 ^ e

/-- The literal is a number with an optional sign, and `x` is its exact
value. -/
def NumberLiteral (literal : List Char) (x : ℚ) : Prop :=
  ∃ sign number v, literal = sign ++ number ∧ UnsignedNumber number v
    ∧ ((sign ∈ [[], ['+']] ∧ x = v) ∨ (sign = ['-'] ∧ x = -v))

/-- The text is the word in letters of either case. -/
def AnyCase (word text : List Char) : Prop :=
  List.Forall₂ (fun c d => c = d ∨ c = d.toUpper) text word

/-- The names of an infinity, and of what is no number. -/
def names : List String := ["inf", "infinity", "nan"]

/-- The literal is one of the names with an optional sign. -/
def NamedLiteral (literal : List Char) : Prop :=
  ∃ sign name word, literal = sign ++ name ∧ sign ∈ [[], ['+'], ['-']]
    ∧ word ∈ names ∧ AnyCase word.toList name

/-! ## Digits -/

theorem isDigit_iff {c : Char} : c.isDigit = true ↔ '0' ≤ c ∧ c ≤ '9' := by
  simp only [Char.isDigit, ge_iff_le, Bool.and_eq_true, decide_eq_true_eq]
  rfl

theorem forall_isDigit_iff {text : List Char} :
    (∀ c ∈ text, c.isDigit = true) ↔ ∃ ds, List.Forall₂ (IsDigit 10) text ds := by
  rw [← exists_digits_iff (by norm_num)]
  simp only [isSome_digitValue?_ten, isDigit_iff]

theorem ofDigitChars_of_forall₂ {text : List Char} {ds : List Nat}
    (h : List.Forall₂ (IsDigit 10) text ds) :
    Nat.ofDigitChars 10 text 0 = Nat.ofDigits 10 ds.reverse := by
  have hdigits := forall_isDigit_iff.mpr ⟨ds, h⟩
  rw [← digitsValue_of_forall₂ (by norm_num) h,
    digitsValue_ten fun c hc => isDigit_iff.mp (hdigits c hc)]

theorem digitRun_iff {text : List Char} {n : Nat} :
    DigitRun text n ↔ (∀ c ∈ text, c.isDigit = true) ∧ Nat.ofDigitChars 10 text 0 = n := by
  constructor
  · rintro ⟨ds, hds, rfl⟩
    exact ⟨forall_isDigit_iff.mpr ⟨ds, hds⟩, ofDigitChars_of_forall₂ hds⟩
  · rintro ⟨hdigits, rfl⟩
    obtain ⟨ds, hds⟩ := forall_isDigit_iff.mp hdigits
    exact ⟨ds, hds, (ofDigitChars_of_forall₂ hds).symm⟩

theorem spells_iff_digitRun {text : List Char} {n : Nat} :
    Spells 10 text n ↔ text ≠ [] ∧ DigitRun text n := by
  constructor
  · intro h
    have hne := h.ne_nil
    obtain ⟨ds, -, hds, hvalue⟩ := h
    exact ⟨hne, ds, hds, hvalue⟩
  · rintro ⟨hne, ds, hds, hvalue⟩
    refine ⟨ds, ?_, hds, hvalue⟩
    rintro rfl
    cases hds
    exact hne rfl

/-! ## The exponent -/

theorem readExponent?_eq_some_iff {text : List Char} {e : Int} :
    readExponent? text = some e ↔ ExponentPart text e := by
  cases text with
  | nil => simp [readExponent?, ExponentPart, eq_comm]
  | cons mark rest =>
      have hmarks : mark ∈ ['e', 'E'] ↔ mark = 'e' ∨ mark = 'E' := by simp
      have hnumber : ∀ n, Spells 10 (splitSign rest).2 n ↔
          (splitSign rest).2 ≠ [] ∧ (splitSign rest).2.all Char.isDigit = true
            ∧ Nat.ofDigitChars 10 (splitSign rest).2 0 = n := by
        intro n
        rw [spells_iff_digitRun, digitRun_iff, List.all_eq_true]
      constructor
      · intro h
        simp only [readExponent?] at h
        split at h
        · rename_i hshape
          obtain ⟨hmark, hne, hdigits⟩ := hshape
          refine Or.inr ⟨mark, rest, rfl, hmarks.mpr hmark, ?_⟩
          exact (signedLiteral_plain_iff (by norm_num)).mpr
            ⟨_, (hnumber _).mpr ⟨hne, hdigits, rfl⟩, (Option.some.inj h).symm⟩
        · cases h
      · rintro (⟨h, -⟩ | ⟨mark', rest', htext, hmark, hvalue⟩)
        · cases h
        · obtain ⟨rfl, rfl⟩ := List.cons.inj htext
          obtain ⟨n, hn, rfl⟩ := (signedLiteral_plain_iff (by norm_num)).mp hvalue
          obtain ⟨hne, hdigits, rfl⟩ := (hnumber n).mp hn
          simp only [readExponent?]
          rw [if_pos ⟨hmarks.mp hmark, hne, hdigits⟩]

/-- An exponent starts neither with a digit nor with a point. -/
theorem ExponentPart.head {text : List Char} {e : Int} (h : ExponentPart text e) :
    text.dropWhile Char.isDigit = text ∧ splitFraction text = ([], text) := by
  rcases h with ⟨rfl, -⟩ | ⟨mark, rest, rfl, hmark, -⟩
  · exact ⟨rfl, rfl⟩
  · rcases List.mem_pair.mp hmark with rfl | rfl <;> exact ⟨rfl, rfl⟩

/-! ## Numbers without a sign -/

theorem takeWhile_of_dropWhile {rest : List Char} (h : rest.dropWhile Char.isDigit = rest) :
    rest.takeWhile Char.isDigit = [] := by
  have hsplit := rest.takeWhile_append_dropWhile (p := Char.isDigit)
  rw [h] at hsplit
  exact List.append_left_eq_self.mp hsplit

/-- The digits in front are taken off whole, if no digit follows them. -/
theorem readUnsigned?_append (whole rest : List Char) (hwhole : ∀ c ∈ whole, c.isDigit = true)
    (hrest : rest.dropWhile Char.isDigit = rest) :
    readUnsigned? (whole ++ rest) =
      if whole = [] ∧ (splitFraction rest).1 = [] then none
      else (readExponent? (splitFraction rest).2).map fun exponent : Int =>
        (Nat.ofDigitChars 10 (whole ++ (splitFraction rest).1) 0,
          exponent - (splitFraction rest).1.length) := by
  unfold readUnsigned?
  rw [List.takeWhile_append_of_pos hwhole, List.dropWhile_append_of_pos hwhole,
    takeWhile_of_dropWhile hrest, hrest, List.append_nil]

theorem splitFraction_point (rest : List Char) :
    splitFraction ('.' :: rest) = (rest.takeWhile Char.isDigit, rest.dropWhile Char.isDigit) :=
  rfl

/-- The fraction is made of digits. A point stands before it, or there is
none. -/
theorem splitFraction_spec (text : List Char) :
    (∀ c ∈ (splitFraction text).1, c.isDigit = true)
      ∧ (text = '.' :: ((splitFraction text).1 ++ (splitFraction text).2)
        ∨ splitFraction text = ([], text)) := by
  unfold splitFraction
  split
  · rename_i rest
    refine ⟨fun c hc => List.mem_takeWhile_imp hc, Or.inl ?_⟩
    rw [List.takeWhile_append_dropWhile]
  · exact ⟨fun c hc => absurd hc List.not_mem_nil, Or.inr rfl⟩

/-- The value of the digits before and after the point, as one number. -/
theorem ofDigitChars_fraction (whole fraction : List Char) (e : Int) :
    ((Nat.ofDigitChars 10 (whole ++ fraction) 0 : Nat) : ℚ) * 10 ^ (e - fraction.length)
      = (Nat.ofDigitChars 10 whole 0 + Nat.ofDigitChars 10 fraction 0 / 10 ^ fraction.length)
        * 10 ^ e := by
  have hten : (10 : ℚ) ≠ 0 := by norm_num
  rw [Nat.ofDigitChars_append, Nat.ofDigitChars_eq_ofDigitChars_zero, zpow_sub₀ hten, zpow_natCast]
  push_cast
  field_simp

/-- A number is read as what its digits stand for. -/
theorem exists_readUnsigned? {text : List Char} {x : ℚ} (h : UnsignedNumber text x) :
    ∃ digits exponent, readUnsigned? text = some (digits, exponent)
      ∧ x = digits * 10 ^ exponent := by
  obtain ⟨mantissa, exponent, m, e, rfl, hmantissa, hexponent, rfl⟩ := h
  obtain ⟨whole, fraction, n, k, htext, hne, hwhole, hfraction, rfl⟩ := hmantissa
  obtain ⟨hdigits, rfl⟩ := digitRun_iff.mp hwhole
  obtain ⟨hdigits', rfl⟩ := digitRun_iff.mp hfraction
  obtain ⟨hhead, hsplit⟩ := hexponent.head
  have hread := readExponent?_eq_some_iff.mpr hexponent
  refine ⟨_, _, ?_, (ofDigitChars_fraction whole fraction e).symm⟩
  rcases htext with ⟨rfl, rfl⟩ | rfl
  · rw [readUnsigned?_append _ _ hdigits hhead, hsplit, if_neg (by simpa using hne), hread]
    rfl
  · have hpoint : splitFraction ('.' :: (fraction ++ exponent)) = (fraction, exponent) := by
      rw [splitFraction_point, List.dropWhile_append_of_pos hdigits', hhead,
        List.takeWhile_append_of_pos hdigits', takeWhile_of_dropWhile hhead, List.append_nil]
    rw [List.append_assoc, List.cons_append,
      readUnsigned?_append _ ('.' :: (fraction ++ exponent)) hdigits rfl, hpoint,
      if_neg (not_and_or.mpr hne), hread]
    rfl

/-- What is read is a number. -/
theorem unsignedNumber_of_readUnsigned? {text : List Char} {digits : Nat} {exponent : Int}
    (h : readUnsigned? text = some (digits, exponent)) :
    UnsignedNumber text (digits * 10 ^ exponent) := by
  obtain ⟨whole, rest, hwhole, hrest, rfl⟩ : ∃ whole rest, (∀ c ∈ whole, c.isDigit = true)
      ∧ rest.dropWhile Char.isDigit = rest ∧ text = whole ++ rest :=
    ⟨text.takeWhile Char.isDigit, text.dropWhile Char.isDigit,
      fun c hc => List.mem_takeWhile_imp (p := Char.isDigit) hc, List.dropWhile_idempotent _ _,
      List.takeWhile_append_dropWhile.symm⟩
  rw [readUnsigned?_append whole rest hwhole hrest] at h
  split at h
  · cases h
  · rename_i hne
    obtain ⟨e, he, hvalue⟩ := Option.map_eq_some_iff.mp h
    obtain ⟨rfl, rfl⟩ := Prod.mk.inj hvalue
    obtain ⟨hfraction, hshape⟩ := splitFraction_spec rest
    have hexponent := readExponent?_eq_some_iff.mp he
    have hmantissa : ∀ mantissa, (mantissa = whole ∧ (splitFraction rest).1 = []
          ∨ mantissa = whole ++ '.' :: (splitFraction rest).1) →
        Mantissa mantissa (Nat.ofDigitChars 10 whole 0
          + Nat.ofDigitChars 10 (splitFraction rest).1 0 / 10 ^ (splitFraction rest).1.length) :=
      fun mantissa htext => ⟨whole, _, _, _, htext, not_and_or.mp hne,
        digitRun_iff.mpr ⟨hwhole, rfl⟩, digitRun_iff.mpr ⟨hfraction, rfl⟩, rfl⟩
    rw [ofDigitChars_fraction]
    rcases hshape with hpoint | hnone
    · refine ⟨_, _, _, e, ?_, hmantissa _ (Or.inr rfl), hexponent, rfl⟩
      rw [List.append_assoc, List.cons_append, ← hpoint]
    · refine ⟨_, _, _, e, ?_, hmantissa _ (Or.inl ⟨rfl, congrArg Prod.fst hnone⟩), hexponent, rfl⟩
      rw [hnone]

/-- A number without a sign starts with a digit or with a point. -/
theorem UnsignedNumber.head {text : List Char} {x : ℚ} (h : UnsignedNumber text x) :
    ∃ c rest, text = c :: rest ∧ (c.isDigit = true ∨ c = '.') := by
  obtain ⟨digits, exponent, hread, -⟩ := exists_readUnsigned? h
  cases text with
  | nil => cases hread
  | cons c rest =>
      refine ⟨c, rest, rfl, ?_⟩
      by_contra hc
      obtain ⟨hdigit, hpoint⟩ := not_or.mp hc
      have hsplit : splitFraction (c :: rest) = ([], c :: rest) := by
        rw [splitFraction]
        rintro rest' heq
        exact hpoint (List.cons.inj heq).1
      have hnone := readUnsigned?_append [] (c :: rest)
        (fun _ hc => absurd hc List.not_mem_nil) (List.dropWhile_cons_of_neg hdigit)
      rw [hsplit, if_pos ⟨rfl, rfl⟩] at hnone
      cases hnone.symm.trans hread

/-! ## Signs -/

theorem UnsignedNumber.startsWithSign {text : List Char} {x : ℚ} (h : UnsignedNumber text x) :
    startsWithSign text = false := by
  obtain ⟨c, rest, rfl, hc⟩ := h.head
  rw [← Bool.not_eq_true, startsWithSign_iff]
  rintro ⟨sign, hsign, rest', heq⟩
  obtain ⟨rfl, -⟩ := List.cons.inj heq
  rcases List.mem_pair.mp hsign with rfl | rfl <;> exact absurd hc (by decide)

/-- The sign of a number is the one that is split off. -/
theorem numberLiteral_iff {literal : List Char} {x : ℚ} :
    NumberLiteral literal x ↔ ∃ v, UnsignedNumber (splitSign literal).2 v
      ∧ x = if (splitSign literal).1 then -v else v := by
  constructor
  · rintro ⟨sign, number, v, rfl, hnumber, ⟨hsign, rfl⟩ | ⟨rfl, rfl⟩⟩
    · refine ⟨x, ?_⟩
      rcases List.mem_pair.mp hsign with rfl | rfl
      · rw [List.nil_append, splitSign_of_unsigned hnumber.startsWithSign]
        exact ⟨hnumber, rfl⟩
      · exact ⟨hnumber, rfl⟩
    · exact ⟨v, hnumber, rfl⟩
  · rintro ⟨v, hnumber, rfl⟩
    rcases splitSign_cases literal with ⟨rest, rfl, hsplit⟩ | ⟨rest, rfl, hsplit⟩ | ⟨-, hsplit⟩ <;>
      rw [hsplit] at hnumber ⊢
    · exact ⟨['-'], rest, v, rfl, hnumber, Or.inr ⟨rfl, rfl⟩⟩
    · exact ⟨['+'], rest, v, rfl, hnumber, Or.inl ⟨by decide, rfl⟩⟩
    · exact ⟨[], literal, v, rfl, hnumber, Or.inl ⟨by decide, rfl⟩⟩

/-! ## Names -/

theorem toLower_eq_iff {c d : Char} (hd : 'a' ≤ d ∧ d ≤ 'z') :
    c.toLower = d ↔ c = d ∨ c = d.toUpper := by
  have hletters : ∀ e ≤ 25, (Char.ofNat ('a'.toNat + e)).toLower = Char.ofNat ('a'.toNat + e)
      ∧ (Char.ofNat ('a'.toNat + e)).toUpper.toLower = Char.ofNat ('a'.toNat + e) := by decide
  have hcapitals : ∀ e ≤ 25,
      (Char.ofNat ('A'.toNat + e)).toLower.toUpper = Char.ofNat ('A'.toNat + e) := by decide
  constructor
  · rintro rfl
    by_cases hc : 'A' ≤ c ∧ c ≤ 'Z'
    · obtain ⟨e, he, -, rfl⟩ := exists_eq_ofNat_of_range hc
      exact Or.inr (hcapitals e he).symm
    · refine Or.inl ?_
      unfold Char.toLower
      rw [dif_neg]
      exact hc
  · obtain ⟨e, he, -, rfl⟩ := exists_eq_ofNat_of_range hd
    rintro (rfl | rfl)
    · exact (hletters e he).1
    · exact (hletters e he).2

theorem anyCase_iff {word text : List Char} (hword : ∀ d ∈ word, 'a' ≤ d ∧ d ≤ 'z') :
    AnyCase word text ↔ text.map Char.toLower = word := by
  induction word generalizing text with
  | nil => simp [AnyCase]
  | cons d word ih =>
      obtain ⟨hd, hword⟩ := List.forall_mem_cons.mp hword
      cases text with
      | nil => simp [AnyCase]
      | cons c text =>
          rw [AnyCase, List.forall₂_cons, ← toLower_eq_iff hd, List.map_cons, List.cons.injEq,
            ← ih hword, AnyCase]

theorem names_letters : ∀ word ∈ names, ∀ d ∈ word.toList, 'a' ≤ d ∧ d ≤ 'z' := by
  simp [names]

theorem names_head : ∀ word ∈ names, ∃ d rest, word.toList = d :: rest ∧ d ∈ ['i', 'n'] := by
  simp [names]

theorem head_of_name {name : List Char} {word : String} (hword : word ∈ names)
    (h : name.map Char.toLower = word.toList) :
    ∃ c rest, name = c :: rest ∧ c ∈ ['i', 'I', 'n', 'N'] := by
  obtain ⟨d, tail, htail, hd⟩ := names_head word hword
  rw [htail] at h
  obtain ⟨c, rest, rfl, hc, -⟩ := List.map_eq_cons_iff.mp h
  refine ⟨c, rest, rfl, ?_⟩
  rcases List.mem_pair.mp hd with rfl | rfl <;>
    rcases (toLower_eq_iff (by decide)).mp hc with rfl | rfl <;> decide

/-- The name of a literal is what is left without the sign, in small
letters. -/
theorem namedLiteral_iff {literal : List Char} :
    NamedLiteral literal ↔
      ∃ word ∈ names, (splitSign literal).2.map Char.toLower = word.toList := by
  constructor
  · rintro ⟨sign, name, word, rfl, hsign, hword, hname⟩
    refine ⟨word, hword, ?_⟩
    rw [anyCase_iff (names_letters word hword)] at hname
    simp only [List.mem_cons, List.not_mem_nil, or_false] at hsign
    rcases hsign with rfl | rfl | rfl
    · obtain ⟨c, rest, rfl, hc⟩ := head_of_name hword hname
      simp only [List.mem_cons, List.not_mem_nil, or_false] at hc
      rcases hc with rfl | rfl | rfl | rfl <;> exact hname
    · exact hname
    · exact hname
  · rintro ⟨word, hword, hname⟩
    rw [← anyCase_iff (names_letters word hword)] at hname
    rcases splitSign_cases literal with ⟨rest, rfl, hsplit⟩ | ⟨rest, rfl, hsplit⟩ | ⟨-, hsplit⟩ <;>
      rw [hsplit] at hname
    · exact ⟨['-'], rest, word, rfl, by decide, hword, hname⟩
    · exact ⟨['+'], rest, word, rfl, by decide, hword, hname⟩
    · exact ⟨[], literal, word, rfl, by decide, hword, hname⟩

/-- No name is a number. -/
theorem NamedLiteral.not_numberLiteral {literal : List Char} (h : NamedLiteral literal) (x : ℚ) :
    ¬ NumberLiteral literal x := by
  rw [numberLiteral_iff]
  rintro ⟨v, hnumber, -⟩
  obtain ⟨word, hword, hname⟩ := namedLiteral_iff.mp h
  obtain ⟨c, rest, heq, hc⟩ := head_of_name hword hname
  obtain ⟨c', rest', heq', hc'⟩ := hnumber.head
  obtain ⟨rfl, -⟩ := List.cons.inj (heq.symm.trans heq')
  simp only [List.mem_cons, List.not_mem_nil, or_false] at hc
  rcases hc with rfl | rfl | rfl | rfl <;> exact absurd hc' (by decide)

/-! ## Reading -/

/-- The decimal with its sign. -/
def toRat (value : Decimal) : ℚ :=
  if value.negative then -value.magnitude else value.magnitude

theorem namedLiteral_iff_word {literal : List Char} :
    NamedLiteral literal ↔
      ((splitSign literal).2.map Char.toLower = "inf".toList
          ∨ (splitSign literal).2.map Char.toLower = "infinity".toList)
        ∨ (splitSign literal).2.map Char.toLower = "nan".toList := by
  simp only [namedLiteral_iff, names, List.mem_cons, List.not_mem_nil, or_false, exists_eq_or_imp,
    exists_eq_left, or_assoc]

/-- What is not a name is read as a number. -/
theorem read_of_not_named {text : List Char} (hne : text ≠ []) (h : ¬ NamedLiteral text) :
    Literal.read text = (readUnsigned? (splitSign text).2).elim (.error .malformed)
      fun number => .ok (.finite ⟨(splitSign text).1, number.1, number.2⟩) := by
  obtain ⟨hinfinity, hnan⟩ := not_or.mp (mt namedLiteral_iff_word.mpr h)
  simp only [Literal.read, if_neg hne, String.ofList_eq, if_neg hinfinity, if_neg hnan]
  cases readUnsigned? (splitSign text).2 <;> rfl

theorem NumberLiteral.ne_nil {literal : List Char} {x : ℚ} (h : NumberLiteral literal x) :
    literal ≠ [] := by
  rintro rfl
  obtain ⟨v, hnumber, -⟩ := numberLiteral_iff.mp h
  obtain ⟨c, rest, heq, -⟩ := hnumber.head
  cases heq

/-- A number is read as a decimal with its sign and its value. -/
theorem read_of_number {text : List Char} {x : ℚ} (h : NumberLiteral text x) :
    ∃ value, Literal.read text = .ok (.finite value) ∧ value.negative = (splitSign text).1
      ∧ x = value.toRat := by
  obtain ⟨v, hnumber, rfl⟩ := numberLiteral_iff.mp h
  obtain ⟨digits, exponent, hread, rfl⟩ := exists_readUnsigned? hnumber
  refine ⟨⟨(splitSign text).1, digits, exponent⟩, ?_, rfl, rfl⟩
  rw [read_of_not_named h.ne_nil fun hname => hname.not_numberLiteral _ h, hread]
  rfl

/-- A name is taken, with the sign before it. -/
theorem read_of_named {text : List Char} (h : NamedLiteral text) :
    Literal.read text = .ok (.infinity (splitSign text).1)
      ∨ Literal.read text = .ok (.notANumber (splitSign text).1) := by
  have hne : text ≠ [] := by
    rintro rfl
    obtain ⟨word, hword, hname⟩ := namedLiteral_iff.mp h
    obtain ⟨c, rest, heq, -⟩ := head_of_name hword hname
    cases heq
  simp only [Literal.read, if_neg hne, String.ofList_eq]
  split
  · exact Or.inl rfl
  · rename_i hinfinity
    rw [if_pos ((namedLiteral_iff_word.mp h).resolve_left hinfinity)]
    exact Or.inr rfl

/-- All other texts are refused. -/
theorem read_of_neither {text : List Char} (hnumber : ∀ x, ¬ NumberLiteral text x)
    (hname : ¬ NamedLiteral text) :
    Literal.read text = .error (if text = [] then .empty else .malformed) := by
  by_cases hne : text = []
  · subst hne
    rfl
  · rw [if_neg hne, read_of_not_named hne hname]
    cases hread : readUnsigned? (splitSign text).2 with
    | none => rfl
    | some pair =>
        exact absurd (numberLiteral_iff.mpr ⟨_, unsignedNumber_of_readUnsigned? hread, rfl⟩)
          (hnumber _)

end Decimal

end LineAsm
