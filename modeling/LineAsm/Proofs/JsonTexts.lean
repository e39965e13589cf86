import LineAsm.Json.Lexeme
import LineAsm.Proofs.DecimalLiterals

/-!
# JSON texts

The grammar of JSON texts, said apart from any way of reading them. A
phrase of the grammar is a value, a value with blanks around it, the
items of an array, or a member or the members of an object, and
`Phrase.Spelled` relates it to all of its texts: blanks stand wherever
the grammar has room for them, and a character of a string stands for
itself or is escaped, by its letter or by one or two codes. Numbers are
integers of 64 bits, and a string always has a text, so that every
spelled value can be kept in memory (`isStorable_of_spelled`).

The rest is about lexemes at the front of a text. A mark or a string
tells where it ends, whatever comes next; a number does not, and needs
something behind it that cannot belong to it (`Follows`).
-/

namespace LineAsm.Json

/-! ## Strings -/

/-- The short escapes: the character after the backslash, and the one that
it stands for. -/
def escapes : List (Char × Char) :=
  [('"', '"'), ('\\', '\\'), ('/', '/'), ('b', '\x08'), ('f', '\x0c'), ('n', '\n'),
    ('r', '\r'), ('t', '\t')]

/-- The text is four hexadecimal digits with the value. -/
def Code (text : List Char) (unit : Nat) : Prop :=
  text.length = 4 ∧ Literal.Spells 16 text unit

/-- Spellings of the characters of a string. A character beyond sixteen bits
has two codes, one for its upper and one for its lower ten bits. -/
inductive Quotes : List Char → List Char → Prop where
  | nil : Quotes [] []
  | plain {c : Char} {text spelled : List Char} (hc : 0x20 ≤ c.toNat) (hquote : c ≠ '"')
      (hslash : c ≠ '\\') (h : Quotes text spelled) : Quotes (c :: text) (c :: spelled)
  | short {letter c : Char} {text spelled : List Char} (hc : (letter, c) ∈ escapes)
      (h : Quotes text spelled) : Quotes (c :: text) ('\\' :: letter :: spelled)
  | code {c : Char} {digits text spelled : List Char} (hcode : Code digits c.toNat)
      (h : Quotes text spelled) : Quotes (c :: text) ('\\' :: 'u' :: digits ++ spelled)
  | pair {c : Char} {n : Nat} {upper lower text spelled : List Char}
      (hc : c.toNat = 0x10000 + n) (hupper : Code upper (0xD800 + n / 0x400))
      (hlower : Code lower (0xDC00 + n % 0x400)) (h : Quotes text spelled) :
      Quotes (c :: text) ('\\' :: 'u' :: upper ++ '\\' :: 'u' :: lower ++ spelled)

/-- Spellings of a string, with its quotes. -/
def Quoted (text : String) (spelled : List Char) : Prop :=
  ∃ inner, Quotes text.toList inner ∧ spelled = '"' :: inner ++ ['"']

/-- A text without anything to escape spells itself. -/
theorem quotes_plain : ∀ {text : List Char},
    text.all (fun c => 0x20 ≤ c.toNat && c != '"' && c != '\\') = true → Quotes text text
  | [], _ => .nil
  | c :: text, h => by
      rw [List.all_cons, Bool.and_eq_true] at h
      simp only [Bool.and_eq_true, decide_eq_true_eq, bne_iff_ne] at h
      obtain ⟨⟨⟨hc, hquote⟩, hslash⟩, hrest⟩ := h
      exact .plain hc hquote hslash (quotes_plain (by simpa using hrest))

theorem quoted_plain (text : String)
    (h : text.toList.all (fun c => 0x20 ≤ c.toNat && c != '"' && c != '\\') = true) :
    Quoted text ('"' :: text.toList ++ ['"']) :=
  ⟨text.toList, quotes_plain h, rfl⟩

/-! ## Phrases -/

def Blank (text : List Char) : Prop := ∀ c ∈ text, c ∈ [' ', '\t', '\n', '\r']

theorem blank_nil : Blank [] := by simp [Blank]

theorem blank_space : Blank [' '] := by simp [Blank]

/-- An integer, by its sign and its absolute value. -/
def ofInteger (negative : Bool) (n : Nat) : Json :=
  .number ⟨negative, Nat.toDigits 10 n, [], 0⟩

/-- What a part of a JSON text can stand for. -/
inductive Phrase where
  | value (value : Json)
  | padded (value : Json)
  | items (items : List Json)
  | member (key : String) (value : Json)
  | members (members : List (String × Json))

namespace Phrase

/-- The texts of a phrase. -/
inductive Spelled : Phrase → List Char → Prop where
  | null : Spelled (.value .null) ['n', 'u', 'l', 'l']
  | boolTrue : Spelled (.value (.bool true)) ['t', 'r', 'u', 'e']
  | boolFalse : Spelled (.value (.bool false)) ['f', 'a', 'l', 's', 'e']
  | natural {n : Nat} (hn : n < 2 ^ 64) :
      Spelled (.value (ofInteger false n)) (Nat.toDigits 10 n)
  | negative {n : Nat} (hn : n ≤ 2 ^ 63) :
      Spelled (.value (ofInteger true n)) ('-' :: Nat.toDigits 10 n)
  | string {text : String} {spelled : List Char} (h : Quoted text spelled) :
      Spelled (.value (.ofString text)) spelled
  | emptyArray {blanks : List Char} (h : Blank blanks) :
      Spelled (.value (.array [])) ('[' :: blanks ++ [']'])
  | array {items : List Json} {spelled : List Char} (h : Spelled (.items items) spelled) :
      Spelled (.value (.array items)) ('[' :: spelled ++ [']'])
  | emptyObject {blanks : List Char} (h : Blank blanks) :
      Spelled (.value (.ofMembers [])) ('\x7b' :: blanks ++ ['\x7d'])
  | object {members : List (String × Json)} {spelled : List Char}
      (h : Spelled (.members members) spelled) :
      Spelled (.value (.ofMembers members)) ('\x7b' :: spelled ++ ['\x7d'])
  | padded {value : Json} {before spelled after : List Char} (hbefore : Blank before)
      (h : Spelled (.value value) spelled) (hafter : Blank after) :
      Spelled (.padded value) (before ++ spelled ++ after)
  | lastItem {value : Json} {spelled : List Char} (h : Spelled (.padded value) spelled) :
      Spelled (.items [value]) spelled
  | moreItems {value : Json} {items : List Json} {first rest : List Char}
      (h : Spelled (.padded value) first) (hrest : Spelled (.items items) rest) :
      Spelled (.items (value :: items)) (first ++ ',' :: rest)
  | member {key : String} {value : Json} {before name after spelled : List Char}
      (hbefore : Blank before) (hkey : Quoted key name) (hafter : Blank after)
      (h : Spelled (.padded value) spelled) :
      Spelled (.member key value) (before ++ name ++ after ++ ':' :: spelled)
  | lastMember {key : String} {value : Json} {spelled : List Char}
      (h : Spelled (.member key value) spelled) : Spelled (.members [(key, value)]) spelled
  | moreMembers {key : String} {value : Json} {members : List (String × Json)}
      {first rest : List Char} (h : Spelled (.member key value) first)
      (hrest : Spelled (.members members) rest) :
      Spelled (.members ((key, value) :: members)) (first ++ ',' :: rest)

end Phrase

/-! ## Strings at the front of a text -/

theorem Code.exists_hexUnit? {text : List Char} {unit : Nat} (h : Code text unit) :
    ∃ a b c d, text = [a, b, c, d] ∧ hexUnit? a b c d = some unit := by
  obtain ⟨hlength, ds, -, hdigits, hvalue⟩ := h
  match text, hlength with
  | [a, b, c, d], _ =>
      rcases hdigits with _ | ⟨ha, _ | ⟨hb, _ | ⟨hc, _ | ⟨hd, ⟨⟩⟩⟩⟩⟩
      have hdigit : ∀ {e n}, Literal.IsDigit 16 e n → Literal.digitValue? 16 e = some n :=
        (Literal.digitValue?_eq_some_iff (by decide)).mpr
      refine ⟨a, b, c, d, rfl, ?_⟩
      simp only [hexUnit?, hdigit ha, hdigit hb, hdigit hc, hdigit hd, Option.bind_eq_bind,
        Option.bind_some, Option.some.injEq]
      rw [← hvalue]
      simp only [List.reverse_cons, List.reverse_nil, List.nil_append, List.cons_append,
        Nat.ofDigits_cons, Nat.ofDigits_nil]
      ring

theorem splitString?_code {digits rest : List Char} {unit : Nat} (h : Code digits unit) :
    splitString? ('\\' :: 'u' :: digits ++ rest)
      = (splitString? rest).map fun (units, rest) => (.code unit :: units, rest) := by
  obtain ⟨a, b, c, d, rfl, hunit⟩ := h.exists_hexUnit?
  simp only [List.cons_append, List.nil_append, splitString?, hunit, Option.bind_eq_bind,
    Option.bind_some]
  cases splitString? rest <;> rfl

theorem splitString?_short {letter c : Char} {rest : List Char} (h : (letter, c) ∈ escapes) :
    splitString? ('\\' :: letter :: rest)
      = (splitString? rest).map fun (units, rest) => (.char c :: units, rest) := by
  have hall : ∀ p ∈ escapes, p.1 ≠ 'u' ∧ shortEscape? p.1 = some p.2 := by decide
  obtain ⟨hletter, hshort⟩ := hall _ h
  rw [splitString?, hshort]
  · simp only [Option.bind_eq_bind, Option.bind_some]
    cases splitString? rest <;> rfl
  · intro _ _ _ _ _ hu
    exact absurd hu hletter

theorem splitString?_plain {c : Char} {rest : List Char} (hc : 0x20 ≤ c.toNat)
    (hquote : c ≠ '"') (hslash : c ≠ '\\') :
    splitString? (c :: rest)
      = (splitString? rest).map fun (units, rest) => (.char c :: units, rest) := by
  rw [splitString?, if_neg (by simp [hslash]; omega)]
  all_goals simp_all

theorem decodeUnits?_code {unit : Nat} (h : isLeadingSurrogate unit = false)
    (h' : isTrailingSurrogate unit = false) (units : List StringUnit) :
    decodeUnits? (.code unit :: units) = (decodeUnits? units).map (Char.ofNat unit :: ·) := by
  rcases units with _ | ⟨_ | _, _⟩ <;> simp [decodeUnits?, h, h']

theorem decodeUnits?_pair {n : Nat} (hn : n < 0x100000) (units : List StringUnit) :
    decodeUnits? (.code (0xD800 + n / 0x400) :: .code (0xDC00 + n % 0x400) :: units)
      = (decodeUnits? units).map (Char.ofNat (0x10000 + n) :: ·) := by
  have hupper : isLeadingSurrogate (0xD800 + n / 0x400) = true := by
    simp only [isLeadingSurrogate, Bool.and_eq_true, decide_eq_true_eq]
    omega
  have hlower : isTrailingSurrogate (0xDC00 + n % 0x400) = true := by
    simp only [isTrailingSurrogate, Bool.and_eq_true, decide_eq_true_eq]
    omega
  have hjoin : 0x10000 + (0xD800 + n / 0x400 - 0xD800) * 0x400
      + (0xDC00 + n % 0x400 - 0xDC00) = 0x10000 + n := by omega
  rw [decodeUnits?, if_pos hupper, if_pos hlower, hjoin]

theorem surrogate_free (c : Char) :
    isLeadingSurrogate c.toNat = false ∧ isTrailingSurrogate c.toNat = false
      ∧ c.toNat < 0x110000 := by
  have hvalid : c.toNat < 0xD800 ∨ 0xDFFF < c.toNat ∧ c.toNat < 0x110000 := c.valid
  simp only [isLeadingSurrogate, isTrailingSurrogate, Bool.and_eq_false_iff,
    decide_eq_false_iff_not]
  omega

/-- The characters of a string end at its closing quote. -/
theorem splitString?_of_quotes {text spelled : List Char} (h : Quotes text spelled)
    (rest : List Char) :
    ∃ units, splitString? (spelled ++ '"' :: rest) = some (units, rest)
      ∧ decodeUnits? units = some text := by
  induction h with
  | nil => exact ⟨[], rfl, rfl⟩
  | @plain c _ _ hc hquote hslash _ ih =>
      obtain ⟨units, hsplit, hdecode⟩ := ih
      refine ⟨.char c :: units, ?_, ?_⟩
      · rw [List.cons_append, splitString?_plain hc hquote hslash, hsplit]
        rfl
      · rw [decodeUnits?, hdecode]
        rfl
  | @short _ c _ _ hc _ ih =>
      obtain ⟨units, hsplit, hdecode⟩ := ih
      refine ⟨.char c :: units, ?_, ?_⟩
      · rw [List.cons_append, List.cons_append, splitString?_short hc, hsplit]
        rfl
      · rw [decodeUnits?, hdecode]
        rfl
  | @code c digits _ _ hcode _ ih =>
      obtain ⟨units, hsplit, hdecode⟩ := ih
      obtain ⟨hleading, htrailing, -⟩ := surrogate_free c
      refine ⟨.code c.toNat :: units, ?_, ?_⟩
      · rw [List.append_assoc, splitString?_code hcode, hsplit]
        rfl
      · rw [decodeUnits?_code hleading htrailing, hdecode, Char.ofNat_toNat]
        rfl
  | @pair c n upper lower _ _ hc hupper hlower _ ih =>
      obtain ⟨units, hsplit, hdecode⟩ := ih
      obtain ⟨-, -, hrange⟩ := surrogate_free c
      refine ⟨.code (0xD800 + n / 0x400) :: .code (0xDC00 + n % 0x400) :: units, ?_, ?_⟩
      · rw [List.append_assoc, List.append_assoc, splitString?_code hupper,
          splitString?_code hlower, hsplit]
        rfl
      · rw [decodeUnits?_pair (by omega), hdecode, ← hc, Char.ofNat_toNat]
        rfl

theorem splitLexeme?_of_quoted {text : String} {spelled : List Char} (h : Quoted text spelled)
    (rest : List Char) :
    splitLexeme? (spelled ++ rest) = some (.string (some text), rest) := by
  obtain ⟨inner, hquotes, rfl⟩ := h
  obtain ⟨units, hsplit, hdecode⟩ := splitString?_of_quotes hquotes rest
  rw [List.append_assoc, List.cons_append, splitLexeme?, List.singleton_append, hsplit]
  simp only [Option.map_some, hdecode, String.ofList_toList]

/-! ## Numbers at the front of a text -/

/-- The text is at its end, or goes on with a blank, a comma or a closing
mark. -/
def Follows (text : List Char) : Prop :=
  ∀ c ∈ text.head?, c ∈ [' ', '\t', '\n', '\r', ',', ']', '\x7d']

theorem Follows.not_number {c : Char} {rest : List Char} (h : Follows (c :: rest)) :
    c.isDigit = false ∧ c ≠ '.' ∧ c ≠ 'e' ∧ c ≠ 'E' := by
  have hall : ∀ d ∈ [' ', '\t', '\n', '\r', ',', ']', '\x7d'],
      d.isDigit = false ∧ d ≠ '.' ∧ d ≠ 'e' ∧ d ≠ 'E' := by simp
  exact hall c (h c rfl)

theorem Follows.blank {blanks rest : List Char} (hblanks : Blank blanks) (h : Follows rest) :
    Follows (blanks ++ rest) := by
  intro c hc
  cases blanks with
  | nil => exact h c hc
  | cons d blanks =>
      rw [← Option.some.inj hc]
      have hd := hblanks d (List.mem_cons_self ..)
      simp only [List.mem_cons, List.not_mem_nil, or_false] at hd ⊢
      tauto

theorem isDigit_of_mem_toDigits {n : Nat} {c : Char} (h : c ∈ Nat.toDigits 10 n) :
    c.isDigit = true := by
  obtain ⟨d, hd, rfl⟩ := Literal.isDigits_toDigits (by decide) n c h
  have hall : ∀ e < 10, (Nat.digitChar e).isDigit = true := by decide
  exact hall d hd

theorem head?_toDigits_append {n : Nat} {rest tail : List Char} {c : Char}
    (h : Nat.toDigits 10 n ++ rest = c :: tail) : (Nat.toDigits 10 n).head? = some c := by
  have hhead := congrArg List.head? h
  rw [List.head?_append_of_ne_nil _ Nat.toDigits_ne_nil] at hhead
  exact hhead

theorem splitDigits?_toDigits (n : Nat) {rest : List Char} (hrest : Follows rest) :
    Number.splitDigits? (Nat.toDigits 10 n ++ rest) = some (Nat.toDigits 10 n, rest) := by
  have hstop : rest.takeWhile Char.isDigit = [] ∧ rest.dropWhile Char.isDigit = rest := by
    cases rest with
    | nil => exact ⟨rfl, rfl⟩
    | cons c rest => simp [hrest.not_number.1]
  have htake : (Nat.toDigits 10 n ++ rest).takeWhile Char.isDigit = Nat.toDigits 10 n := by
    rw [List.takeWhile_append_of_pos fun c => isDigit_of_mem_toDigits, hstop.1, List.append_nil]
  have hdrop : (Nat.toDigits 10 n ++ rest).dropWhile Char.isDigit = rest := by
    rw [List.dropWhile_append_of_pos fun c => isDigit_of_mem_toDigits, hstop.2]
  unfold Number.splitDigits?
  rw [htake, hdrop]
  split
  · rename_i hnil
    exact absurd hnil Nat.toDigits_ne_nil
  · rfl

theorem splitWhole?_toDigits (n : Nat) {rest : List Char} (hrest : Follows rest) :
    Number.splitWhole? (Nat.toDigits 10 n ++ rest) = some (Nat.toDigits 10 n, rest) := by
  unfold Number.splitWhole?
  split
  · rename_i tail htext
    -- Only zero starts with a zero, and it has no other digit.
    obtain rfl := Literal.eq_zero_of_head?_toDigits (by decide) (by decide)
      (head?_toDigits_append htext)
    obtain rfl := (List.cons.inj htext).2
    rfl
  · exact splitDigits?_toDigits n hrest

theorem splitFraction?_of_follows {rest : List Char} (hrest : Follows rest) :
    Number.splitFraction? rest = some ([], rest) := by
  unfold Number.splitFraction?
  split
  · exact absurd rfl hrest.not_number.2.1
  · rfl

theorem splitExponent?_of_follows {rest : List Char} (hrest : Follows rest) :
    Number.splitExponent? rest = some (0, rest) := by
  cases rest with
  | nil => rfl
  | cons c rest =>
      obtain ⟨-, -, hlower, hupper⟩ := hrest.not_number
      rw [Number.splitExponent?, if_neg (by simp [hlower, hupper])]

theorem Number.split?_natural (n : Nat) {rest : List Char} (hrest : Follows rest) :
    Number.split? (Nat.toDigits 10 n ++ rest)
      = some (⟨false, Nat.toDigits 10 n, [], 0⟩, rest) := by
  have hminus : Number.splitMinus (Nat.toDigits 10 n ++ rest)
      = (false, Nat.toDigits 10 n ++ rest) := by
    unfold Number.splitMinus
    split
    · rename_i tail htext
      have hdigit := isDigit_of_mem_toDigits (List.mem_of_mem_head? (head?_toDigits_append htext))
      cases hdigit
    · rfl
  simp [Number.split?, hminus, splitWhole?_toDigits n hrest, splitFraction?_of_follows hrest,
    splitExponent?_of_follows hrest]

theorem Number.split?_negative (n : Nat) {rest : List Char} (hrest : Follows rest) :
    Number.split? ('-' :: Nat.toDigits 10 n ++ rest)
      = some (⟨true, Nat.toDigits 10 n, [], 0⟩, rest) := by
  simp [Number.split?, Number.splitMinus, splitWhole?_toDigits n hrest,
    splitFraction?_of_follows hrest, splitExponent?_of_follows hrest]

theorem splitLexeme?_of_number {c : Char} {rest : List Char}
    (h : c = '-' ∨ c.isDigit = true) :
    splitLexeme? (c :: rest)
      = (Number.split? (c :: rest)).map fun (n, rest) => (.number n, rest) := by
  unfold splitLexeme?
  split <;> simp_all

theorem isSpace_iff {c : Char} : isSpace c = true ↔ c ∈ [' ', '\t', '\n', '\r'] := by
  simp [isSpace, or_assoc]

theorem head?_toDigits_isSpace (n : Nat) (rest : List Char) :
    ∀ c ∈ (Nat.toDigits 10 n ++ rest).head?, isSpace c = false ∧ c.isDigit = true := by
  intro c hc
  rw [List.head?_append_of_ne_nil _ Nat.toDigits_ne_nil] at hc
  have hdigit := isDigit_of_mem_toDigits (List.mem_of_mem_head? hc)
  refine ⟨?_, hdigit⟩
  rw [← Bool.not_eq_true, isSpace_iff]
  intro hspace
  have hall : ∀ d ∈ [' ', '\t', '\n', '\r'], d.isDigit = false := by simp
  rw [hall c hspace] at hdigit
  cases hdigit

theorem splitLexeme?_natural (n : Nat) {rest : List Char} (hrest : Follows rest) :
    splitLexeme? (Nat.toDigits 10 n ++ rest)
      = some (.number ⟨false, Nat.toDigits 10 n, [], 0⟩, rest) := by
  have hsplit := Number.split?_natural n hrest
  have hhead := head?_toDigits_isSpace n rest
  cases htext : Nat.toDigits 10 n ++ rest with
  | nil =>
      rw [htext] at hsplit
      cases hsplit
  | cons c tail =>
      rw [htext] at hsplit hhead
      rw [splitLexeme?_of_number (Or.inr (hhead c rfl).2), hsplit]
      rfl

theorem splitLexeme?_negative (n : Nat) {rest : List Char} (hrest : Follows rest) :
    splitLexeme? ('-' :: Nat.toDigits 10 n ++ rest)
      = some (.number ⟨true, Nat.toDigits 10 n, [], 0⟩, rest) := by
  have hsplit := Number.split?_negative n hrest
  rw [List.cons_append] at hsplit ⊢
  rw [splitLexeme?_of_number (Or.inl rfl), hsplit]
  rfl

/-! ## Spelled values can be kept in memory -/

theorem Number.absorb_of_lt : ∀ {digits : List Char} {value : Nat},
    (∀ c ∈ digits, c.isDigit = true) → Literal.digitsValue 10 value digits < 2 ^ 64 →
      Number.absorb value digits = (Literal.digitsValue 10 value digits, 0)
  | [], _, _, _ => rfl
  | c :: rest, value, hdigits, hlt => by
      obtain ⟨hc, hrest⟩ := List.forall_mem_cons.mp hdigits
      have hdigit : (Literal.digitValue? 10 c).getD 0 = c.toNat - '0'.toNat := by
        rw [Literal.digitValue?_ten, if_pos (Decimal.isDigit_iff.mp hc)]
        rfl
      rw [Literal.digitsValue, hdigit, Nat.mul_comm] at hlt ⊢
      have hnext : 10 * value + (c.toNat - '0'.toNat) < 1 <<< 64 :=
        Nat.lt_of_le_of_lt (Literal.le_digitsValue (by decide) rest _) hlt
      rw [Number.absorb, if_pos hnext]
      exact absorb_of_lt hrest hlt

theorem roundToBits_lt {n : Nat} (hn : n < 2 ^ 64) : Rounding.roundToBits 53 n < 2 ^ 65 := by
  have hlog : n.log2 < 64 := by
    by_cases hzero : n = 0
    · rw [hzero]
      decide
    · exact (Nat.log2_lt hzero).mpr hn
  have hunit : 1 <<< (n.log2 + 1 - 53) ≤ 2 ^ 11 := by
    rw [Nat.one_shiftLeft]
    exact Nat.pow_le_pow_right (by decide) (by omega)
  have hround : ∀ den, Rounding.roundDiv n den ≤ n / den + 1 := by
    intro den
    simp only [Rounding.roundDiv]
    split
    · omega
    · split <;> omega
  calc Rounding.roundToBits 53 n
      ≤ (n / (1 <<< (n.log2 + 1 - 53)) + 1) * (1 <<< (n.log2 + 1 - 53)) :=
        Nat.mul_le_mul_right _ (hround _)
    _ ≤ n + 2 ^ 11 := by
        rw [Nat.add_mul, Nat.one_mul]
        exact Nat.add_le_add (Nat.div_mul_le_self ..) hunit
    _ < 2 ^ 65 := by omega

theorem isStorable_ofInteger (negative : Bool) {n : Nat} (hn : n < 2 ^ 64) :
    (ofInteger negative n).isStorable = true := by
  have hvalue : Literal.digitsValue 10 0 (Nat.toDigits 10 n) = n :=
    Literal.digitsValue_toDigits (by decide) (by decide) n
  have habsorb : Number.absorb 0 (Nat.toDigits 10 n) = (n, 0) := by
    rw [Number.absorb_of_lt (fun c => isDigit_of_mem_toDigits) (by omega), hvalue]
  have hscientific : Number.scientific ⟨negative, Nat.toDigits 10 n, [], 0⟩ = (n, 0) := by
    simp [Number.scientific, habsorb, Number.absorb]
  have hbound : Rounding.roundToBits 53 n * Rounding.roundToBits 53 (Nat.pow 10 0)
      < (1 <<< 1024) - (1 <<< 970) := by
    rw [show Rounding.roundToBits 53 (Nat.pow 10 0) = 1 by decide, Nat.mul_one]
    exact Nat.lt_trans (roundToBits_lt hn) (by decide)
  rw [ofInteger, isStorable, Number.isFinite, hscientific]
  simp only [Int.toNat_zero, decide_eq_true hbound, Bool.and_true]
  simp

/-- Can the values of the phrase be kept in memory? -/
def Phrase.isStorable : Phrase → Bool
  | .value v | .padded v | .member _ v => v.isStorable
  | .items vs => areStorableItems vs
  | .members ms => areStorableMembers (ms.map fun (key, v) => (some key, v))

/-- Every value that has a text in the grammar can be kept in memory. -/
theorem Phrase.isStorable_of_spelled {phrase : Phrase} {spelled : List Char}
    (h : phrase.Spelled spelled) : phrase.isStorable = true := by
  induction h with
  | null | boolTrue | boolFalse | string | emptyArray | emptyObject => rfl
  | natural hn => exact isStorable_ofInteger false hn
  | negative hn => exact isStorable_ofInteger true (Nat.lt_of_le_of_lt hn (by decide))
  | array _ ih | object _ ih | padded _ _ _ ih | member _ _ _ _ ih => exact ih
  | lastItem _ ih => simpa [isStorable, areStorableItems] using ih
  | lastMember _ ih => simpa [isStorable, areStorableMembers] using ih
  | moreItems _ _ ih ihrest => simpa [isStorable, areStorableItems] using ⟨ih, ihrest⟩
  | moreMembers _ _ ih ihrest => simpa [isStorable, areStorableMembers] using ⟨ih, ihrest⟩

end LineAsm.Json
