import LineAsm.Proofs.SlotReading

/-!
# Spelling a word out

A line can be written for a word: each slot gets a token that stands for
what the word holds there (`Part.spell`), and the tokens that no slot
looks at are left empty (`spelled`). Reading the line gives the word
back, in the bits of the slots that the line reaches (`word_of_reads`).

A slot can be spelled if the part has the value at all. `Part.choices`
lists the values where the part does not take every value that fits:
the two of a flag, the code of the class, and what the tables hold.
-/

namespace LineAsm

/-! ## Names and markers -/

def OpClass.marker : OpClass → String
  | .alu => "a"
  | .control => "c"
  | .memory => "m"
  | .float => "f"

@[simp] theorem OpClass.ofMarker?_marker (kind : OpClass) :
    OpClass.ofMarker? kind.marker = some kind := by
  cases kind <;> rfl

/-- The first name with the value, and the empty text if there is none. -/
def Table.nameOf (table : Table) (value : Word) : String :=
  (table.find? (·.2 = value)).elim "" (·.1)

theorem Table.nameOf_mem {table : Table} {value : Word} (h : value ∈ table.map (·.2)) :
    (nameOf table value, value) ∈ table := by
  obtain ⟨p, hp, rfl⟩ := List.mem_map.mp h
  cases hfind : table.find? (·.2 = p.2) with
  | none => exact absurd (decide_eq_true rfl) (List.find?_eq_none.mp hfind p hp)
  | some q =>
      have hq : q.2 = p.2 := by simpa using List.find?_some hfind
      rw [nameOf, hfind, Option.elim_some, ← hq]
      exact List.mem_of_find?_eq_some hfind

/-- No mnemonic of a class stands for two opcodes. -/
theorem opcode?_of_mem (revision : Revision) (kind : OpClass) :
    ∀ p ∈ revision.isa.opcodes.table kind, revision.isa.opcode? kind p.1 = some p.2 := by
  cases revision <;> cases kind <;> decide

/-- No condition name stands for two conditions, or for none. -/
theorem condition?_of_mem (revision : Revision) :
    ∀ p ∈ revision.isa.conditions, p.1 ≠ "" ∧ revision.isa.condition? p.1 = some p.2 := by
  cases revision <;> decide

/-! ## One slot -/

namespace Part

/-- The values of the part, where they are not all that fit the field. -/
def choices (isa : Isa) (kind : OpClass) : Part → Option (List Word)
  | .immediate | .writeEnable | .signed | .setFlags | .predicate => some [0, 1]
  | .opClass => some [kind.code]
  | .opcode => some ((isa.opcodes.table kind).map (·.2))
  | .condition => some (0 :: isa.conditions.map (·.2))
  | .register _ | .offset => none

/-- The part can have the value, if it fits. -/
def Admits (isa : Isa) (kind : OpClass) (value : Word) (part : Part) : Prop :=
  ∀ choices ∈ part.choices isa kind, value ∈ choices

/-- A token that stands for the value. -/
def spell (isa : Isa) (kind : OpClass) (value : Word) : Part → String
  | .immediate => if value = 0 then "n" else "i"
  | .writeEnable => if value = 0 then "0" else "1"
  | .opClass => kind.marker
  | .opcode => Table.nameOf (isa.opcodes.table kind) value
  | .register _ => "r" ++ value.toNat.repr
  | .signed => if value = 0 then "u" else "s"
  | .setFlags => if value = 0 then "" else "sf"
  | .offset => value.toNat.repr
  | .condition => if value = 0 then "" else Table.nameOf isa.conditions value
  | .predicate => if value = 0 then "" else "p"

theorem registerToken_spell {n : Nat} (h : n ≤ 2 ^ 32 - 1) :
    Instruction.RegisterToken ("r" ++ n.repr) n := by
  refine ⟨'r', Nat.toDigits 10 n, ?_, Literal.numeral_toDigits h⟩
  rw [String.toList_append, Nat.toList_repr]
  rfl

theorem offsetToken_spell {n : Nat} (h : n ≤ 2 ^ 32 - 1) :
    Instruction.OffsetToken n.repr n := by
  rw [Instruction.OffsetToken, Nat.toList_repr]
  exact Literal.numeral_toDigits h

/-- A value of the part that fits is what its spelling stands for. -/
theorem reads_spell {revision : Revision} {kind : OpClass} {field : Field} {value : Word}
    {part : Part} (hfits : field.fits value = true)
    (hvalue : part.Admits revision.isa kind value) :
    ∃ v, part.Reads revision.isa kind field (part.spell revision.isa kind value) v
      ∧ v.word = value := by
  have hword : value.toNat ≤ 2 ^ 32 - 1 := by
    have := value.isLt
    omega
  cases part with
  | immediate | writeEnable | signed | setFlags | predicate =>
      have hflag : value = 0 ∨ value = 1 := by simpa using hvalue _ rfl
      rcases hflag with rfl | rfl <;> exact ⟨_, rfl, rfl⟩
  | opClass =>
      have hcode := List.mem_singleton.mp (hvalue _ rfl)
      exact ⟨.opClass kind, ⟨kind, kind.ofMarker?_marker, rfl⟩, hcode.symm⟩
  | opcode =>
      have hname := opcode?_of_mem revision kind _ (Table.nameOf_mem (hvalue _ rfl))
      exact ⟨.opcode value, ⟨value, hname, rfl⟩, rfl⟩
  | register index =>
      exact ⟨.register index value, ⟨value, registerToken_spell hword, hfits, rfl⟩, rfl⟩
  | offset =>
      exact ⟨.offset value, ⟨value, offsetToken_spell hword, hfits, rfl⟩, rfl⟩
  | condition =>
      refine ⟨.condition value, ⟨value, ?_, rfl⟩, rfl⟩
      by_cases hzero : value = 0
      · rw [spell, if_pos hzero, if_pos rfl, hzero]
      · have hmem := (List.mem_cons.mp (hvalue _ rfl)).resolve_left hzero
        obtain ⟨hname, hlookup⟩ := condition?_of_mem revision _ (Table.nameOf_mem hmem)
        rw [spell, if_neg hzero, if_neg hname]
        exact hlookup

end Part

/-! ## A whole line -/

namespace Instruction

/-- The first `n` tokens of a line for the word. -/
def spelled (isa : Isa) (kind : OpClass) (slots : List (Part × Slot)) (w : Word) (n : Nat) :
    List String :=
  (List.range n).map fun i =>
    (slots.find? (·.2.token = i)).elim "" fun s => s.1.spell isa kind (s.2.field.get w)

theorem find?_token {slots : List (Part × Slot)}
    (hord : slots.Pairwise fun s t => s.2.Precedes t.2) {s : Part × Slot} (hs : s ∈ slots) :
    slots.find? (·.2.token = s.2.token) = some s := by
  induction slots with
  | nil => cases hs
  | cons t slots ih =>
      obtain ⟨hfirst, hord⟩ := List.pairwise_cons.mp hord
      rcases List.mem_cons.mp hs with rfl | hs
      · exact List.find?_cons_of_pos (decide_eq_true rfl)
      · have hne : ¬ t.2.token = s.2.token := Nat.ne_of_lt (hfirst s hs).1
        rw [List.find?_cons_of_neg (by simpa using hne)]
        exact ih hord hs

theorem getElem?_spelled {isa : Isa} {kind : OpClass} {slots : List (Part × Slot)}
    (hord : slots.Pairwise fun s t => s.2.Precedes t.2) {s : Part × Slot} (hs : s ∈ slots)
    {w : Word} {n : Nat} (hn : s.2.token < n) :
    (spelled isa kind slots w n)[s.2.token]? = some (s.1.spell isa kind (s.2.field.get w)) := by
  rw [spelled, List.getElem?_map, List.getElem?_range hn, Option.map_some, find?_token hord hs]
  rfl

/-- A line whose tokens stand for what a word holds gives that word, in
the bits of the slots that it reaches. -/
theorem word_of_reads {isa : Isa} {kind : OpClass} {tokens : List String} {w : Word} :
    ∀ {as bs : List (Part × Slot)},
      (∀ s ∈ as, ∃ token v, tokens[s.2.token]? = some token
        ∧ s.1.Reads isa kind s.2.field token v ∧ v.word = s.2.field.get w) →
      (∀ t ∈ bs, tokens[t.2.token]? = none) →
      word isa kind tokens (as ++ bs) = ⟨.ok (w &&& Field.cover (as.map (·.2.field))), []⟩
  | [], [], _, _ => congrArg (Finding.mk · []) (congrArg Except.ok BitVec.and_zero.symm)
  | [], t :: bs, _, hbs => by
      rw [List.nil_append, word, values_cons_none (hbs t (List.mem_cons_self ..))]
      exact congrArg (Finding.mk · []) (congrArg Except.ok BitVec.and_zero.symm)
  | (part, slot) :: as, bs, has, hbs => by
      obtain ⟨token, v, htoken, hv, hword⟩ := has (part, slot) (List.mem_cons_self ..)
      obtain ⟨vs, hvs, hrest⟩ := Finding.map_eq_ok.mp
        (word_of_reads (fun s hs => has s (List.mem_cons_of_mem _ hs)) hbs)
      refine Finding.map_eq_ok.mpr ⟨v :: vs, ?_, ?_⟩
      · rw [List.cons_append, values_cons_some htoken, Part.value_eq_clean_iff.mpr hv, hvs]
        rfl
      · rw [List.cons_append, placed_cons, join_cons, hrest, hword, Field.place_get,
          List.map_cons, Field.cover_cons, BitVec.and_or_distrib_left]

end Instruction

/-! ## Encoding a spelled line -/

/-- The tail of the lines of a class. -/
def Isa.tailFor (isa : Isa) (kind : OpClass) : Tail :=
  if isa.isSigned kind then .signed else .offset

/-- The first `n` tokens of a line of the class for the word. -/
def Revision.spelled (revision : Revision) (kind : OpClass) (w : Word) (n : Nat) :
    List String :=
  Instruction.spelled revision.isa kind
    (revision.isa.layout.shape (revision.isa.tailFor kind)) w n

section Spelled

variable (revision : Revision) (kind : OpClass) (w : Word) {n : Nat}

@[simp] theorem length_spelled : (revision.spelled kind w n).length = n := by
  simp [Revision.spelled, Instruction.spelled]

theorem getElem?_classToken_spelled (hn : 3 ≤ n) :
    (revision.spelled kind w n)[classToken]? = some kind.marker :=
  Instruction.getElem?_spelled (s := (.opClass, ⟨classToken, revision.isa.layout.opClass⟩))
    (shape_ordered ..) (by simp [Instruction.shape_eq]) hn

/-- The class token of a spelled line names the class again. -/
theorem classOf_spelled (hn : 3 ≤ n) :
    Instruction.classOf (revision.spelled kind w n) = kind := by
  rw [Instruction.classOf, getElem?_classToken_spelled revision kind w hn]
  simp

theorem shapeOf_spelled (hn : 3 ≤ n) :
    Instruction.shapeOf revision.isa (revision.spelled kind w n)
      = revision.isa.layout.shape (revision.isa.tailFor kind) := by
  rw [Instruction.shapeOf, getElem?_classToken_spelled revision kind w hn, Option.elim_some,
    Isa.tailOf, OpClass.ofMarker?_marker]
  rfl

theorem head?_spelled :
    (revision.spelled kind w n).head? ∉ [some "di", some "dh", some "df"] := by
  rw [List.head?_eq_getElem?]
  by_cases hn : 0 < n
  · have hhead : (revision.spelled kind w n)[0]? = some (Part.immediate.spell revision.isa kind
        (revision.isa.layout.immediate.get w)) :=
      Instruction.getElem?_spelled (s := (.immediate, ⟨0, revision.isa.layout.immediate⟩))
        (shape_ordered ..) (by simp [Instruction.shape_eq]) hn
    rw [hhead, Part.spell]
    split <;> decide
  · rw [List.getElem?_eq_none (by rw [length_spelled]; omega)]
    decide

/-- A spelled line encodes without a fault, to the word in the bits that
its tokens decide. -/
theorem encodeTokens_spelled (hn : 3 ≤ n) {as bs : List (Part × Slot)}
    (hshape : revision.isa.layout.shape (revision.isa.tailFor kind) = as ++ bs)
    (hreach : ∀ s ∈ as, s.2.token < n) (hmiss : ∀ t ∈ bs, n ≤ t.2.token)
    (hvalue : ∀ s ∈ as, s.1.Admits revision.isa kind (s.2.field.get w)) :
    (Encoder.mk revision .strict).encodeTokens (revision.spelled kind w n)
      = .ok ⟨w &&& Field.cover (as.map (·.2.field)), []⟩ := by
  have hlen : 2 ≤ (revision.spelled kind w n).length := by
    rw [length_spelled]
    omega
  have hline : Line.isDirective (revision.spelled kind w n) = false :=
    Line.isDirective_of_head? (head?_spelled revision kind w)
  rw [Encoder.encodeTokens_instruction hlen hline, Finding.encoded_eq_ok,
    classOf_spelled _ _ _ hn, shapeOf_spelled _ _ _ hn, hshape]
  refine ⟨Instruction.word_of_reads (fun s hs => ?_) (fun t ht => ?_), fun _ => rfl⟩
  · obtain ⟨v, hv, hword⟩ := Part.reads_spell (s.2.field.fits_get w) (hvalue s hs)
    refine ⟨_, v, Instruction.getElem?_spelled (shape_ordered ..) ?_ (hreach s hs), hv, hword⟩
    rw [hshape]
    exact List.mem_append_left _ hs
  · rw [List.getElem?_eq_none_iff, length_spelled]
    exact hmiss t ht

end Spelled

end LineAsm
