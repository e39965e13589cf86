import LineAsm.Proofs.Shapes

/-!
# The fields of a packed instruction

Packing takes any instruction, also one that no line gives rise to: with
numbers that do not fit, with parts behind one that is absent, or with an
operand that its class does not have. `reached?` says what such an
instruction gives to each part. Each stage asks for the one before it:
the opcode for the class, the registers for the opcode, the operand for
three registers, the condition for the operand, the predicate for the
condition.

The word holds in each field what the instruction gives to the part, without
the bits that do not fit, and zero everywhere else (`pack_fields`). The
two forms of an operand share their bits, so a word has the fields of one
form only: those of the form that the instruction has, or of either form if
it reaches no operand. For such a form the placements of an
instruction are the reached slots of a shape (`placements_eq`), whose
fields do not meet.
-/

namespace LineAsm

/-! ## Fields by part -/

/-- The field of a part, in the revisions that have it. -/
def Revision.field? : Revision → Part → Option Field
  | _, .immediate => some ⟨31, 1⟩
  | _, .writeEnable => some ⟨30, 1⟩
  | _, .opClass => some ⟨28, 2⟩
  | _, .opcode => some ⟨24, 4⟩
  | .v3, _ => none
  | _, .register 0 => some ⟨20, 4⟩
  | _, .register 1 => some ⟨16, 4⟩
  | _, .register 2 => some ⟨12, 4⟩
  | _, .register _ => none
  | _, .signed => some ⟨11, 1⟩
  | .v1, .setFlags => some ⟨10, 1⟩
  | .v2, .setFlags => none
  | _, .offset => some ⟨4, 8⟩
  | .v1, .condition => some ⟨0, 4⟩
  | .v2, .condition => some ⟨1, 3⟩
  | .v1, .predicate => none
  | .v2, .predicate => some ⟨0, 1⟩

/-- The form of the line that the operand belongs to. -/
def Operand.tail : Operand → Tail
  | .signed _ _ => .signed
  | .offset _ => .offset

/-- The form of the operand that the part belongs to. -/
def Part.tail? : Part → Option Tail
  | .signed | .setFlags => some .signed
  | .offset => some .offset
  | _ => none

/-- The parts of a form that have a field are the slots of its shape. -/
theorem exists_slot {revision : Revision} {part : Part} {field : Field} {tail : Tail}
    (hfield : revision.field? part = some field) (htail : ∀ t ∈ part.tail?, t = tail) :
    ∃ s ∈ revision.isa.layout.shape tail, s.1 = part ∧ s.2.field = field := by
  cases part with
  | immediate | writeEnable | opClass | opcode | condition | predicate =>
      cases revision <;> cases tail <;> cases hfield <;> decide
  | register index =>
      match index with
      | 0 | 1 | 2 => cases revision <;> cases tail <;> cases hfield <;> decide
      | _ + 3 => cases revision <;> cases hfield
  | signed | setFlags | offset =>
      obtain rfl := htail _ rfl
      cases revision <;> cases hfield <;> decide

theorem field?_of_mem_shape (revision : Revision) (tail : Tail) :
    ∀ s ∈ revision.isa.layout.shape tail, revision.field? s.1 = some s.2.field := by
  cases revision <;> cases tail <;> decide

namespace Instruction

/-! ## What an instruction reaches -/

def reachedOpcode? (i : Instruction) : Option Word :=
  if i.opClass?.isSome then i.opcode? else none

/-- The registers that have a field. The last revision has none. -/
def reachedRegisters (revision : Revision) (i : Instruction) : List Word :=
  if revision ≠ .v3 ∧ i.reachedOpcode?.isSome then i.registers.take 3 else []

def reachedOperand? (revision : Revision) (i : Instruction) : Option Operand :=
  if (i.reachedRegisters revision).length = 3 then i.operand? else none

def reachedCondition? (revision : Revision) (i : Instruction) : Option Word :=
  if (i.reachedOperand? revision).isSome then i.condition? else none

/-- The value that the instruction gives to a part. -/
def reached? (revision : Revision) (i : Instruction) : Part → Option Word
  | .immediate => some (Word.ofBool i.immediate)
  | .writeEnable => some (Word.ofBool i.writeEnable)
  | .opClass => i.opClass?.map OpClass.code
  | .opcode => i.reachedOpcode?
  | .register index => (i.reachedRegisters revision)[index]?
  | .signed =>
    match i.reachedOperand? revision with
    | some (.signed signed _) => some (Word.ofBool signed)
    | _ => none
  | .setFlags =>
    match revision, i.reachedOperand? revision with
    | .v1, some (.signed _ (some setFlags)) => some (Word.ofBool setFlags)
    | _, _ => none
  | .offset =>
    match i.reachedOperand? revision with
    | some (.offset value) => some value
    | _ => none
  | .condition => i.reachedCondition? revision
  | .predicate =>
    match revision, i.reachedCondition? revision with
    | .v2, some _ => i.predicate?.map Word.ofBool
    | _, _ => none

/-- The instruction without the parts behind the first absent one, and
without the registers that have no field. -/
def trimmed (revision : Revision) (i : Instruction) : Instruction where
  immediate := i.immediate
  writeEnable := i.writeEnable
  opClass? := i.opClass?
  opcode? := i.reachedOpcode?
  registers := i.reachedRegisters revision
  operand? := i.reachedOperand? revision
  condition? := i.reachedCondition? revision
  predicate? := if (i.reachedCondition? revision).isSome then i.predicate? else none

/-- The part belongs to the other form of the operand than the instruction
has, and has no bits of its own. -/
def Displaced (revision : Revision) (i : Instruction) (part : Part) : Prop :=
  ∃ operand ∈ i.reachedOperand? revision, ∃ tail ∈ part.tail?, operand.tail ≠ tail

/-- The slots whose parts are given a value, with the values. -/
def given (value? : Part → Option Word) (slots : List (Part × Slot)) : List (Field × Word) :=
  slots.filterMap fun s => (value? s.1).map (s.2.field, ·)

variable {revision : Revision} {i : Instruction}

/-- The placements of an instruction are the reached slots of the shape with
its form of the operand. Without an operand either shape will do. -/
theorem placements_eq {tail : Tail}
    (h : ∀ operand ∈ i.reachedOperand? revision, operand.tail = tail) :
    placements revision.isa.layout i =
      given (i.reached? revision) (revision.isa.layout.shape tail) := by
  obtain ⟨immediate, writeEnable, opClass?, opcode?, registers, operand?, condition?,
    predicate?⟩ := i
  -- The cases are those where packing ends early.
  cases opClass? with
  | none => cases revision <;> cases tail <;> rfl
  | some opClass =>
      cases opcode? with
      | none => cases revision <;> cases tail <;> rfl
      | some opcode =>
          cases revision with
          | v3 => cases tail <;> rfl
          | v1 | v2 =>
              match registers with
              | [] | [_] | [_, _] => cases tail <;> rfl
              | _ :: _ :: _ :: _ =>
                  cases operand? with
                  | none => cases tail <;> rfl
                  | some operand =>
                      obtain rfl := h operand rfl
                      cases operand with
                      | signed on setFlags? =>
                          cases setFlags? <;> cases condition? <;> cases predicate? <;> rfl
                      | offset value => cases condition? <;> cases predicate? <;> rfl

/-- Trimming keeps all that is reached. -/
theorem reached?_trimmed (revision : Revision) (i : Instruction) :
    (i.trimmed revision).reached? revision = i.reached? revision := by
  have hopcode : (i.trimmed revision).reachedOpcode? = i.reachedOpcode? := by
    simp only [reachedOpcode?, trimmed]
    split <;> rfl
  have hregisters : (i.trimmed revision).reachedRegisters revision
      = i.reachedRegisters revision := by
    rw [reachedRegisters, hopcode, reachedRegisters]
    split
    · rename_i hfields
      show (i.reachedRegisters revision).take 3 = _
      rw [reachedRegisters, if_pos hfields, List.take_take, Nat.min_self]
    · rfl
  have hoperand : (i.trimmed revision).reachedOperand? revision = i.reachedOperand? revision := by
    rw [reachedOperand?, hregisters]
    split
    · rfl
    · rename_i hshort
      rw [reachedOperand?, if_neg hshort]
  have hcondition : (i.trimmed revision).reachedCondition? revision
      = i.reachedCondition? revision := by
    rw [reachedCondition?, hoperand]
    split
    · rfl
    · rename_i hnone
      rw [reachedCondition?, if_neg hnone]
  funext part
  cases part with
  | immediate | writeEnable | opClass => rfl
  | opcode => exact hopcode
  | register index => rw [reached?, hregisters, reached?]
  | signed | setFlags | offset => simp only [reached?, hoperand]
  | condition => exact hcondition
  | predicate =>
      have hpredicate : (i.trimmed revision).predicate?
          = if (i.reachedCondition? revision).isSome then i.predicate? else none := rfl
      simp only [reached?, hcondition, hpredicate]
      cases i.reachedCondition? revision <;> cases revision <;> rfl

/-- The shape that the instruction is packed with. -/
def packedTail (revision : Revision) (i : Instruction) : Tail :=
  if (i.reached? revision .signed).isSome then .signed else .offset

theorem tail_of_mem_reachedOperand? :
    ∀ operand ∈ i.reachedOperand? revision, operand.tail = i.packedTail revision := by
  intro operand h
  rw [packedTail, reached?, Option.mem_def.mp h]
  cases operand <;> rfl

/-! ## The word -/

theorem mem_given {value? : Part → Option Word} {slots : List (Part × Slot)} {p : Field × Word}
    (h : p ∈ given value? slots) : ∃ s ∈ slots, value? s.1 = some p.2 ∧ s.2.field = p.1 := by
  obtain ⟨s, hs, hp⟩ := List.mem_filterMap.mp h
  obtain ⟨value, hvalue, rfl⟩ := Option.map_eq_some_iff.mp hp
  exact ⟨s, hs, hvalue, rfl⟩

theorem join_given_cons (value? : Part → Option Word) (s : Part × Slot)
    (slots : List (Part × Slot)) :
    join (given value? (s :: slots))
      = (value? s.1).elim 0 s.2.field.place ||| join (given value? slots) := by
  cases hvalue : value? s.1 with
  | none => simp [given, hvalue]
  | some value => simp [given, hvalue]

/-- A slot holds the value of its part, and zero if there is none. -/
theorem get_join_given {value? : Part → Option Word} :
    ∀ {slots : List (Part × Slot)}, slots.Pairwise (fun s t => s.2.Precedes t.2) →
      (∀ s ∈ slots, s.2.field.shift.val + s.2.field.width ≤ 32) → ∀ s ∈ slots,
        s.2.field.get (join (given value? slots)) = (value? s.1).elim 0 (· &&& s.2.field.max)
  | t :: rest, hord, hin, s, hs => by
      obtain ⟨hfirst, hord⟩ := List.pairwise_cons.mp hord
      obtain ⟨hinside, hin⟩ := List.forall_mem_cons.mp hin
      rw [join_given_cons, Field.get_or]
      rcases List.mem_cons.mp hs with rfl | hs
      · have hrest : s.2.field.get (join (given value? rest)) = 0 := by
          refine get_join_of_apart fun p hp => ?_
          obtain ⟨t, ht, -, hfield⟩ := mem_given hp
          rw [← hfield]
          exact (hfirst t ht).2.symm
        rw [hrest]
        refine BitVec.or_zero.trans ?_
        cases value? s.1 with
        | none => exact Field.get_zero _
        | some value => exact Field.get_place _ hinside value
      · have hskip : s.2.field.get ((value? t.1).elim 0 t.2.field.place) = 0 := by
          cases value? t.1 with
          | none => exact Field.get_zero _
          | some value => exact (hfirst s hs).2.get_place value
        rw [hskip]
        exact BitVec.zero_or.trans (get_join_given hord hin s hs)

theorem getLsbD_join_eq_false {n : Nat} {ps : List (Field × Word)}
    (h : ∀ p ∈ ps, p.1.mask.getLsbD n = false) : (join ps).getLsbD n = false := by
  induction ps with
  | nil => exact BitVec.getLsbD_zero
  | cons p ps ih =>
      obtain ⟨hp, hps⟩ := List.forall_mem_cons.mp h
      rw [join_cons, BitVec.getLsbD_or, ih hps, ← p.1.place_and_mask, BitVec.getLsbD_and, hp]
      simp

end Instruction

/-- Masking a value is taking it modulo a power of two. -/
theorem Field.toNat_and_max {f : Field} (h : f.width ≤ 32) (v : Word) :
    (v &&& f.max).toNat = v.toNat % 2 ^ f.width := by
  have hpow : 2 ^ f.width ≤ 2 ^ 32 := Nat.pow_le_pow_right (by decide) h
  have hpos : 0 < 2 ^ f.width := Nat.two_pow_pos _
  rw [BitVec.toNat_and, Field.max, BitVec.toNat_ofNat, Nat.one_shiftLeft,
    Nat.mod_eq_of_lt (by omega), Nat.and_two_pow_sub_one_eq_mod]

namespace Instruction

variable {revision : Revision} {i : Instruction}

/-- A field that is not displaced holds the value of its part. -/
theorem get_pack {part : Part} {field : Field} (hfield : revision.field? part = some field)
    (hpart : ¬ i.Displaced revision part) :
    (field.get (i.pack revision.isa.layout)).toNat
      = (i.reached? revision part).elim 0 fun value => value.toNat % 2 ^ field.width := by
  obtain ⟨tail, htail, hoperand⟩ : ∃ tail, (∀ t ∈ part.tail?, t = tail)
      ∧ ∀ operand ∈ i.reachedOperand? revision, operand.tail = tail := by
    cases hform : part.tail? with
    | none =>
        refine ⟨i.packedTail revision, ?_, tail_of_mem_reachedOperand?⟩
        intro t ht
        cases ht
    | some tail =>
        refine ⟨tail, ?_, ?_⟩
        · intro t ht
          exact (Option.some.inj ht).symm
        · intro operand hmem
          by_contra hother
          exact hpart ⟨operand, hmem, tail, hform, hother⟩
  obtain ⟨s, hs, rfl, rfl⟩ := exists_slot hfield htail
  have hinside := shape_inside revision tail s hs
  rw [pack, placements_eq hoperand,
    get_join_given (shape_ordered revision tail) (shape_inside revision tail) s hs]
  cases i.reached? revision s.1 with
  | none => rfl
  | some value => exact Field.toNat_and_max (by omega) value

/-- A bit outside all reached fields is not set. -/
theorem getLsbD_pack {n : Nat}
    (h : ∀ part field, revision.field? part = some field → i.reached? revision part ≠ none →
      ¬ (field.shift.val ≤ n ∧ n < field.shift.val + field.width)) :
    (i.pack revision.isa.layout).getLsbD n = false := by
  rw [pack, placements_eq tail_of_mem_reachedOperand?]
  refine getLsbD_join_eq_false fun p hp => ?_
  obtain ⟨s, hs, hvalue, hfield⟩ := mem_given hp
  have hout := h s.1 s.2.field (field?_of_mem_shape revision _ s hs) (by rw [hvalue]; simp)
  rw [← hfield, Field.getLsbD_mask, decide_eq_false_iff_not]
  exact fun hin => hout ⟨hin.1, hin.2.1⟩

theorem pack_congr {j : Instruction} (h : i.reached? revision = j.reached? revision) :
    i.pack revision.isa.layout = j.pack revision.isa.layout := by
  have htail : i.packedTail revision = j.packedTail revision := by
    rw [packedTail, packedTail, h]
  rw [pack, pack, placements_eq tail_of_mem_reachedOperand?,
    placements_eq tail_of_mem_reachedOperand?, h, htail]

/-- **Packing any instruction.** Each field holds the value that the
instruction gives to its part, without the bits that do not fit, and zero
if it gives none. No bit is set outside the fields that it reaches. What
comes behind the first absent part makes no difference to the word, and
neither do registers beyond the third. -/
theorem pack_fields (revision : Revision) (i : Instruction) :
    (∀ part field, revision.field? part = some field → ¬ i.Displaced revision part →
        (field.get (i.pack revision.isa.layout)).toNat
          = (i.reached? revision part).elim 0 fun value => value.toNat % 2 ^ field.width)
      ∧ (∀ n, (∀ part field, revision.field? part = some field →
            i.reached? revision part ≠ none →
            ¬ (field.shift.val ≤ n ∧ n < field.shift.val + field.width)) →
          (i.pack revision.isa.layout).getLsbD n = false)
      ∧ (i.trimmed revision).pack revision.isa.layout = i.pack revision.isa.layout
      ∧ ∀ j : Instruction, i.reached? revision = j.reached? revision →
          i.pack revision.isa.layout = j.pack revision.isa.layout :=
  ⟨fun _ _ => get_pack, fun _ => getLsbD_pack, pack_congr (reached?_trimmed revision i),
    fun _ => pack_congr⟩

example : pack Revision.v2.isa.layout
    { opClass? := some .alu, opcode? := some 0xFF, registers := [16, 17, 18, 19],
      condition? := some 7 } = 0x0F012000 := by
  decide

end Instruction

end LineAsm
