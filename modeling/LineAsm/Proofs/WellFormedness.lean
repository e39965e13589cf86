import LineAsm.Proofs.HeldParts
import LineAsm.Proofs.Truncation

/-!
# Well-formed instructions

The type of instructions has room for many that no line gives rise to.
An instruction that was read, in either mode, is well-formed in three
ways:

- which parts it holds is a matter of the length of the line and of the
  form of its operand, and of nothing else (`Instruction.Reaches`);
- its values fit their fields (`Instruction.Fits`), so the word shows
  each of them unchanged (`Instruction.Shows`);
- the word has no bit outside the fields of its class
  (`Instruction.Bounded`). The fields of an unknown class are those of the
  form with an offset, although the word has the class bits of a class
  with a signed flag.

All three come from what the instruction holds for each slot
(`Instruction.held?_values`). The table of token positions
(`Revision.token?`) turns slots into lengths.
-/

namespace LineAsm

/-! ## Token positions -/

/-- The token that a part is read from, in a line of the given form. -/
def Revision.token? : Revision → Tail → Part → Option Nat
  | _, _, .immediate => some 0
  | _, _, .writeEnable => some 1
  | _, _, .opClass => some 2
  | _, _, .opcode => some 3
  | .v3, _, _ => none
  | _, _, .register index => if index < 3 then some (4 + index) else none
  | _, .signed, .signed => some 7
  | _, .offset, .offset => some 7
  | .v1, .signed, .setFlags => some 8
  | .v1, .signed, .condition => some 10
  | .v1, .offset, .condition => some 9
  | .v2, _, .condition => some 8
  | .v2, _, .predicate => some 9
  | _, _, _ => none

theorem token?_of_mem_shape (revision : Revision) (tail : Tail) :
    ∀ s ∈ revision.isa.layout.shape tail, revision.token? tail s.1 = some s.2.token := by
  cases revision <;> cases tail <;> decide

theorem token?_eq_none {revision : Revision} {tail : Tail} {part : Part}
    (h : part ∉ (revision.isa.layout.shape tail).map (·.1)) :
    revision.token? tail part = none := by
  cases part with
  | register index =>
      match index with
      | 0 | 1 | 2 =>
          cases revision with
          | v1 | v2 => exact absurd (by cases tail <;> decide) h
          | v3 => rfl
      | index + 3 => cases revision <;> cases tail <;> simp [Revision.token?]
  | immediate | writeEnable | opClass | opcode | signed | setFlags | offset | condition
  | predicate =>
      revert h
      cases revision <;> cases tail <;> decide

/-- The part that an operand of the form starts with. -/
def Tail.part : Tail → Part
  | .signed => .signed
  | .offset => .offset

theorem isSome_operands?_iff (revision : Revision) :
    revision.isa.layout.operands?.isSome ↔ revision ≠ .v3 := by
  cases revision <;> decide

/-- The condition comes after the operand. -/
theorem Revision.conditionSlot?_position (revision : Revision) (tail : Tail) :
    ∀ slot ∈ revision.conditionSlot? tail, revision ≠ .v3 ∧ 7 < slot.token := by
  cases revision <;> cases tail <;> decide

theorem Revision.tail_eq_signed_iff {revision : Revision} {tokens : List String} :
    revision.tail tokens = .signed ↔
      ∃ marker kind, tokens[2]? = some marker ∧ OpClass.ofMarker? marker = some kind
        ∧ kind ∈ revision.isa.signedClasses := by
  rw [tail, isSignedLine]
  cases tokens[2]? with
  | none => simp
  | some marker => simp [Isa.isSigned, Option.any_eq_true]

/-! ## What is asked of an instruction -/

namespace Instruction

/-- The instruction holds the parts that the line is long enough for. -/
structure Reaches (revision : Revision) (tokens : List String) (i : Instruction) : Prop where
  class_iff : i.opClass?.isSome ↔ 3 ≤ tokens.length
  opcode_iff : i.opcode?.isSome ↔ 4 ≤ tokens.length
  length_registers : i.registers.length =
    if revision.isa.layout.registers = [] then 0 else min 3 (tokens.length - 4)
  operand_iff : i.operand?.isSome ↔ revision.isa.layout.operands?.isSome ∧ 8 ≤ tokens.length
  operand_signed_iff : ∀ operand ∈ i.operand?, operand.tail = .signed ↔
    ∃ marker kind, tokens[2]? = some marker ∧ OpClass.ofMarker? marker = some kind
      ∧ kind ∈ revision.isa.signedClasses
  setFlags_iff : ∀ on setFlags?, i.operand? = some (.signed on setFlags?) →
    (setFlags?.isSome ↔ revision = .v1 ∧ 9 ≤ tokens.length)
  condition_iff : i.condition?.isSome ↔ ∃ operand ∈ i.operand?,
    ∃ slot ∈ revision.conditionSlot? operand.tail, slot.token < tokens.length
  predicate_iff : i.predicate?.isSome ↔ revision = .v2 ∧ 10 ≤ tokens.length

/-- No value is too large for its field. -/
structure Fits (revision : Revision) (i : Instruction) : Prop where
  opcode_le : ∀ value ∈ i.opcode?, value.toNat ≤ 15
  register_le : ∀ value ∈ i.registers, value.toNat ≤ 15
  offset_le : ∀ value, i.operand? = some (.offset value) → value.toNat ≤ 255
  condition_lt : ∀ value ∈ i.condition?,
    ∃ field ∈ revision.conditionField?, value.toNat < 2 ^ field.width

/-- The word has each value in the field of its part, with all its bits. -/
def Shows (revision : Revision) (i : Instruction) : Prop :=
  ∀ part value, i.held? part = some value →
    ∃ field ∈ revision.field? part, field.get (i.pack revision.isa.layout) = value

/-- The word has no bit outside these fields. -/
def Within (revision : Revision) (i : Instruction) (fields : List Field) : Prop :=
  ∀ n, (i.pack revision.isa.layout).getLsbD n = true →
    ∃ field ∈ fields, field.shift.val ≤ n ∧ n < field.shift.val + field.width

/-- The parts of a line with an offset. -/
def offsetParts : List Part :=
  [.immediate, .writeEnable, .opClass, .opcode, .register 0, .register 1, .register 2,
    .offset, .condition, .predicate]

/-- The word has no bit outside the fields of its class. -/
structure Bounded (revision : Revision) (tokens : List String) (i : Instruction) : Prop where
  known_class : ∀ kind, tokens[2]?.bind OpClass.ofMarker? = some kind →
    i.Within revision (revision.isa.fieldsFor kind)
  unknown_class : ∀ marker, tokens[2]? = some marker → OpClass.ofMarker? marker = none →
    i.Within revision (offsetParts.filterMap revision.field?)
  no_class : tokens[2]? = none → i.Within revision [⟨31, 1⟩, ⟨30, 1⟩]

/-! ## What is held, by length -/

/-- The instruction holds a part exactly if the line reaches its token. -/
def HeldByLength (revision : Revision) (tokens : List String) (i : Instruction) : Prop :=
  ∀ part, (i.held? part).isSome ↔
    ∃ n ∈ revision.token? (revision.tail tokens) part, n < tokens.length

section Values

variable {revision : Revision} {tokens : List String} {kind : OpClass} {vs : List PartValue}

theorem heldByLength_values (hlen : 2 ≤ tokens.length)
    (h : (values revision.isa kind tokens
      (revision.isa.layout.shape (revision.tail tokens))).result = .ok vs) :
    HeldByLength revision tokens (vs.foldl put {}) := by
  obtain ⟨hslots, hothers⟩ := held?_values hlen h
  intro part
  by_cases hpart : part ∈ (revision.isa.layout.shape (revision.tail tokens)).map (·.1)
  · obtain ⟨s, hs, rfl⟩ := List.mem_map.mp hpart
    rw [token?_of_mem_shape revision _ s hs]
    rcases hslots s hs with ⟨htoken, hheld⟩ | ⟨token, v, htoken, -, hheld⟩
    · rw [List.getElem?_eq_none_iff] at htoken
      simp [hheld, htoken]
    · obtain ⟨hlt, -⟩ := List.getElem?_eq_some_iff.mp htoken
      simp [hheld, hlt]
  · simp [hothers part hpart, token?_eq_none hpart]

/-- A value that is held fits the field of its part, and stands there in the
word. -/
theorem get_pack_values (hlen : 2 ≤ tokens.length)
    (h : (values revision.isa kind tokens
      (revision.isa.layout.shape (revision.tail tokens))).result = .ok vs)
    (part : Part) (value : Word) (hheld : (vs.foldl put {}).held? part = some value) :
    ∃ field ∈ revision.field? part, value.toNat < 2 ^ field.width
      ∧ field.get ((vs.foldl put {}).pack revision.isa.layout) = value := by
  obtain ⟨hslots, hothers⟩ := held?_values hlen h
  by_cases hpart : part ∈ (revision.isa.layout.shape (revision.tail tokens)).map (·.1)
  · obtain ⟨s, hs, rfl⟩ := List.mem_map.mp hpart
    rcases hslots s hs with ⟨-, hnone⟩ | ⟨token, v, htoken, hv, hsome⟩
    · rw [hnone] at hheld
      cases hheld
    · obtain rfl := Option.some.inj (hsome.symm.trans hheld)
      have hkept := (shape_inPlace revision _ s hs).value_and_max hv
      have hwidth : s.2.field.width ≤ 32 := by
        have hinside := shape_inside revision _ s hs
        omega
      refine ⟨s.2.field, field?_of_mem_shape revision _ s hs, ?_, ?_⟩
      · rw [← hkept, Field.toNat_and_max hwidth]
        exact Nat.mod_lt _ (Nat.two_pow_pos _)
      · rcases get_join_values (shape_ordered ..) (shape_inside revision _) h s hs with
          ⟨hnone, -⟩ | ⟨token', v', htoken', hv', hget⟩
        · rw [htoken] at hnone
          cases hnone
        · obtain rfl := Option.some.inj (htoken.symm.trans htoken')
          obtain rfl := Except.ok.inj (hv.symm.trans hv')
          rw [pack, placements_values hlen h, hget, hkept]
  · rw [hothers part hpart] at hheld
    cases hheld

end Values

namespace HeldByLength

variable {revision : Revision} {tokens : List String} {i : Instruction}

theorem class_iff (h : HeldByLength revision tokens i) :
    i.opClass?.isSome ↔ 2 < tokens.length := by
  have hheld := h .opClass
  rw [held?, Option.isSome_map] at hheld
  rw [hheld]
  simp [Revision.token?]

theorem opcode_iff (h : HeldByLength revision tokens i) :
    i.opcode?.isSome ↔ 3 < tokens.length := by
  refine (h .opcode).trans ?_
  simp [Revision.token?]

theorem length_registers (h : HeldByLength revision tokens i) : i.registers.length =
    if revision.isa.layout.registers = [] then 0 else min 3 (tokens.length - 4) := by
  refine eq_of_forall_lt_iff fun k => ?_
  have hheld := h (.register k)
  rw [held?, isSome_getElem?] at hheld
  rw [hheld]
  cases revision with
  | v1 | v2 =>
      rw [if_neg (by decide)]
      by_cases hk : k < 3
      · simp only [Revision.token?, if_pos hk, Option.mem_def, Option.some.injEq,
          exists_eq_left']
        omega
      · simp only [Revision.token?, if_neg hk, Option.mem_def, reduceCtorEq, false_and,
          exists_false, false_iff]
        omega
  | v3 => simp [Revision.token?, Revision.isa, strippedIsa, headerLayout]

theorem operandPart_iff (h : HeldByLength revision tokens i) (tail : Tail) :
    (i.held? tail.part).isSome ↔
      revision ≠ .v3 ∧ revision.tail tokens = tail ∧ 7 < tokens.length := by
  rw [h]
  cases tail <;> cases revision <;> cases Revision.tail _ tokens <;>
    simp [Tail.part, Revision.token?]

/-- The operand has the form that the class of the line asks for. -/
theorem operand_tail (h : HeldByLength revision tokens i) :
    ∀ operand ∈ i.operand?, operand.tail = revision.tail tokens := by
  intro operand hoperand
  have hheld : (i.held? operand.tail.part).isSome := by
    rw [Option.mem_def] at hoperand
    cases operand <;> simp [held?, Tail.part, Operand.tail, hoperand]
  obtain ⟨-, htail, -⟩ := (h.operandPart_iff operand.tail).mp hheld
  exact htail.symm

theorem operand_iff (h : HeldByLength revision tokens i) :
    i.operand?.isSome ↔ revision ≠ .v3 ∧ 7 < tokens.length := by
  have hpart := h.operandPart_iff (revision.tail tokens)
  have hheld : (i.held? (revision.tail tokens).part).isSome ↔ i.operand?.isSome := by
    rcases hoperand : i.operand? with _ | operand
    · cases revision.tail tokens <;> simp [held?, Tail.part, hoperand]
    · rw [← h.operand_tail operand hoperand]
      cases operand <;> simp [held?, Tail.part, Operand.tail, hoperand]
  rw [← hheld, hpart]
  simp

theorem setFlags_iff (h : HeldByLength revision tokens i) (on : Bool) (setFlags? : Option Bool)
    (hoperand : i.operand? = some (.signed on setFlags?)) :
    setFlags?.isSome ↔ revision = .v1 ∧ 8 < tokens.length := by
  have htail : Tail.signed = revision.tail tokens := h.operand_tail _ hoperand
  have hheld := h .setFlags
  rw [held?, hoperand, Option.isSome_map, ← htail] at hheld
  rw [hheld]
  cases revision <;> simp [Revision.token?]

theorem condition_iff (h : HeldByLength revision tokens i) :
    i.condition?.isSome ↔ ∃ operand ∈ i.operand?,
      ∃ slot ∈ revision.conditionSlot? operand.tail, slot.token < tokens.length := by
  have hheld : i.condition?.isSome ↔
      ∃ slot ∈ revision.conditionSlot? (revision.tail tokens), slot.token < tokens.length := by
    refine (h .condition).trans ?_
    cases revision <;> cases Revision.tail _ tokens <;>
      simp [Revision.token?, Revision.conditionSlot?]
  rw [hheld]
  constructor
  · rintro ⟨slot, hslot, hlt⟩
    obtain ⟨hrevision, hposition⟩ := revision.conditionSlot?_position _ slot hslot
    obtain ⟨operand, hoperand⟩ :=
      Option.isSome_iff_exists.mp (h.operand_iff.mpr ⟨hrevision, by omega⟩)
    refine ⟨operand, hoperand, slot, ?_, hlt⟩
    rw [h.operand_tail operand hoperand]
    exact hslot
  · rintro ⟨operand, hoperand, hslot⟩
    rw [← h.operand_tail operand hoperand]
    exact hslot

theorem predicate_iff (h : HeldByLength revision tokens i) :
    i.predicate?.isSome ↔ revision = .v2 ∧ 9 < tokens.length := by
  have hheld := h .predicate
  rw [held?, Option.isSome_map] at hheld
  rw [hheld]
  cases revision <;> cases Revision.tail _ tokens <;> simp [Revision.token?]

theorem reaches (h : HeldByLength revision tokens i) : i.Reaches revision tokens where
  class_iff := h.class_iff
  opcode_iff := h.opcode_iff
  length_registers := h.length_registers
  operand_iff := by
    rw [h.operand_iff, ← isSome_operands?_iff]
    rfl
  operand_signed_iff := fun operand hoperand => by
    rw [h.operand_tail operand hoperand, Revision.tail_eq_signed_iff]
  setFlags_iff := h.setFlags_iff
  condition_iff := h.condition_iff
  predicate_iff := h.predicate_iff

end HeldByLength

/-! ## Values and bits -/

section Word

variable {revision : Revision} {tokens : List String} {i : Instruction}

theorem width_register {index : Nat} {field : Field}
    (h : revision.field? (.register index) = some field) : field.width = 4 := by
  match index with
  | 0 | 1 | 2 => cases revision <;> cases h <;> rfl
  | _ + 3 => cases revision <;> cases h

theorem width_offset {field : Field} (h : revision.field? .offset = some field) :
    field.width = 8 := by
  cases revision <;> cases h <;> rfl

theorem field?_condition (revision : Revision) :
    revision.field? .condition = revision.conditionField? := by
  cases revision <;> rfl

/-- Values that stand unchanged in their fields fit them. -/
theorem fits_of_get_pack (h : ∀ part value, i.held? part = some value →
    ∃ field ∈ revision.field? part, value.toNat < 2 ^ field.width
      ∧ field.get (i.pack revision.isa.layout) = value) : i.Fits revision where
  opcode_le := fun value hvalue => by
    obtain ⟨field, hfield, hlt, -⟩ := h .opcode value hvalue
    obtain rfl := Option.some.inj hfield
    exact Nat.le_of_lt_succ hlt
  register_le := fun value hvalue => by
    obtain ⟨index, hindex⟩ := List.getElem?_of_mem hvalue
    obtain ⟨field, hfield, hlt, -⟩ := h (.register index) value hindex
    rw [width_register hfield] at hlt
    exact Nat.le_of_lt_succ hlt
  offset_le := fun value hvalue => by
    obtain ⟨field, hfield, hlt, -⟩ := h .offset value (by rw [held?, hvalue])
    rw [width_offset hfield] at hlt
    exact Nat.le_of_lt_succ hlt
  condition_lt := fun value hvalue => by
    obtain ⟨field, hfield, hlt, -⟩ := h .condition value hvalue
    rw [field?_condition] at hfield
    exact ⟨field, hfield, hlt⟩

theorem layout_flags (revision : Revision) : revision.isa.layout.immediate = ⟨31, 1⟩
    ∧ revision.isa.layout.writeEnable = ⟨30, 1⟩ := by
  cases revision <;> decide

/-- The form with an offset has the fields of the parts that are named. -/
theorem shape_offset_fields (revision : Revision) :
    (revision.isa.layout.shape .offset).map (·.2.field)
      = offsetParts.filterMap revision.field? := by
  cases revision <;> rfl

theorem within_of_placements {fields : List Field}
    (h : ∀ p ∈ placements revision.isa.layout i, p.1 ∈ fields) : i.Within revision fields := by
  intro n hbit
  by_contra hnone
  have hclear : (i.pack revision.isa.layout).getLsbD n = false := by
    refine getLsbD_join_eq_false fun p hp => ?_
    rw [Field.getLsbD_mask, decide_eq_false_iff_not]
    exact fun hin => hnone ⟨p.1, h p hp, hin.1, hin.2.1⟩
  rw [hbit] at hclear
  cases hclear

/-- The fields of a line are those of its form. Without a class only the
first two flags are placed. -/
theorem bounded_values {kind : OpClass} {vs : List PartValue} (hlen : 2 ≤ tokens.length)
    (h : (values revision.isa kind tokens
      (revision.isa.layout.shape (revision.tail tokens))).result = .ok vs) :
    (vs.foldl put {}).Bounded revision tokens := by
  have hshape : (vs.foldl put {}).Within revision
      ((revision.isa.layout.shape (revision.tail tokens)).map (·.2.field)) := by
    refine within_of_placements fun p hp => ?_
    rw [placements_values hlen h] at hp
    obtain ⟨s, hs, hfield⟩ := mem_placed hp
    exact List.mem_map.mpr ⟨s, hs, hfield.symm⟩
  refine ⟨fun kind hkind => ?_, fun marker hmarker hunknown => ?_, fun hnone => ?_⟩
  · rw [tail_eq_of_marker hkind] at hshape
    exact hshape
  · have htail : revision.tail tokens = .offset := by
      rw [Revision.tail, Revision.isSignedLine, hmarker, Option.bind_some, hunknown]
      rfl
    rw [htail, shape_offset_fields] at hshape
    exact hshape
  · have hclass : (vs.foldl put {}).opClass? = none := by
      have hiff := (heldByLength_values hlen h).class_iff
      rw [List.getElem?_eq_none_iff] at hnone
      rw [← Option.not_isSome_iff_eq_none, hiff]
      omega
    refine within_of_placements fun p hp => ?_
    rw [placements, hclass] at hp
    obtain ⟨himmediate, hwriteEnable⟩ := layout_flags revision
    simp only [himmediate, hwriteEnable, List.mem_cons, List.not_mem_nil, or_false] at hp
    rcases hp with rfl | rfl <;> simp

end Word

end Instruction

/-! ## Lines -/

/-- A reading succeeds only with the result of its finding, in either mode. -/
theorem Reading.Denotes.result_eq_ok {α : Type} {reading : Reading α} {o : Finding α}
    (h : Reading.Denotes reading o) {sink after : Sink} {a : α}
    (hrun : reading.runOn sink = (.ok a, after)) : o.result = .ok a := by
  rw [h sink] at hrun
  obtain ⟨mode, noted⟩ := sink
  obtain ⟨result, ws⟩ := o
  cases result with
  | ok b =>
      cases mode <;> cases ws <;> simp_all [Finding.onSink, Except.mapError]
  | error m =>
      cases mode <;> cases ws <;> simp [Finding.onSink, Except.mapError] at hrun

/-- A line that is read as an instruction has two tokens or more, and its
instruction is made of the values of its slots. -/
theorem Line.exists_values {revision : Revision} {tokens : List String} {sink after : Sink}
    {i : Instruction}
    (h : (Line.read revision.isa tokens).runOn sink = (.ok (.instruction i), after)) :
    2 ≤ tokens.length ∧ ∃ vs, i = vs.foldl Instruction.put {}
      ∧ (Instruction.values revision.isa (Instruction.classOf tokens) tokens
        (revision.isa.layout.shape (revision.tail tokens))).result = .ok vs := by
  have hresult := (Line.read_denotes revision.isa tokens).result_eq_ok h
  match tokens with
  | [] | [_] => cases hresult
  | head :: literal :: rest =>
      rw [Line.finding] at hresult
      cases hmarker : Directive.Kind.ofMarker? head with
      | some kind =>
          rw [hmarker] at hresult
          obtain ⟨_, -, hline⟩ := Finding.map_result_eq_ok.mp hresult
          cases hline
      | none =>
          rw [hmarker] at hresult
          obtain ⟨_, hfinding, hline⟩ := Finding.map_result_eq_ok.mp hresult
          obtain rfl := Line.instruction.inj hline
          obtain ⟨vs, hvs, rfl⟩ := Finding.map_result_eq_ok.mp hfinding
          rw [shapeOf_eq] at hvs
          exact ⟨by simp, vs, rfl, hvs⟩

/-- **Instructions that were read are well-formed**, in either mode and on
any sink. The parts present are those that the line is long enough for,
in the form that the class asks for; every value fits its field and is
seen there in the word; and the word has no other bits than those of the
fields of the class. -/
theorem Line.instruction_wellFormed (revision : Revision) (tokens : List String)
    (sink : Sink) {after : Sink} {i : Instruction}
    (h : (Line.read revision.isa tokens).runOn sink = (.ok (.instruction i), after)) :
    i.Reaches revision tokens ∧ i.Fits revision ∧ i.Shows revision
      ∧ i.Bounded revision tokens := by
  obtain ⟨hlen, vs, rfl, hvs⟩ := Line.exists_values h
  have hget := Instruction.get_pack_values hlen hvs
  refine ⟨(Instruction.heldByLength_values hlen hvs).reaches, Instruction.fits_of_get_pack hget,
    fun part value hheld => ?_, Instruction.bounded_values hlen hvs⟩
  obtain ⟨field, hfield, -, hvalue⟩ := hget part value hheld
  exact ⟨field, hfield, hvalue⟩

/-- A lenient early line: a register is too large, and the condition has no
such name. -/
theorem Line.instruction_wellFormed_lenient :
    ∃ i after, (Line.read Revision.v1.isa
        ["i", "1", "a", "add", "r17", "r2", "r3", "s", "sf", "", "never"]).runOn
          (.fresh .lenient) = (.ok (.instruction i), after)
      ∧ i.registers = [1, 2, 3] ∧ i.condition? = some 0
      ∧ (i.Reaches .v1 ["i", "1", "a", "add", "r17", "r2", "r3", "s", "sf", "", "never"]
        ∧ i.Fits .v1 ∧ i.Shows .v1
        ∧ i.Bounded .v1 ["i", "1", "a", "add", "r17", "r2", "r3", "s", "sf", "", "never"]) :=
  ⟨_, _, rfl, rfl, rfl, Line.instruction_wellFormed .v1
    ["i", "1", "a", "add", "r17", "r2", "r3", "s", "sf", "", "never"] (.fresh .lenient) rfl⟩

end LineAsm
