import LineAsm.Line.Instruction
import LineAsm.Proofs.Finding

/-!
# Instructions as lists of values

Reading an instruction walks over the slots of its shape and changes
the instruction slot by slot. Here the walk is taken apart into what
does not depend on the instruction built so far and what does:

- `Part.value` is what one token gives to one slot: a `PartValue`, or the
  misreading, with the warning. Of the rest of the line it sees only
  the class, and only the opcode asks for it.
- `values` reads the slots that the line reaches, one after the other.
- `Instruction.put` stores a value. It is total and cannot fail.

`read_denotes` puts the two together: the instruction of a line is what
storing its values makes of the empty instruction. After it, statements
about lines are statements about lists of values, and the instruction
comes in again only where it is packed.
-/

namespace LineAsm

/-- A part of an instruction with its value, as one token gives it. -/
inductive PartValue where
  | immediate (on : Bool)
  | writeEnable (on : Bool)
  | opClass (kind : OpClass)
  | opcode (value : Word)
  | register (index : Nat) (value : Word)
  | signed (on : Bool)
  | setFlags (on : Bool)
  | offset (value : Word)
  | condition (value : Word)
  | predicate (on : Bool)
  deriving Repr, DecidableEq

namespace PartValue

def part : PartValue → Part
  | .immediate _ => .immediate
  | .writeEnable _ => .writeEnable
  | .opClass _ => .opClass
  | .opcode _ => .opcode
  | .register index _ => .register index
  | .signed _ => .signed
  | .setFlags _ => .setFlags
  | .offset _ => .offset
  | .condition _ => .condition
  | .predicate _ => .predicate

/-- The form of a value is known from its part. -/
theorem eq_of_part {v : PartValue} {p : Part} (h : v.part = p) :
    match p with
    | .immediate => ∃ on, v = .immediate on
    | .writeEnable => ∃ on, v = .writeEnable on
    | .opClass => ∃ kind, v = .opClass kind
    | .opcode => ∃ value, v = .opcode value
    | .register index => ∃ value, v = .register index value
    | .signed => ∃ on, v = .signed on
    | .setFlags => ∃ on, v = .setFlags on
    | .offset => ∃ value, v = .offset value
    | .condition => ∃ value, v = .condition value
    | .predicate => ∃ on, v = .predicate on := by
  subst h
  cases v <;> exact ⟨_, rfl⟩

/-- The value as it goes into the field of the part. -/
def word : PartValue → Word
  | .immediate on | .writeEnable on | .signed on | .setFlags on | .predicate on => Word.ofBool on
  | .opClass kind => kind.code
  | .opcode value | .register _ value | .offset value | .condition value => value

end PartValue

/-- Does the part come after the registers? -/
def Part.isOperand : Part → Bool
  | .signed | .setFlags | .offset | .condition | .predicate => true
  | _ => false

/-! ## One slot -/

/-- What a token gives to a slot, in a line of the given class. -/
def Part.value (isa : Isa) (opClass : OpClass) (field : Field) (token : String) :
    Part → Finding PartValue
  | .immediate => .pure (.immediate (token == "i"))
  | .writeEnable => .pure (.writeEnable (token == "1"))
  | .opClass =>
    (Finding.orWarn (OpClass.ofMarker? token) (.unknownClass token) .alu).map .opClass
  | .opcode =>
    (Finding.orWarn (isa.opcode? opClass token) (.unknownMnemonic opClass token) 0).map .opcode
  | .register index =>
    (Finding.expect .registerOperand token (Instruction.readRegister token)).bind fun value =>
      ⟨.ok (.register index (value &&& field.max)),
        if field.fits value then [] else [.registerOutOfRange index value field.max]⟩
  | .signed => .pure (.signed (token == "s"))
  | .setFlags => .pure (.setFlags (token == "sf"))
  | .offset =>
    (Finding.expect .memoryOffset token (Instruction.readOffset token)).bind fun value =>
      (Finding.orWarn (if field.fits value then some value else none)
        (.offsetOutOfRange value) 0).map .offset
  | .condition =>
    (Finding.orWarn (if token == "" then some 0 else isa.condition? token)
      (.unknownCondition token) 0).map .condition
  | .predicate => .pure (.predicate (token == "p"))

/-- A slot gets a value of its own part. -/
theorem Part.value_part {isa : Isa} {opClass : OpClass} {field : Field} {token : String}
    {part : Part} {v : PartValue}
    (h : (part.value isa opClass field token).result = .ok v) : v.part = part := by
  cases part with
  | register index =>
      simp only [Part.value, Finding.expect, Finding.bind] at h
      split at h
      · cases h; rfl
      · cases h
  | offset =>
      simp only [Part.value, Finding.expect, Finding.bind] at h
      split at h
      · simp only [Finding.map, Finding.orWarn] at h
        split at h <;> (cases h; rfl)
      · cases h
  | opClass | opcode | condition =>
      simp only [Part.value, Finding.map, Finding.orWarn] at h
      split at h <;> (cases h; rfl)
  | immediate | writeEnable | signed | setFlags | predicate => cases h; rfl

namespace Instruction

/-- Stores a value. The set-flags value belongs to a signed operand and
is lost without one. -/
def put (i : Instruction) : PartValue → Instruction
  | .immediate on => { i with immediate := on }
  | .writeEnable on => { i with writeEnable := on }
  | .opClass kind => { i with opClass? := some kind }
  | .opcode value => { i with opcode? := some value }
  | .register _ value => { i with registers := i.registers ++ [value] }
  | .signed on => { i with operand? := some (.signed on none) }
  | .setFlags on =>
    match i.operand? with
    | some (.signed signed _) => { i with operand? := some (.signed signed (some on)) }
    | _ => i
  | .offset value => { i with operand? := some (.offset value) }
  | .condition value => { i with condition? := some value }
  | .predicate on => { i with predicate? := some on }

theorem put_opClass? {i : Instruction} {v : PartValue} (h : v.part ≠ .opClass) :
    (i.put v).opClass? = i.opClass? := by
  cases v with
  | opClass c => exact absurd rfl h
  | setFlags on => simp only [put]; split <;> rfl
  | _ => rfl

/-- Filling a slot stores the value that the token gives. -/
theorem fill_denotes (isa : Isa) (part : Part) (field : Field) (token : String)
    (i : Instruction) :
    Reading.Denotes (fill isa part field token i)
      ((part.value isa (i.opClass?.getD .alu) field token).map i.put) := by
  cases part with
  | opClass | opcode | condition =>
      rw [fill, Part.value, Finding.map_map, Finding.map_eq_bind]
      exact Reading.denotes_bind (Reading.denotes_orWarn _ _ _) fun _ => Reading.denotes_pure _
  | register index =>
      rw [fill, Part.value, Finding.map_bind]
      refine Reading.denotes_bind (Reading.denotes_expect _ _ _) fun value => ?_
      cases hfits : field.fits value with
      | true =>
          simp only [Bool.not_true, Bool.false_eq_true, if_false, if_true]
          exact Reading.denotes_pure _
      | false =>
          simp only [Bool.not_false, Bool.false_eq_true, if_false, if_true]
          exact Reading.denotes_bind (Reading.denotes_warn _) fun _ => Reading.denotes_pure _
  | offset =>
      rw [fill, Part.value, Finding.map_bind]
      refine Reading.denotes_bind (Reading.denotes_expect _ _ _) fun value => ?_
      rw [Finding.map_map, Finding.map_eq_bind]
      exact Reading.denotes_bind (Reading.denotes_orWarn _ _ _) fun _ => Reading.denotes_pure _
  | setFlags =>
      rw [fill, Part.value, Finding.map_pure, put]
      rcases i.operand? with _ | ⟨signed, flags?⟩ | value <;> exact Reading.denotes_pure _
  | immediate | writeEnable | signed | predicate => exact Reading.denotes_pure _

/-! ## All slots of a line -/

/-- The values of the slots that the line reaches. -/
def values (isa : Isa) (opClass : OpClass) (tokens : List String) :
    List (Part × Slot) → Finding (List PartValue)
  | [] => .pure []
  | (part, slot) :: rest =>
    match tokens[slot.token]? with
    | none => .pure []
    | some token =>
      (part.value isa opClass slot.field token).bind fun v =>
        (values isa opClass tokens rest).map (v :: ·)

@[simp] theorem values_cons_none {isa : Isa} {opClass : OpClass} {tokens : List String}
    {part : Part} {slot : Slot} {rest : List (Part × Slot)}
    (h : tokens[slot.token]? = none) :
    values isa opClass tokens ((part, slot) :: rest) = .pure [] := by
  rw [values, h]

@[simp] theorem values_cons_some {isa : Isa} {opClass : OpClass} {tokens : List String}
    {part : Part} {slot : Slot} {rest : List (Part × Slot)} {token : String}
    (h : tokens[slot.token]? = some token) :
    values isa opClass tokens ((part, slot) :: rest) =
      (part.value isa opClass slot.field token).bind fun v =>
        (values isa opClass tokens rest).map (v :: ·) := by
  rw [values, h]

/-- After the class slot the class stays, so all slots are read under
the class that the instruction has by then. -/
theorem fillShape_denotes (isa : Isa) (tokens : List String) :
    ∀ (slots : List (Part × Slot)) (i : Instruction), (∀ s ∈ slots, s.1 ≠ .opClass) →
      Reading.Denotes (fillShape isa tokens slots i)
        ((values isa (i.opClass?.getD .alu) tokens slots).map (List.foldl put i))
  | [], i, _ => Reading.denotes_pure i
  | (part, slot) :: rest, i, h => by
      cases htoken : tokens[slot.token]? with
      | none =>
          rw [fillShape, htoken, values_cons_none htoken]
          exact Reading.denotes_pure i
      | some token =>
          rw [fillShape, htoken, values_cons_some htoken, Finding.map_bind]
          have hstep := Reading.denotes_bind (fill_denotes isa part slot.field token i)
            fun filled => fillShape_denotes isa tokens rest filled
              fun s hs => h s (List.mem_cons_of_mem _ hs)
          rw [Finding.bind_map] at hstep
          refine (Finding.bind_congr fun v hv => ?_) ▸ hstep
          have hpart : v.part ≠ .opClass := by
            rw [Part.value_part hv]
            exact h _ (List.mem_cons_self ..)
          rw [put_opClass? hpart, Finding.map_map]
          rfl

/-! ## The instruction of a line -/

/-- The class under which a line is read. A token that names no class
counts as the class whose code is zero, and so does a missing one. -/
def classOf (tokens : List String) : OpClass :=
  (tokens[classToken]?.bind OpClass.ofMarker?).getD .alu

/-- The slots after the opcode. -/
def shapeAfterOpcode (l : Layout) (tail : Tail) : List (Part × Slot) :=
  l.registerShape ++ l.operands?.elim [] (·.shape tail)

/-- The slots after the class. -/
def shapeAfterClass (l : Layout) (tail : Tail) : List (Part × Slot) :=
  (.opcode, ⟨3, l.opcode⟩) :: shapeAfterOpcode l tail

theorem shape_eq (l : Layout) (tail : Tail) :
    l.shape tail = (.immediate, ⟨0, l.immediate⟩) :: (.writeEnable, ⟨1, l.writeEnable⟩) ::
      (.opClass, ⟨classToken, l.opClass⟩) :: shapeAfterClass l tail := rfl

theorem mem_registerShape {l : Layout} {s : Part × Slot} (h : s ∈ l.registerShape) :
    ∃ index, s.1 = .register index := by
  rw [Layout.registerShape, List.mem_mapIdx] at h
  obtain ⟨index, _, rfl⟩ := h
  exact ⟨index, rfl⟩

theorem mem_operandShape {o : Operands} {tail : Tail} {s : Part × Slot}
    (h : s ∈ o.shape tail) : s.1.isOperand = true := by
  cases tail with
  | signed =>
      simp only [Operands.shape, List.mem_append, List.mem_cons, List.mem_map] at h
      rcases h with (rfl | ⟨_, _, rfl⟩) | rfl | ⟨_, _, rfl⟩ <;> rfl
  | offset =>
      simp only [Operands.shape, List.mem_cons, List.mem_map] at h
      rcases h with rfl | rfl | ⟨_, _, rfl⟩ <;> rfl

theorem ne_opClass_of_mem_shapeAfterClass {l : Layout} {tail : Tail} :
    ∀ s ∈ shapeAfterClass l tail, s.1 ≠ .opClass := by
  intro s hs
  rcases List.mem_cons.mp hs with rfl | hs
  · simp
  · rcases List.mem_append.mp hs with hs | hs
    · obtain ⟨index, hindex⟩ := mem_registerShape hs
      simp [hindex]
    · cases hops : l.operands? with
      | none => simp [hops] at hs
      | some o =>
          rw [hops] at hs
          intro hclass
          have hoperand := mem_operandShape hs
          rw [hclass] at hoperand
          cases hoperand

/-- The class slot gives the class under which the rest of the line is
read. -/
theorem value_opClass_result {isa : Isa} {kind : OpClass} {field : Field}
    {tokens : List String} {token : String} (htoken : tokens[classToken]? = some token) :
    (Part.opClass.value isa kind field token).result = .ok (.opClass (classOf tokens)) := by
  rw [classOf, htoken, Part.value]
  cases hmarker : OpClass.ofMarker? token <;> simp [Finding.orWarn, Finding.map, Finding.pure,
    Except.map, hmarker]

/-- The instruction that the values of a line make, stored one after the
other. -/
def finding (isa : Isa) (tokens : List String) : Finding Instruction :=
  (values isa (classOf tokens) tokens (shapeOf isa tokens)).map (List.foldl put {})

/-- **Reading an instruction** is storing its values into the empty
instruction, and it fails and warns as reading the values does. -/
theorem read_denotes (isa : Isa) (tokens : List String) :
    Reading.Denotes (read isa tokens) (finding isa tokens) := by
  rw [read, finding, shapeOf]
  generalize tokens[classToken]?.elim Tail.offset isa.tailOf = tail
  rw [shape_eq]
  match tokens with
  | [] => exact Reading.denotes_pure _
  | [_] => exact Reading.denotes_pure _
  | [_, _] => exact Reading.denotes_pure _
  | a :: b :: c :: rest =>
      have hstep := Reading.denotes_bind
        (fill_denotes isa .opClass isa.layout.opClass c
          { immediate := a == "i", writeEnable := b == "1" })
        fun filled => fillShape_denotes isa (a :: b :: c :: rest)
          (shapeAfterClass isa.layout tail) filled ne_opClass_of_mem_shapeAfterClass
      rw [Finding.bind_map] at hstep
      have hvalues : ∀ kind, values isa kind (a :: b :: c :: rest)
          ((.immediate, ⟨0, isa.layout.immediate⟩) ::
            (.writeEnable, ⟨1, isa.layout.writeEnable⟩) ::
            (.opClass, ⟨classToken, isa.layout.opClass⟩) :: shapeAfterClass isa.layout tail)
          = (Part.opClass.value isa kind isa.layout.opClass c).bind fun v =>
            (values isa kind (a :: b :: c :: rest) (shapeAfterClass isa.layout tail)).map
              fun vs => .immediate (a == "i") :: .writeEnable (b == "1") :: v :: vs := by
        intro kind
        simp only [values, classToken, List.getElem?_cons_zero, List.getElem?_cons_succ,
          Part.value, Finding.bind_pure, Finding.map_bind, Finding.map_map]
        rfl
      rw [hvalues, Finding.map_bind]
      refine (Finding.bind_congr fun v hv => ?_) ▸ hstep
      obtain rfl : v = .opClass (classOf (a :: b :: c :: rest)) :=
        Except.ok.inj (hv.symm.trans (value_opClass_result rfl))
      rw [Finding.map_map]
      rfl

end Instruction

end LineAsm
