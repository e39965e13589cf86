import LineAsm.Proofs.FieldBits
import LineAsm.Proofs.Modes

/-!
# The word of a line, slot by slot

Reading and packing are two walks over one shape, and each may stop
early. Here they are shown to stop at the same slot: packing the
instruction made of some values places exactly these values, each in
the field of its own slot (`placements_foldl_put`). The instruction in
between drops out, and the word of a line is the join of what its
tokens give (`Instruction.word`, `Line.finding_word`).

The condition is that the values *fill* a first part of the shape
(`Fills`), which is how `values` delivers them (`values_fill`).
-/

namespace LineAsm

namespace Instruction

/-! ## Values in the order of the slots -/

/-- The values belong to the first slots, one by one. -/
def Fills : List PartValue → List (Part × Slot) → Prop
  | [], _ => True
  | _ :: _, [] => False
  | v :: vs, s :: slots => v.part = s.1 ∧ Fills vs slots

/-- The values with the fields of their slots. -/
def placed (slots : List (Part × Slot)) (vs : List PartValue) : List (Field × Word) :=
  (slots.map (·.2.field)).zip (vs.map PartValue.word)

@[simp] theorem placed_nil (slots : List (Part × Slot)) : placed slots [] = [] := by
  simp [placed]

@[simp] theorem placed_cons (s : Part × Slot) (slots : List (Part × Slot)) (v : PartValue)
    (vs : List PartValue) :
    placed (s :: slots) (v :: vs) = (s.2.field, v.word) :: placed slots vs := rfl

theorem values_cons_result {isa : Isa} {kind : OpClass} {tokens : List String} {part : Part}
    {slot : Slot} {rest : List (Part × Slot)} {token : String} {vs : List PartValue}
    (htoken : tokens[slot.token]? = some token)
    (h : (values isa kind tokens ((part, slot) :: rest)).result = .ok vs) :
    ∃ v vs', vs = v :: vs' ∧ (part.value isa kind slot.field token).result = .ok v
      ∧ (values isa kind tokens rest).result = .ok vs' := by
  rw [values_cons_some htoken, Finding.bind_result_eq_ok] at h
  obtain ⟨v, hv, h⟩ := h
  obtain ⟨vs', hvs', rfl⟩ := Finding.map_result_eq_ok.mp h
  exact ⟨v, vs', rfl, hv, hvs'⟩

theorem values_fill {isa : Isa} {kind : OpClass} {tokens : List String} :
    ∀ {slots : List (Part × Slot)} {vs : List PartValue},
      (values isa kind tokens slots).result = .ok vs → Fills vs slots
  | [], _, h => by cases h; trivial
  | (part, slot) :: rest, vs, h => by
      cases htoken : tokens[slot.token]? with
      | none =>
          rw [values_cons_none htoken] at h
          cases h
          trivial
      | some token =>
          obtain ⟨v, vs', rfl, hv, hvs'⟩ := values_cons_result htoken h
          exact ⟨Part.value_part hv, values_fill hvs'⟩

theorem Fills.length_le : ∀ {vs : List PartValue} {slots : List (Part × Slot)},
    Fills vs slots → vs.length ≤ slots.length
  | [], _, _ => Nat.zero_le _
  | _ :: _, _ :: _, ⟨_, h⟩ => Nat.succ_le_succ h.length_le

theorem Fills.append_inv : ∀ {vs : List PartValue} {as bs : List (Part × Slot)},
    Fills vs (as ++ bs) →
      ∃ xs ys, vs = xs ++ ys ∧ Fills xs as ∧ Fills ys bs
        ∧ (ys = [] ∨ xs.length = as.length)
  | vs, [], _, h => ⟨[], vs, rfl, trivial, h, Or.inr rfl⟩
  | [], _ :: _, _, _ => ⟨[], [], rfl, trivial, trivial, Or.inl rfl⟩
  | v :: vs, s :: as, bs, ⟨hv, h⟩ => by
      obtain ⟨xs, ys, rfl, hxs, hys, hfull⟩ := Fills.append_inv h
      refine ⟨v :: xs, ys, rfl, ⟨hv, hxs⟩, hys, hfull.imp id fun hlen => ?_⟩
      rw [List.length_cons, List.length_cons, hlen]

theorem placed_append {as bs : List (Part × Slot)} {xs ys : List PartValue}
    (h : ys = [] ∨ xs.length = as.length) (hle : xs.length ≤ as.length) :
    placed (as ++ bs) (xs ++ ys) = placed as xs ++ placed bs ys := by
  rcases h with rfl | hlen
  · induction xs generalizing as with
    | nil => simp
    | cons x xs ih =>
        cases as with
        | nil => simp at hle
        | cons a as =>
            have hle' : xs.length ≤ as.length := Nat.le_of_succ_le_succ hle
            rw [List.cons_append, List.cons_append, placed_cons, placed_cons, ih hle']
            rfl
  · simp only [placed, List.map_append]
    exact List.zip_append (by simp [hlen])

theorem placed_append_left {as bs : List (Part × Slot)} {vs : List PartValue}
    (h : vs.length ≤ as.length) : placed (as ++ bs) vs = placed as vs := by
  have hplaced : placed (as ++ bs) (vs ++ []) = placed as vs ++ placed bs [] :=
    placed_append (Or.inl rfl) h
  simpa using hplaced

theorem placed_split (as bs : List (Part × Slot)) (vs : List PartValue) :
    placed (as ++ bs) vs
      = placed as (vs.take as.length) ++ placed bs (vs.drop as.length) := by
  have hfull : vs.drop as.length = [] ∨ (vs.take as.length).length = as.length := by
    by_cases hlen : vs.length ≤ as.length
    · exact Or.inl (List.drop_eq_nil_of_le hlen)
    · exact Or.inr (List.length_take_of_le (by omega))
  rw [← placed_append hfull (List.length_take_le ..), List.take_append_drop]

theorem mem_placed {slots : List (Part × Slot)} {vs : List PartValue} {p : Field × Word}
    (h : p ∈ placed slots vs) : ∃ s ∈ slots, p.1 = s.2.field := by
  obtain ⟨s, hs, heq⟩ := List.mem_map.mp (List.of_mem_zip h).1
  exact ⟨s, hs, heq.symm⟩

/-! ## Storing values and packing them -/

/-- The slots from the condition on, for either tail. -/
def conditionShape (o : Operands) (token : Nat) : List (Part × Slot) :=
  (.condition, ⟨token, o.condition⟩) :: o.predicate?.toList.map (.predicate, ·)

/-- The fields reached from the condition on. -/
def conditionPlacements (o : Operands) (i : Instruction) : List (Field × Word) :=
  match i.condition? with
  | none => []
  | some condition => (o.condition, condition) :: placeFlag? o.predicate? i.predicate?

theorem conditionPlacements_foldl_put {o : Operands} {token : Nat} {i : Instruction}
    (hcond : i.condition? = none) (hpred : i.predicate? = none) {vs : List PartValue}
    (h : Fills vs (conditionShape o token)) :
    conditionPlacements o (vs.foldl put i) = placed (conditionShape o token) vs
      ∧ (vs.foldl put i).operand? = i.operand? := by
  obtain ⟨_, _, _, _, _, _, predicate?⟩ := o
  cases vs with
  | nil => simp [conditionPlacements, hcond]
  | cons v vs =>
      obtain ⟨hv, h⟩ := h
      obtain ⟨value, rfl⟩ := PartValue.eq_of_part hv
      cases vs with
      | nil =>
          simp [conditionPlacements, conditionShape, put, placeFlag?, hpred, PartValue.word]
      | cons v vs =>
          cases predicate? with
          | none => exact h.elim
          | some slot =>
              obtain ⟨hv, h⟩ := h
              obtain ⟨on, rfl⟩ := PartValue.eq_of_part hv
              cases vs with
              | nil => exact ⟨rfl, rfl⟩
              | cons _ _ => exact h.elim

/-- The operands of an instruction are placed as they were read. -/
theorem operandPlacements_foldl_put {o : Operands} {tail : Tail} {i : Instruction}
    (hoperand : i.operand? = none) (hcond : i.condition? = none) (hpred : i.predicate? = none)
    {vs : List PartValue} (h : Fills vs (o.shape tail)) :
    operandPlacements o (vs.foldl put i) = placed (o.shape tail) vs := by
  cases vs with
  | nil => simp [operandPlacements, hoperand]
  | cons v vs =>
      cases tail with
      | offset =>
          obtain ⟨hv, h⟩ := h
          obtain ⟨value, rfl⟩ := PartValue.eq_of_part hv
          obtain ⟨hplaced, hkept⟩ :=
            conditionPlacements_foldl_put (i := i.put (.offset value)) hcond hpred h
          rw [List.foldl_cons, operandPlacements, hkept]
          exact congrArg (_ :: ·) hplaced
      | signed =>
          obtain ⟨hv, h⟩ := h
          obtain ⟨on, rfl⟩ := PartValue.eq_of_part hv
          obtain ⟨_, setFlags?, _, _, _, _, _⟩ := o
          cases setFlags? with
          | none =>
              obtain ⟨hplaced, hkept⟩ :=
                conditionPlacements_foldl_put (i := i.put (.signed on)) hcond hpred h
              rw [List.foldl_cons, operandPlacements, hkept]
              exact congrArg (_ :: ·) hplaced
          | some slot =>
              cases vs with
              | nil =>
                  simp [operandPlacements, put, placeFlag?, hcond, Operands.shape,
                    PartValue.word]
              | cons v vs =>
                  obtain ⟨hv, h⟩ := h
                  obtain ⟨flag, rfl⟩ := PartValue.eq_of_part hv
                  obtain ⟨hplaced, hkept⟩ := conditionPlacements_foldl_put
                    (i := (i.put (.signed on)).put (.setFlags flag)) hcond hpred h
                  rw [List.foldl_cons, List.foldl_cons, operandPlacements, hkept]
                  exact congrArg (_ :: _ :: ·) hplaced

theorem foldl_put_registers {vs : List PartValue} {slots : List (Part × Slot)}
    {i : Instruction} (hslots : ∀ s ∈ slots, ∃ index, s.1 = .register index)
    (h : Fills vs slots) :
    vs.foldl put i = { i with registers := i.registers ++ vs.map PartValue.word } := by
  induction vs generalizing slots i with
  | nil => simp
  | cons v vs ih =>
      cases slots with
      | nil => exact h.elim
      | cons s slots =>
          obtain ⟨hv, h⟩ := h
          obtain ⟨index, hindex⟩ := hslots s (List.mem_cons_self ..)
          obtain ⟨value, rfl⟩ := PartValue.eq_of_part (hv.trans hindex)
          rw [List.foldl_cons, ih (fun s hs => hslots s (List.mem_cons_of_mem _ hs)) h]
          simp [put, PartValue.word]

theorem registerShape_fields (l : Layout) : l.registerShape.map (·.2.field) = l.registers := by
  apply List.ext_getElem?
  intro n
  rw [Layout.registerShape, List.getElem?_map, List.getElem?_mapIdx]
  cases l.registers[n]? <;> rfl

/-- Storing operands leaves the flags, the class, the opcode and the
registers alone. -/
theorem foldl_put_operands {vs : List PartValue} {slots : List (Part × Slot)}
    {i : Instruction} (hslots : ∀ s ∈ slots, s.1.isOperand = true) (h : Fills vs slots) :
    ∃ operand? condition? predicate?, vs.foldl put i =
      { i with operand? := operand?, condition? := condition?, predicate? := predicate? } := by
  induction vs generalizing slots i with
  | nil => exact ⟨i.operand?, i.condition?, i.predicate?, rfl⟩
  | cons v vs ih =>
      cases slots with
      | nil => exact h.elim
      | cons s slots =>
          obtain ⟨hv, h⟩ := h
          have hoperand : v.part.isOperand = true := hv ▸ hslots s (List.mem_cons_self ..)
          obtain ⟨o, c, p, hrest⟩ := ih (i := i.put v)
            (fun s hs => hslots s (List.mem_cons_of_mem _ hs)) h
          refine ⟨o, c, p, ?_⟩
          rw [List.foldl_cons, hrest]
          cases v with
          | setFlags on =>
              rw [put]
              rcases i.operand? with _ | ⟨signed, flags?⟩ | value <;> rfl
          | signed | offset | condition | predicate => rfl
          | _ => cases hoperand

theorem registerPlacements_foldl_put {l : Layout} {tail : Tail} {i : Instruction}
    (hregs : i.registers = []) (hoperand : i.operand? = none) (hcond : i.condition? = none)
    (hpred : i.predicate? = none) {vs : List PartValue} (h : Fills vs (shapeAfterOpcode l tail)) :
    registerPlacements l (vs.foldl put i) = placed (shapeAfterOpcode l tail) vs
      ∧ ∃ registers operand? condition? predicate?, vs.foldl put i =
        { i with registers := registers, operand? := operand?, condition? := condition?,
                 predicate? := predicate? } := by
  obtain ⟨xs, ys, rfl, hxs, hys, hfull⟩ := Fills.append_inv h
  rw [shapeAfterOpcode, placed_append hfull hxs.length_le, placed, registerShape_fields,
    List.foldl_append, foldl_put_registers (fun s hs => mem_registerShape hs) hxs, hregs,
    List.nil_append]
  cases hops : l.operands? with
  | none =>
      rw [hops] at hys
      cases ys with
      | cons _ _ => exact hys.elim
      | nil =>
          refine ⟨?_, _, _, _, _, rfl⟩
          simp [registerPlacements, hops]
  | some o =>
      rw [hops] at hys
      have hplaced := operandPlacements_foldl_put
        (i := { i with registers := xs.map PartValue.word }) hoperand hcond hpred hys
      obtain ⟨o', c, p, hstored⟩ := foldl_put_operands
        (i := { i with registers := xs.map PartValue.word }) (fun s hs => mem_operandShape hs) hys
      refine ⟨?_, _, _, _, _, hstored⟩
      rw [hstored] at hplaced ⊢
      rw [registerPlacements, hops, Option.elim_some, Option.elim_some]
      by_cases hshort : (xs.map PartValue.word).length < l.registers.length
      · have hnone : ys = [] := hfull.resolve_right (by
          simp only [List.length_map, Layout.registerShape, List.length_mapIdx] at hshort ⊢
          omega)
        rw [if_pos hshort, hnone]
        simp
      · rw [if_neg hshort, hplaced, placed]

/-- **Packing places what was read.** The instruction made of the values
of a line reaches the fields of their slots and no others. -/
theorem placements_foldl_put {l : Layout} {tail : Tail} {vs : List PartValue}
    (h : Fills vs (l.shape tail)) (hlen : 2 ≤ vs.length) :
    placements l (vs.foldl put {}) = placed (l.shape tail) vs := by
  obtain ⟨v₀, v₁, vs, rfl⟩ : ∃ v₀ v₁ vs', vs = v₀ :: v₁ :: vs' := by
    match vs, hlen with
    | v₀ :: v₁ :: vs', _ => exact ⟨v₀, v₁, vs', rfl⟩
  obtain ⟨h₀, h₁, h⟩ := h
  obtain ⟨a, rfl⟩ := PartValue.eq_of_part h₀
  obtain ⟨b, rfl⟩ := PartValue.eq_of_part h₁
  cases vs with
  | nil => rfl
  | cons v vs =>
      obtain ⟨hv, h⟩ := h
      obtain ⟨kind, rfl⟩ := PartValue.eq_of_part hv
      cases vs with
      | nil => rfl
      | cons v vs =>
          obtain ⟨hv, h⟩ := h
          obtain ⟨value, rfl⟩ := PartValue.eq_of_part hv
          have hrest : Fills vs (shapeAfterOpcode l tail) := h
          obtain ⟨hplaced, regs, o, c, p, hstored⟩ := registerPlacements_foldl_put
            (i := { immediate := a, writeEnable := b, opClass? := some kind,
                    opcode? := some value }) rfl rfl rfl rfl hrest
          rw [hstored] at hplaced
          exact (congrArg (placements l) hstored).trans
            (congrArg (_ :: _ :: _ :: _ :: ·) hplaced)

/-! ## The word of the values -/

@[simp] theorem join_cons (p : Field × Word) (ps : List (Field × Word)) :
    join (p :: ps) = p.1.place p.2 ||| join ps := rfl

theorem join_append (ps qs : List (Field × Word)) :
    join (ps ++ qs) = join ps ||| join qs := by
  induction ps with
  | nil => exact BitVec.zero_or.symm
  | cons p ps ih => rw [List.cons_append, join_cons, join_cons, ih, BitVec.or_assoc]

/-- What the line gives to the slots, as a word. -/
def word (isa : Isa) (kind : OpClass) (tokens : List String) (slots : List (Part × Slot)) :
    Finding Word :=
  (values isa kind tokens slots).map fun vs => join (placed slots vs)

theorem two_le_length_values {isa : Isa} {kind : OpClass} {a b : String} {rest : List String}
    {tail : Tail} {vs : List PartValue}
    (h : (values isa kind (a :: b :: rest) (isa.layout.shape tail)).result = .ok vs) :
    2 ≤ vs.length := by
  obtain ⟨_, _, rfl, -, h⟩ := values_cons_result rfl h
  obtain ⟨_, _, rfl, -, -⟩ := values_cons_result rfl h
  simp

theorem finding_pack (isa : Isa) (a b : String) (rest : List String) :
    (finding isa (a :: b :: rest)).map (pack isa.layout) =
      word isa (classOf (a :: b :: rest)) (a :: b :: rest) (shapeOf isa (a :: b :: rest)) := by
  rw [finding, word, Finding.map_map]
  refine Finding.map_congr fun vs hvs => ?_
  rw [Function.comp_apply, pack,
    placements_foldl_put (values_fill hvs) (two_le_length_values hvs), shapeOf]

end Instruction

/-- **The word of an instruction line** is the join of what its tokens
give to the slots that it reaches. -/
theorem Line.finding_word {isa : Isa} {head literal : String} {rest : List String}
    (h : Directive.Kind.ofMarker? head = none) :
    (Line.finding isa (head :: literal :: rest)).map (Line.word isa) =
      Instruction.word isa (Instruction.classOf (head :: literal :: rest))
        (head :: literal :: rest) (Instruction.shapeOf isa (head :: literal :: rest)) := by
  rw [Line.finding, h, ← Instruction.finding_pack, Finding.map_map]
  rfl

end LineAsm
