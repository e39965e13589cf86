import LineAsm.Proofs.Acceptance
import LineAsm.Proofs.Decoding
import LineAsm.Proofs.PackedFields

/-!
# The parts that an instruction holds

`Instruction.held?` looks at an instruction part by part, and storing a
value is seen there as what it is meant to be: the part of the value
gets it, and every other part stays as it was (`held?_put`). This is
not so for every instruction. A register goes behind the registers that
are there, whatever its index; a signed flag or an offset takes the
place of an operand; and set-flags need a signed flag to go with. So a
part has to come when it is its turn, which is a matter of the parts
that came before it (`Part.follows`), and in the shapes of all revisions
every part does (`shape_inOrder`).

Along a shape the instruction of a line then holds for each slot what
its own token gave, and nothing for a slot that the line does not reach
(`held?_values`).
-/

namespace LineAsm

namespace Instruction

/-- The value that the instruction holds for a part, whether packing reaches
it or not. -/
def held? (i : Instruction) : Part → Option Word
  | .immediate => some (Word.ofBool i.immediate)
  | .writeEnable => some (Word.ofBool i.writeEnable)
  | .opClass => i.opClass?.map OpClass.code
  | .opcode => i.opcode?
  | .register index => i.registers[index]?
  | .signed =>
    match i.operand? with
    | some (.signed signed _) => some (Word.ofBool signed)
    | _ => none
  | .setFlags =>
    match i.operand? with
    | some (.signed _ setFlags?) => setFlags?.map Word.ofBool
    | _ => none
  | .offset =>
    match i.operand? with
    | some (.offset value) => some value
    | _ => none
  | .condition => i.condition?
  | .predicate => i.predicate?.map Word.ofBool

/-- The instruction holds these parts and no others. -/
def Holds (i : Instruction) (parts : List Part) : Prop :=
  ∀ part, i.held? part ≠ none ↔ part ∈ parts

end Instruction

/-! ## Parts in order -/

/-- May the part be stored when those before it are? -/
def Part.follows (before : List Part) (part : Part) : Bool :=
  !before.contains part && match part with
    | .register index => (List.range index).all fun k => before.contains (.register k)
    | .signed => !before.contains .offset
    | .offset => !before.contains .signed
    | .setFlags => before.contains .signed
    | _ => true

/-- May the parts be stored one after the other? -/
def Part.inOrder (before : List Part) : List Part → Bool
  | [] => true
  | part :: rest => part.follows before && inOrder (before ++ [part]) rest

theorem Part.inOrder_fresh : ∀ {parts before : List Part}, inOrder before parts = true →
    ∀ part ∈ parts, before.contains part = false
  | first :: rest, before, h, part, hpart => by
      rw [inOrder, Bool.and_eq_true] at h
      obtain ⟨hfollows, hrest⟩ := h
      rcases List.mem_cons.mp hpart with rfl | hpart
      · unfold follows at hfollows
        rw [Bool.and_eq_true, Bool.not_eq_true'] at hfollows
        exact hfollows.1
      · have hfresh := inOrder_fresh hrest part hpart
        rw [← Bool.not_eq_true, List.contains_iff_mem] at hfresh ⊢
        exact fun hmem => hfresh (List.mem_append_left _ hmem)

theorem shape_inOrder (revision : Revision) (tail : Tail) :
    Part.inOrder [.immediate, .writeEnable]
      (((revision.isa.layout.shape tail).drop 2).map (·.1)) = true := by
  cases revision <;> cases tail <;> rfl

namespace Instruction

variable {i : Instruction} {before : List Part}

theorem Holds.held?_eq_none (h : i.Holds before) {part : Part}
    (hpart : before.contains part = false) : i.held? part = none := by
  by_contra hheld
  rw [List.contains_iff_mem.mpr ((h part).mp hheld)] at hpart
  cases hpart

theorem Holds.length_registers (h : i.Holds before) {index : Nat}
    (hnext : (Part.register index).follows before = true) : i.registers.length = index := by
  simp only [Part.follows, Bool.and_eq_true, Bool.not_eq_true', List.all_eq_true,
    List.mem_range] at hnext
  obtain ⟨hnot, hbelow⟩ := hnext
  have hle : i.registers.length ≤ index := List.getElem?_eq_none_iff.mp (h.held?_eq_none hnot)
  refine Nat.le_antisymm hle (Nat.le_of_not_lt fun hlt => ?_)
  -- The register at the length of the list would have to be there already.
  have hheld := (h (.register i.registers.length)).mpr
    (List.contains_iff_mem.mp (hbelow _ hlt))
  exact hheld (List.getElem?_eq_none_iff.mpr (Nat.le_refl _))

theorem Holds.operand?_eq_none (h : i.Holds before) (hsigned : before.contains .signed = false)
    (hoffset : before.contains .offset = false) : i.operand? = none := by
  have hnone := h.held?_eq_none hsigned
  have hnone' := h.held?_eq_none hoffset
  rcases hoperand : i.operand? with _ | ⟨on, setFlags?⟩ | value
  · rfl
  · simp [held?, hoperand] at hnone
  · simp [held?, hoperand] at hnone'

theorem Holds.exists_signed (h : i.Holds before) (hsigned : before.contains .signed = true) :
    ∃ on setFlags?, i.operand? = some (.signed on setFlags?) := by
  have hheld := (h .signed).mpr (List.contains_iff_mem.mp hsigned)
  rcases hoperand : i.operand? with _ | ⟨on, setFlags?⟩ | value
  · simp [held?, hoperand] at hheld
  · exact ⟨on, setFlags?, rfl⟩
  · simp [held?, hoperand] at hheld

/-- Storing a value whose turn it is changes its own part and no other. -/
theorem held?_put (h : i.Holds before) {v : PartValue} (hnext : v.part.follows before = true)
    (part : Part) :
    (i.put v).held? part = if part = v.part then some v.word else i.held? part := by
  cases v with
  | immediate | writeEnable | opClass | opcode | condition | predicate =>
      cases part <;> simp [put, held?, PartValue.part, PartValue.word]
  | register index value =>
      have hlength := h.length_registers hnext
      cases part with
      | register k =>
          simp only [put, held?, PartValue.part, PartValue.word, Part.register.injEq]
          split
          · rename_i hk
            rw [hk, ← hlength, List.getElem?_concat_length]
          · rename_i hk
            rcases Nat.lt_or_gt_of_ne (hlength.symm ▸ hk : k ≠ i.registers.length) with hlt | hgt
            · exact List.getElem?_append_left hlt
            · rw [List.getElem?_eq_none (by simp; omega), List.getElem?_eq_none (by omega)]
      | _ => simp [put, held?, PartValue.part]
  | signed on =>
      simp only [PartValue.part, Part.follows, Bool.and_eq_true, Bool.not_eq_true'] at hnext
      have hnone := h.operand?_eq_none hnext.1 hnext.2
      cases part <;> simp [put, held?, PartValue.part, PartValue.word, hnone]
  | offset value =>
      simp only [PartValue.part, Part.follows, Bool.and_eq_true, Bool.not_eq_true'] at hnext
      have hnone := h.operand?_eq_none hnext.2 hnext.1
      cases part <;> simp [put, held?, PartValue.part, PartValue.word, hnone]
  | setFlags on =>
      simp only [PartValue.part, Part.follows, Bool.and_eq_true] at hnext
      obtain ⟨signed, setFlags?, hoperand⟩ := h.exists_signed hnext.2
      cases part <;> simp [put, held?, PartValue.part, PartValue.word, hoperand]

theorem Holds.put (h : i.Holds before) {v : PartValue} (hnext : v.part.follows before = true) :
    (i.put v).Holds (before ++ [v.part]) := by
  intro part
  rw [held?_put h hnext, List.mem_append, List.mem_singleton]
  split
  · rename_i hpart
    simp [hpart]
  · rename_i hpart
    simp [hpart, h part]

/-! ## Along a shape -/

/-- Each slot of an ordered shape finds what its own token gave held in the
end, and nothing if the line does not reach it. All other parts are what
they were before. -/
theorem held?_foldl_put {isa : Isa} {kind : OpClass} {tokens : List String} :
    ∀ {slots : List (Part × Slot)}, slots.Pairwise (fun s t => s.2.Precedes t.2) →
      ∀ {before : List Part} {i : Instruction}, i.Holds before →
      Part.inOrder before (slots.map (·.1)) = true → ∀ {vs : List PartValue},
      (values isa kind tokens slots).result = .ok vs →
        (∀ s ∈ slots,
          (tokens[s.2.token]? = none ∧ (vs.foldl put i).held? s.1 = none)
            ∨ ∃ token v, tokens[s.2.token]? = some token
              ∧ (s.1.value isa kind s.2.field token).result = .ok v
              ∧ (vs.foldl put i).held? s.1 = some v.word)
          ∧ ∀ part, part ∉ slots.map (·.1) → (vs.foldl put i).held? part = i.held? part
  | [], _, before, i, _, _, vs, h => by
      obtain rfl := Except.ok.inj h
      exact ⟨fun s hs => (by cases hs), fun _ _ => rfl⟩
  | (part, slot) :: rest, hord, before, i, hholds, hinOrder, vs, h => by
      obtain ⟨hfirst, hrest⟩ := List.pairwise_cons.mp hord
      cases htoken : tokens[slot.token]? with
      | none =>
          -- The line ends here, and no part of the shape was there before.
          rw [values_cons_none htoken] at h
          obtain rfl := Except.ok.inj h
          refine ⟨fun s hs => Or.inl ⟨?_, ?_⟩, fun _ _ => rfl⟩
          · rcases List.mem_cons.mp hs with rfl | hs
            · exact htoken
            · exact (hfirst s hs).getElem?_eq_none htoken
          · exact hholds.held?_eq_none
              (Part.inOrder_fresh hinOrder s.1 (List.mem_map_of_mem hs))
      | some token =>
          obtain ⟨v, vs, rfl, hv, hvs⟩ := values_cons_result htoken h
          rw [List.map_cons, Part.inOrder, Bool.and_eq_true] at hinOrder
          obtain ⟨hnext, hinOrder⟩ := hinOrder
          obtain rfl : v.part = part := Part.value_part hv
          obtain ⟨hslots, hothers⟩ := held?_foldl_put hrest (hholds.put hnext) hinOrder hvs
          rw [List.foldl_cons]
          refine ⟨List.forall_mem_cons.mpr ⟨Or.inr ⟨token, v, htoken, hv, ?_⟩, hslots⟩, ?_⟩
          · have hfresh : v.part ∉ rest.map (·.1) := by
              intro hmem
              have := Part.inOrder_fresh hinOrder v.part hmem
              simp at this
            rw [hothers v.part hfresh, held?_put hholds hnext, if_pos rfl]
          · intro other hother
            rw [List.map_cons, List.mem_cons, not_or] at hother
            rw [hothers other hother.2, held?_put hholds hnext, if_neg hother.1]

/-! ## The instruction of a line -/

theorem holds_flags (immediate writeEnable : Bool) :
    Holds { immediate := immediate, writeEnable := writeEnable } [.immediate, .writeEnable] := by
  intro part
  cases part <;> simp [held?]

variable {revision : Revision} {tail : Tail} {tokens : List String}

/-- What the values of a line make holds for each slot what its own token
gave, and nothing for the parts that have no slot. -/
theorem held?_values {kind : OpClass} {vs : List PartValue} (hlen : 2 ≤ tokens.length)
    (h : (values revision.isa kind tokens (revision.isa.layout.shape tail)).result = .ok vs) :
    (∀ s ∈ revision.isa.layout.shape tail,
        (tokens[s.2.token]? = none ∧ (vs.foldl put {}).held? s.1 = none)
          ∨ ∃ token v, tokens[s.2.token]? = some token
            ∧ (s.1.value revision.isa kind s.2.field token).result = .ok v
            ∧ (vs.foldl put {}).held? s.1 = some v.word)
      ∧ ∀ part, part ∉ (revision.isa.layout.shape tail).map (·.1) →
        (vs.foldl put {}).held? part = none := by
  match tokens, hlen with
  | a :: b :: rest, _ =>
      -- Any instruction holds the first two flags, so the walk starts after them.
      have hord := shape_ordered revision tail
      have hinOrder := shape_inOrder revision tail
      rw [shape_eq, List.drop_succ_cons, List.drop_succ_cons, List.drop_zero] at hinOrder
      rw [shape_eq] at h hord ⊢
      obtain ⟨_, _, rfl, hfirst, hafter⟩ := values_cons_result rfl h
      obtain ⟨_, vs, rfl, hsecond, hvs⟩ := values_cons_result rfl hafter
      obtain rfl := Except.ok.inj hfirst
      obtain rfl := Except.ok.inj hsecond
      obtain ⟨-, hord⟩ := List.pairwise_cons.mp hord
      obtain ⟨-, hord⟩ := List.pairwise_cons.mp hord
      obtain ⟨hslots, hothers⟩ :=
        held?_foldl_put hord (holds_flags (a == "i") (b == "1")) hinOrder hvs
      have hfresh := Part.inOrder_fresh hinOrder
      refine ⟨List.forall_mem_cons.mpr ⟨Or.inr ⟨a, _, rfl, rfl, ?_⟩,
        List.forall_mem_cons.mpr ⟨Or.inr ⟨b, _, rfl, rfl, ?_⟩, hslots⟩⟩, ?_⟩
      · exact hothers .immediate fun hmem => absurd (hfresh _ hmem) (by decide)
      · exact hothers .writeEnable fun hmem => absurd (hfresh _ hmem) (by decide)
      · intro part hpart
        rw [List.map_cons, List.map_cons, List.mem_cons, List.mem_cons, not_or, not_or] at hpart
        obtain ⟨himmediate, hwriteEnable, hrest⟩ := hpart
        refine (hothers part hrest).trans ?_
        by_contra hheld
        have hmem := (holds_flags (a == "i") (b == "1") part).mp hheld
        simp [himmediate, hwriteEnable] at hmem

theorem placements_values {kind : OpClass} {vs : List PartValue} (hlen : 2 ≤ tokens.length)
    (h : (values revision.isa kind tokens (revision.isa.layout.shape tail)).result = .ok vs) :
    placements revision.isa.layout (vs.foldl put {})
      = placed (revision.isa.layout.shape tail) vs := by
  match tokens, hlen with
  | _ :: _ :: _, _ => exact placements_foldl_put (values_fill h) (two_le_length_values h)

end Instruction

end LineAsm
