import LineAsm.Proofs.Truncation

/-!
# The stripped revision

The stripped revision has the tables of the refined one and a layout
that ends with the opcode. So reading a stripped line is reading the
first four tokens of a refined one: the slots are those that four
tokens reach (`stripped_shape`), and each of them takes the same value
from its token (`value_congr_isa`). Which tail the refined line has does
not matter, since both begin behind the opcode.

Together with what cutting does to a word, this makes the stripped word
the upper byte of the refined one (`Encoder.encodeTokens_stripped`).
-/

namespace LineAsm

namespace Instruction

/-! ## One slot under two instruction sets -/

/-- Of an instruction set, a token asks only for the opcodes, and for the
conditions if it is one. -/
theorem value_congr_isa {isa₁ isa₂ : Isa} {kind : OpClass} {field : Field} {token : String}
    {part : Part} (hopcodes : isa₁.opcodes = isa₂.opcodes)
    (hconditions : part = .condition → isa₁.conditions = isa₂.conditions) :
    part.value isa₁ kind field token = part.value isa₂ kind field token := by
  cases part with
  | opcode => rw [Part.value, Part.value, Isa.opcode?, Isa.opcode?, hopcodes]
  | condition => rw [Part.value, Part.value, Isa.condition?, Isa.condition?, hconditions rfl]
  | _ => rfl

theorem values_congr_isa {isa₁ isa₂ : Isa} {kind : OpClass} {tokens : List String}
    (hopcodes : isa₁.opcodes = isa₂.opcodes) :
    ∀ {slots : List (Part × Slot)}, (∀ s ∈ slots, s.1 ≠ .condition) →
      values isa₁ kind tokens slots = values isa₂ kind tokens slots
  | [], _ => rfl
  | (part, slot) :: rest, h => by
      have hpart : part ≠ .condition := h _ (List.mem_cons_self ..)
      cases htoken : tokens[slot.token]? with
      | none => rw [values_cons_none htoken, values_cons_none htoken]
      | some token =>
          rw [values_cons_some htoken, values_cons_some htoken,
            value_congr_isa hopcodes fun hcondition => absurd hcondition hpart,
            values_congr_isa hopcodes fun s hs => h s (List.mem_cons_of_mem _ hs)]

/-! ## The slots before the registers -/

theorem stripped_shape (tail tail' : Tail) :
    strippedIsa.layout.shape tail = slotsBelow 4 (refinedIsa.layout.shape tail') := by
  cases tail <;> cases tail' <;> decide

theorem ne_condition_of_mem_stripped_shape (tail : Tail) :
    ∀ s ∈ strippedIsa.layout.shape tail, s.1 ≠ .condition := by
  cases tail <;> decide

theorem cover_header_slots (tail : Tail) :
    Field.cover ((slotsBelow 4 (refinedIsa.layout.shape tail)).map (·.2.field))
      = 0xFF000000 := by
  cases tail <;> decide

theorem word_stripped (tokens : List String) :
    word strippedIsa (classOf tokens) tokens (shapeOf strippedIsa tokens)
      = word refinedIsa (classOf tokens) tokens (slotsBelow 4 (shapeOf refinedIsa tokens)) := by
  have hshape : shapeOf strippedIsa tokens = slotsBelow 4 (shapeOf refinedIsa tokens) :=
    stripped_shape _ _
  have hvalues : values strippedIsa (classOf tokens) tokens (shapeOf strippedIsa tokens)
      = values refinedIsa (classOf tokens) tokens (shapeOf strippedIsa tokens) :=
    values_congr_isa rfl (ne_condition_of_mem_stripped_shape _)
  rw [word, hvalues, hshape, word]

theorem word_take_four (tokens : List String) :
    word refinedIsa (classOf (tokens.take 4)) (tokens.take 4)
        (shapeOf refinedIsa (tokens.take 4))
      = word refinedIsa (classOf tokens) tokens (slotsBelow 4 (shapeOf refinedIsa tokens)) := by
  have hclass : (tokens.take 4)[classToken]? = tokens[classToken]? :=
    List.getElem?_take_of_lt (by decide)
  rw [word_take, classOf, classOf, shapeOf, shapeOf, hclass]

end Instruction

/-! ## Whole lines -/

/-- Cutting after the opcode, before the mode comes in. -/
theorem Line.finding_stripped (tokens : List String) :
    (Line.finding strippedIsa tokens).map (Line.word strippedIsa)
      = (Line.finding refinedIsa (tokens.take 4)).map (Line.word refinedIsa) := by
  match tokens with
  | [] => rfl
  | [_] => rfl
  | head :: literal :: rest =>
      cases hmarker : Directive.Kind.ofMarker? head with
      | some kind =>
          rw [List.take_succ_cons, List.take_succ_cons, Line.finding, Line.finding, hmarker,
            Finding.map_map, Finding.map_map]
          rfl
      | none =>
          have htake := Instruction.word_take_four (head :: literal :: rest)
          rw [List.take_succ_cons, List.take_succ_cons] at htake ⊢
          rw [Line.finding_word hmarker, Line.finding_word hmarker, htake,
            Instruction.word_stripped]

/-- The stripped word is the upper byte of the refined one. -/
theorem Line.finding_upperByte {tokens : List String} (hline : Line.isDirective tokens = false)
    {w : Word} {ws : List Warning}
    (h : (Line.finding refinedIsa tokens).map (Line.word refinedIsa) = ⟨.ok w, ws⟩) :
    ∃ fewer, fewer <+: ws ∧
      (Line.finding strippedIsa tokens).map (Line.word strippedIsa)
        = ⟨.ok (w &&& 0xFF000000), fewer⟩ := by
  match tokens with
  | [] | [_] =>
      obtain ⟨hw, rfl⟩ := Finding.mk.injEq .. |>.mp h
      obtain rfl := Except.ok.inj hw
      exact ⟨[], List.nil_prefix, rfl⟩
  | head :: literal :: rest =>
      have hmarker : Directive.Kind.ofMarker? head = none := ofMarker?_eq_none_iff.mpr hline
      have hshape := shapeOf_eq .v2 (head :: literal :: rest)
      rw [Line.finding_word hmarker] at h ⊢
      rw [Instruction.word_stripped, ← Instruction.cover_header_slots
        (Revision.tail .v2 (head :: literal :: rest))]
      rw [Revision.isa] at hshape
      rw [hshape] at h ⊢
      exact Instruction.word_slotsBelow .v2 h 4

/-- **The stripped revision is the refined one, cut after the opcode**, in
either mode and for every line: a blank one, a directive or an
instruction. So where a refined instruction encodes, the stripped one
does, to the upper byte of its word. -/
theorem Encoder.encodeTokens_stripped (mode : Mode) (tokens : List String) :
    (Encoder.mk .v3 mode).encodeTokens tokens
        = (Encoder.mk .v2 mode).encodeTokens (tokens.take 4)
    ∧ (Line.isDirective tokens = false → ∀ word warnings,
      (Encoder.mk .v2 mode).encodeTokens tokens = .ok ⟨word, warnings⟩ →
        ∃ fewer, fewer <+: warnings ∧
          (Encoder.mk .v3 mode).encodeTokens tokens = .ok ⟨word &&& 0xFF000000, fewer⟩) := by
  have hcut : (Encoder.mk .v3 mode).encodeTokens tokens
      = (Encoder.mk .v2 mode).encodeTokens (tokens.take 4) := by
    rw [encodeTokens_eq, encodeTokens_eq]
    exact congrArg (Finding.encoded · mode) (Line.finding_stripped tokens)
  refine ⟨hcut, fun hline word warnings h => ?_⟩
  obtain ⟨hword, hclean⟩ := Finding.encoded_eq_ok.mp ((encodeTokens_eq ..).symm.trans h)
  obtain ⟨fewer, hfewer, hupper⟩ := Line.finding_upperByte hline hword
  refine ⟨fewer, hfewer, ?_⟩
  rw [encodeTokens_eq, Finding.encoded_eq_ok]
  exact ⟨hupper, fun hmode => List.prefix_nil.mp (hclean hmode ▸ hfewer)⟩

/-- A store whose offset is too large: the warning goes with the token, and
the operands with their bits. -/
theorem Encoder.encodeTokens_stripped_store :
    Line.isDirective ["i", "1", "m", "sw", "r1", "r2", "r3", "300", "eq", "p"] = false
    ∧ (Encoder.mk .v2 .lenient).encodeTokens
        ["i", "1", "m", "sw", "r1", "r2", "r3", "300", "eq", "p"]
      = .ok ⟨0xE2123005#32, [.offsetOutOfRange 300]⟩
    ∧ ∃ fewer, fewer <+: [.offsetOutOfRange 300] ∧
      (Encoder.mk .v3 .lenient).encodeTokens
          ["i", "1", "m", "sw", "r1", "r2", "r3", "300", "eq", "p"]
        = .ok ⟨0xE2123005#32 &&& 0xFF000000, fewer⟩ :=
  ⟨rfl, rfl, (Encoder.encodeTokens_stripped .lenient
    ["i", "1", "m", "sw", "r1", "r2", "r3", "300", "eq", "p"]).2 rfl _ _ rfl⟩

end LineAsm
