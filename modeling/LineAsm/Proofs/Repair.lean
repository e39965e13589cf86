import LineAsm.Proofs.Acceptance
import LineAsm.Proofs.Spelling

/-!
# Repairing a line

Where lenient encoding falls back on a value, the line could have said
that value itself: a register the number without its upper bits, an
offset zero, a condition nothing. `Revision.repair` writes these tokens
in. The repaired line has the same word and none of the warnings that
are about numbers and conditions (`Encoder.encodeTokens_repair`). What is
wrong with names is left as it is: an unknown class or mnemonic has no
token that says what the line falls back on without changing how the
rest of it is read.

A slot reads the repaired token as it reads the token, and keeps only the
warnings about names (`Part.value_repair`). This holds for a token that
cannot be read as well, which is not repaired, so the walk over the slots
never has to ask if the line is accepted (`Instruction.values_repair`).
-/

namespace LineAsm

/-! ## Repaired tokens -/

/-- The register without the bits that do not fit. -/
def repairRegister (token : String) : String :=
  match Instruction.readRegister token with
  | .ok value => "r" ++ (value.toNat % 16).repr
  | .error _ => token

/-- Zero for an offset that does not fit. -/
def repairOffset (token : String) : String :=
  match Instruction.readOffset token with
  | .ok value => if 255 < value.toNat then "0" else token
  | .error _ => token

/-- Nothing for a condition that is not in the table. -/
def Isa.repairCondition (isa : Isa) (token : String) : String :=
  if token ∈ isa.conditions.map (·.1) then token else ""

namespace Revision

/-- What becomes of token `i` in a line with the tail. -/
def repairAt (revision : Revision) (tail : Tail) (i : Nat) : String → String :=
  if 4 ≤ i ∧ i ≤ 6 then repairRegister
  else if i = 7 ∧ tail = .offset then repairOffset
  else if (revision.conditionSlot? tail).map Slot.token = some i then revision.isa.repairCondition
  else id

/-- The line that says itself what lenient encoding falls back on. -/
def repair (revision : Revision) (tokens : List String) : List String :=
  tokens.mapIdx (revision.repairAt (revision.tail tokens))

end Revision

/-- Is the warning about a name that is not known? -/
def Warning.isName : Warning → Bool
  | .unknownClass _ | .unknownMnemonic _ _ => true
  | _ => false

/-! ## Repairing twice -/

theorem repairRegister_of_ok {token : String} {w : Word}
    (h : Instruction.readRegister token = .ok w) :
    repairRegister token = "r" ++ (w.toNat % 16).repr := by
  rw [repairRegister, h]

theorem repairRegister_of_error {token : String} {reason : Reason}
    (h : Instruction.readRegister token = .error reason) : repairRegister token = token := by
  rw [repairRegister, h]

theorem toNat_and_fifteen (w : Word) : (w &&& 15).toNat = w.toNat % 16 := by
  rw [BitVec.toNat_and]
  exact Nat.and_two_pow_sub_one_eq_mod w.toNat 4

theorem readRegister_repaired {token : String} {w : Word}
    (h : Instruction.readRegister token = .ok w) :
    Instruction.readRegister (repairRegister token) = .ok (w &&& 15) := by
  rw [repairRegister_of_ok h, Instruction.readRegister_eq_ok_iff, toNat_and_fifteen]
  exact Part.registerToken_spell (by omega)

theorem repairRegister_idem (token : String) :
    repairRegister (repairRegister token) = repairRegister token := by
  cases h : Instruction.readRegister token with
  | error reason => rw [repairRegister_of_error h, repairRegister_of_error h]
  | ok w =>
      rw [repairRegister_of_ok (readRegister_repaired h), repairRegister_of_ok h,
        toNat_and_fifteen, Nat.mod_mod]

theorem repairOffset_idem (token : String) :
    repairOffset (repairOffset token) = repairOffset token := by
  have hcases : repairOffset token = token ∨ repairOffset token = "0" := by
    unfold repairOffset
    split
    · split
      · exact Or.inr rfl
      · exact Or.inl rfl
    · exact Or.inl rfl
  rcases hcases with h | h
  · rw [h, h]
  · rw [h]
    rfl

theorem Isa.repairCondition_idem (isa : Isa) (token : String) :
    isa.repairCondition (isa.repairCondition token) = isa.repairCondition token := by
  unfold Isa.repairCondition
  split
  · rfl
  · exact ite_self ""

namespace Revision

theorem repairAt_idem (revision : Revision) (tail : Tail) (i : Nat) (token : String) :
    revision.repairAt tail i (revision.repairAt tail i token)
      = revision.repairAt tail i token := by
  unfold repairAt
  split
  · exact repairRegister_idem token
  split
  · exact repairOffset_idem token
  split
  · exact Isa.repairCondition_idem _ token
  · rfl

/-- The tokens up to the mnemonic are never touched. -/
theorem repairAt_of_lt (revision : Revision) (tail : Tail) {i : Nat} (hi : i < 4) :
    revision.repairAt tail i = id := by
  have hcondition : (revision.conditionSlot? tail).map Slot.token ≠ some i := by
    cases revision <;> cases tail <;> simp [conditionSlot?] <;> omega
  rw [repairAt, if_neg (by omega), if_neg (by omega), if_neg hcondition]

theorem getElem?_repair (revision : Revision) (tokens : List String) (i : Nat) :
    (revision.repair tokens)[i]?
      = tokens[i]?.map (revision.repairAt (revision.tail tokens) i) := by
  rw [repair, List.getElem?_mapIdx]

theorem getElem?_repair_of_lt (revision : Revision) (tokens : List String) {i : Nat}
    (hi : i < 4) : (revision.repair tokens)[i]? = tokens[i]? := by
  rw [getElem?_repair, repairAt_of_lt _ _ hi, Option.map_id, id]

/-- So the repaired line has the tail of the line. -/
theorem tail_repair (revision : Revision) (tokens : List String) :
    revision.tail (revision.repair tokens) = revision.tail tokens := by
  rw [tail, isSignedLine, getElem?_repair_of_lt _ _ (by omega), tail, isSignedLine]

theorem repair_repair (revision : Revision) (tokens : List String) :
    revision.repair (revision.repair tokens) = revision.repair tokens := by
  refine List.ext_getElem? fun i => ?_
  rw [getElem?_repair, tail_repair, getElem?_repair, Option.map_map]
  congr 1
  funext token
  exact repairAt_idem revision _ i token

end Revision

/-! ## Reading a repaired token -/

/-- The warnings about names alone. -/
def Finding.keepNames {α : Type} (o : Finding α) : Finding α :=
  ⟨o.result, o.warnings.filter Warning.isName⟩

theorem Finding.keepNames_bind {α β : Type} (o : Finding α) (next : α → Finding β) :
    (o.bind next).keepNames = o.keepNames.bind fun a => (next a).keepNames := by
  obtain ⟨result, ws⟩ := o
  cases result with
  | error m => rfl
  | ok a => simp [keepNames]

theorem Finding.keepNames_map {α β : Type} (f : α → β) (o : Finding α) :
    (o.map f).keepNames = o.keepNames.map f := rfl

/-- A fallback that is not about a name is kept without its warning. -/
theorem Finding.keepNames_orWarn_map {α β : Type} {found? : Option α} {warning : Warning}
    {fallback : α} {f : α → β} (h : warning.isName = false) :
    ((Finding.orWarn found? warning fallback).map f).keepNames
      = .pure (f (found?.getD fallback)) := by
  cases found? with
  | some found => rfl
  | none => simp [Finding.orWarn, Finding.map, Finding.keepNames, Finding.pure, Except.map, h]

namespace Part

/-- What the repair of a line does to the token of a slot. -/
def repair (isa : Isa) : Part → String → String
  | .register _ => repairRegister
  | .offset => repairOffset
  | .condition => isa.repairCondition
  | _ => id

/-- The greatest number of the part, if it is a number. -/
def limit? : Part → Option Word
  | .register _ => some 15
  | .offset => some 255
  | _ => none

theorem limit?_of_isFlag {part : Part} (h : part.isFlag = true) : part.limit? = none := by
  cases part with
  | immediate | writeEnable | signed | setFlags | predicate => rfl
  | _ => cases h

variable {isa : Isa} {kind : OpClass} {field : Field}

theorem value_repairRegister (hmax : field.max = 15) (index : Nat) (token : String) :
    (Part.register index).value isa kind field (repairRegister token)
      = ((Part.register index).value isa kind field token).keepNames := by
  rw [Part.value, Part.value]
  cases hread : Instruction.readRegister token with
  | error reason =>
      rw [repairRegister_of_error hread, hread]
      rfl
  | ok w =>
      have hfits : field.fits (w &&& 15) = true := by
        rw [Field.fits_iff_le, hmax, BitVec.toNat_and]
        exact Nat.and_le_right
      have hsame : w &&& 15 &&& field.max = w &&& field.max := by
        rw [hmax, BitVec.and_assoc, BitVec.and_self]
      rw [readRegister_repaired hread]
      simp only [Finding.expect, Except.mapError, Finding.bind_mk_ok, hfits, hsame, if_true,
        Finding.keepNames, List.nil_append]
      split <;> rfl

theorem value_offset_of_fits {token : String} {w : Word}
    (hread : Instruction.readOffset token = .ok w) (hfits : field.fits w = true) :
    Part.offset.value isa kind field token = .pure (.offset w) := by
  rw [Part.value, hread]
  simp only [Finding.expect, Except.mapError, Finding.bind_mk_ok, hfits, if_true]
  rfl

theorem value_repairOffset (hmax : field.max = 255) (token : String) :
    Part.offset.value isa kind field (repairOffset token)
      = (Part.offset.value isa kind field token).keepNames := by
  have hfits : ∀ w, field.fits w = true ↔ ¬ 255 < w.toNat := by
    intro w
    rw [Field.fits_iff_le, hmax, Nat.not_lt]
    rfl
  unfold repairOffset
  split
  · rename_i w hread
    split
    · rename_i hlarge
      have hzero : Instruction.readOffset "0" = .ok 0 := rfl
      have hbig : field.fits w = false := by
        rw [← Bool.not_eq_true, hfits, not_not]
        exact hlarge
      rw [value_offset_of_fits hzero ((hfits 0).mpr (Nat.not_lt_zero _)), Part.value, hread]
      simp only [Finding.expect, Except.mapError, Finding.bind_mk_ok, hbig]
      rfl
    · rename_i hsmall
      rw [value_offset_of_fits hread ((hfits w).mpr hsmall)]
      rfl
  · rename_i reason hread
    rw [Part.value, hread]
    rfl

theorem value_repairCondition (token : String) :
    Part.condition.value isa kind field (isa.repairCondition token)
      = (Part.condition.value isa kind field token).keepNames := by
  rw [Part.value, Part.value, Finding.keepNames_orWarn_map rfl, Isa.repairCondition]
  by_cases hmem : token ∈ isa.conditions.map (·.1)
  · obtain ⟨value, hvalue⟩ := lookup_eq_some_exists_iff.mpr hmem
    rw [if_pos hmem, Isa.condition?, hvalue]
    split <;> rfl
  · have hunknown : isa.condition? token = none := by
      rw [Isa.condition?, Option.eq_none_iff_forall_ne_some]
      exact fun value hvalue => hmem (lookup_eq_some_exists_iff.mp ⟨value, hvalue⟩)
    have hzero : (if token == "" then some 0 else isa.condition? token).getD 0 = 0 := by
      rw [hunknown]
      split <;> rfl
    rw [if_neg hmem, hzero]
    rfl

/-- A slot reads the repaired token as it reads the token, and keeps only
the warnings about names. -/
theorem value_repair {part : Part} (hlimit : ∀ limit ∈ part.limit?, field.max = limit)
    (token : String) :
    part.value isa kind field (part.repair isa token)
      = (part.value isa kind field token).keepNames := by
  cases part with
  | register index => exact value_repairRegister (hlimit 15 rfl) index token
  | offset => exact value_repairOffset (hlimit 255 rfl) token
  | condition => exact value_repairCondition token
  | opClass =>
      show Part.opClass.value isa kind field token = _
      rw [Part.value]
      cases OpClass.ofMarker? token <;> rfl
  | opcode =>
      show Part.opcode.value isa kind field token = _
      rw [Part.value]
      cases isa.opcode? kind token <;> rfl
  | immediate | writeEnable | signed | setFlags | predicate => rfl

end Part

/-! ## Reading a repaired line -/

theorem limit_of_mem_shape (revision : Revision) (tail : Tail) :
    ∀ s ∈ revision.isa.layout.shape tail, ∀ limit ∈ s.1.limit?, s.2.field.max = limit := by
  refine (forall_mem_shape fun s hflag => ?_).mpr
    ⟨?_, ?_, fun _ => ⟨?_, ?_, ?_, fun _ => ?_⟩, fun slot _ => ?_⟩
  case refine_1 =>
    rw [Part.limit?_of_isFlag hflag]
    intro limit h
    cases h
  case refine_2 | refine_3 | refine_8 =>
    intro limit h
    cases h
  case refine_4 | refine_5 | refine_6 | refine_7 =>
    intro limit h
    obtain rfl := Option.some.inj h
    rfl

/-- The repair of a line is the repair of its slots. -/
theorem repairAt_of_mem_shape (revision : Revision) (tail : Tail) :
    ∀ s ∈ revision.isa.layout.shape tail,
      revision.repairAt tail s.2.token = s.1.repair revision.isa := by
  cases revision <;> cases tail <;> refine List.forall_iff_forall_mem.mp ?_ <;> and_intros <;> rfl

theorem Instruction.values_repair {isa : Isa} {kind : OpClass} {tokens repaired : List String} :
    ∀ {slots : List (Part × Slot)},
      (∀ s ∈ slots, (∀ limit ∈ s.1.limit?, s.2.field.max = limit)
        ∧ repaired[s.2.token]? = tokens[s.2.token]?.map (s.1.repair isa)) →
      values isa kind repaired slots = (values isa kind tokens slots).keepNames
  | [], _ => rfl
  | (part, slot) :: rest, h => by
      obtain ⟨⟨hlimit, hrepaired⟩, hrest⟩ := List.forall_mem_cons.mp h
      cases htoken : tokens[slot.token]? with
      | none =>
          rw [htoken] at hrepaired
          rw [values_cons_none htoken, values_cons_none hrepaired]
          rfl
      | some token =>
          rw [htoken] at hrepaired
          rw [values_cons_some htoken, values_cons_some hrepaired, Finding.keepNames_bind,
            Part.value_repair hlimit, values_repair hrest]
          rfl

namespace Encoder

variable {revision : Revision} {tokens : List String}

theorem isDirective_repair (revision : Revision) (tokens : List String) :
    Line.isDirective (revision.repair tokens) = Line.isDirective tokens := by
  match tokens with
  | [] => rfl
  | [_] => rfl
  | head :: literal :: rest =>
      rw [Revision.repair, List.mapIdx_cons, List.mapIdx_cons,
        Revision.repairAt_of_lt _ _ (by omega)]
      rfl

/-- The word of a repaired line, with what is left of the warnings. -/
theorem word_repair (revision : Revision) (kind : OpClass) (tokens : List String) :
    Instruction.word revision.isa kind (revision.repair tokens)
        (revision.isa.layout.shape (revision.tail tokens))
      = (Instruction.word revision.isa kind tokens
        (revision.isa.layout.shape (revision.tail tokens))).keepNames := by
  rw [Instruction.word, Instruction.word, Finding.keepNames_map, Instruction.values_repair]
  intro s hs
  refine ⟨limit_of_mem_shape revision _ s hs, ?_⟩
  rw [Revision.getElem?_repair, repairAt_of_mem_shape revision _ s hs]

/-- **What lenient encoding falls back on.** A line can be repaired token by
token: a register gives the rest of its number modulo sixteen, an offset
that is too large becomes zero, and a condition that is not in the table
is left out. The repaired line has the same word, and of the warnings
those about the class and the mnemonic. There is nothing more to repair
in it. -/
theorem encodeTokens_repair {word : Word} {ws : List Warning}
    (hline : Line.isDirective tokens = false)
    (h : (Encoder.mk revision .lenient).encodeTokens tokens = .ok ⟨word, ws⟩) :
    (Encoder.mk revision .lenient).encodeTokens (revision.repair tokens)
        = .ok ⟨word, ws.filter Warning.isName⟩
      ∧ revision.repair (revision.repair tokens) = revision.repair tokens := by
  refine ⟨?_, Revision.repair_repair revision tokens⟩
  have hlength : (revision.repair tokens).length = tokens.length := List.length_mapIdx
  rcases Nat.lt_or_ge tokens.length 2 with hblank | hlen
  · rw [encodeTokens_blank (by omega)] at h
    obtain ⟨rfl, rfl⟩ := Encoded.mk.inj (Except.ok.inj h)
    exact encodeTokens_blank (by omega)
  · have hclass : Instruction.classOf (revision.repair tokens) = Instruction.classOf tokens := by
      rw [Instruction.classOf, Revision.getElem?_repair_of_lt _ _ (by decide), Instruction.classOf]
    rw [encodeTokens_instruction hlen hline, shapeOf_eq, Finding.encoded_eq_ok] at h
    rw [encodeTokens_instruction (hlength ▸ hlen) ((isDirective_repair ..).trans hline), shapeOf_eq,
      Revision.tail_repair, hclass, word_repair, h.1]
    rfl

/-- All fallbacks on one line. -/
theorem encodeTokens_repair_all_faults :
    Revision.v2.repair ["n", "1", "x", "foo", "r17", "q300", "r3", "256", "zz", "p"]
        = ["n", "1", "x", "foo", "r1", "r12", "r3", "0", "", "p"]
      ∧ (Encoder.mk .v2 .lenient).encodeTokens
          (Revision.v2.repair ["n", "1", "x", "foo", "r17", "q300", "r3", "256", "zz", "p"])
        = .ok ⟨0x401C3001, [.unknownClass "x", .unknownMnemonic .alu "foo"]⟩ := by
  have h : (Encoder.mk .v2 .lenient).encodeTokens
      ["n", "1", "x", "foo", "r17", "q300", "r3", "256", "zz", "p"]
        = .ok ⟨0x401C3001, [.unknownClass "x", .unknownMnemonic .alu "foo",
          .registerOutOfRange 0 17 15, .registerOutOfRange 1 300 15, .offsetOutOfRange 256,
          .unknownCondition "zz"]⟩ := by decide +kernel
  exact ⟨by decide, (encodeTokens_repair rfl h).1⟩

end Encoder

end LineAsm
