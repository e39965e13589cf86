import LineAsm.Proofs.Numeral
import LineAsm.Proofs.Shapes

/-!
# Slots that are read without a fault

`Part.Reads` says for each part which tokens it takes without a warning
and which value they stand for, and says so by tables and numerals
only. It is what `Part.value` comes to when it notes nothing
(`value_eq_clean_iff`).

For a whole line the slots do not interfere: it is read without a
fault exactly if each of its tokens is, in the slot that looks at it
(`values_clean_iff`). The order of the slots is needed here, since
reading stops at the first slot without a token: in an ordered shape the
slots behind it have no token either.
-/

namespace LineAsm

/-! ## Building blocks -/

theorem Finding.orWarn_eq_clean_iff {α : Type} {found? : Option α} {warning : Warning}
    {fallback a : α} :
    Finding.orWarn found? warning fallback = ⟨.ok a, []⟩ ↔ found? = some a := by
  cases found? <;> simp [Finding.orWarn, Finding.pure]

/-- Falling back on a value never fails. -/
theorem Finding.exists_orWarn_map_result {α β : Type} (found? : Option α) (warning : Warning)
    (fallback : α) (f : α → β) :
    ∃ b, ((Finding.orWarn found? warning fallback).map f).result = .ok b := by
  cases found? <;> exact ⟨_, rfl⟩

theorem Finding.expect_eq_ok_iff {α : Type} {subject : Subject} {token : String}
    {value : Except Reason α} {a : α} :
    Finding.expect subject token value = ⟨.ok a, []⟩ ↔ value = .ok a := by
  cases value <;> simp [Finding.expect, Except.mapError]

/-! ## One slot -/

namespace Part

/-- The token stands for the value in the slot, without a warning. -/
def Reads (isa : Isa) (kind : OpClass) (field : Field) (token : String) (v : PartValue) :
    Part → Prop
  | .immediate => v = .immediate (token == "i")
  | .writeEnable => v = .writeEnable (token == "1")
  | .opClass => ∃ found, OpClass.ofMarker? token = some found ∧ v = .opClass found
  | .opcode => ∃ value, isa.opcode? kind token = some value ∧ v = .opcode value
  | .register index =>
    ∃ value, Instruction.RegisterToken token value.toNat ∧ field.fits value = true
      ∧ v = .register index value
  | .signed => v = .signed (token == "s")
  | .setFlags => v = .setFlags (token == "sf")
  | .offset =>
    ∃ value, Instruction.OffsetToken token value.toNat ∧ field.fits value = true
      ∧ v = .offset value
  | .condition =>
    ∃ value, (if token = "" then some 0 else isa.condition? token) = some value
      ∧ v = .condition value
  | .predicate => v = .predicate (token == "p")

theorem value_eq_clean_iff {isa : Isa} {kind : OpClass} {field : Field} {token : String}
    {part : Part} {v : PartValue} :
    part.value isa kind field token = ⟨.ok v, []⟩ ↔ part.Reads isa kind field token v := by
  cases part with
  | opClass | opcode | condition =>
      simp only [Part.value, Part.Reads, Finding.map_eq_ok, Finding.orWarn_eq_clean_iff,
        beq_iff_eq, eq_comm (b := v)]
  | register index =>
      simp only [Part.value, Part.Reads, Finding.bind_eq_clean, Finding.expect_eq_ok_iff,
        Instruction.readRegister_eq_ok_iff]
      refine exists_congr fun value => and_congr_right fun _ => ?_
      cases hfits : field.fits value with
      | false => simp
      | true => simp [Field.and_max_of_fits hfits, eq_comm]
  | offset =>
      simp only [Part.value, Part.Reads, Finding.bind_eq_clean, Finding.expect_eq_ok_iff,
        Instruction.readOffset_eq_ok_iff, Finding.map_eq_ok, Finding.orWarn_eq_clean_iff]
      refine exists_congr fun value => and_congr_right fun _ => ?_
      cases hfits : field.fits value with
      | false => simp
      | true => simp [eq_comm]
  | immediate | writeEnable | signed | setFlags | predicate =>
      simp [Part.value, Part.Reads, Finding.pure, eq_comm]

end Part

/-! ## All slots of a line -/

namespace Instruction

theorem values_clean_iff {isa : Isa} {kind : OpClass} {tokens : List String} :
    ∀ {slots : List (Part × Slot)}, slots.Pairwise (fun s t => s.2.Precedes t.2) →
      ((∃ vs, values isa kind tokens slots = ⟨.ok vs, []⟩) ↔
        ∀ s ∈ slots, ∀ token, tokens[s.2.token]? = some token →
          ∃ v, s.1.Reads isa kind s.2.field token v)
  | [], _ => by
      constructor
      · intro _ s hs
        cases hs
      · exact fun _ => ⟨[], rfl⟩
  | (part, slot) :: rest, h => by
      obtain ⟨hfirst, hord⟩ := List.pairwise_cons.mp h
      rw [List.forall_mem_cons]
      cases htoken : tokens[slot.token]? with
      | none =>
          constructor
          · intro _
            refine ⟨fun token h => (by cases h), fun s hs token hs' => ?_⟩
            rw [(hfirst s hs).getElem?_eq_none htoken] at hs'
            cases hs'
          · exact fun _ => ⟨[], values_cons_none htoken⟩
      | some token =>
          simp only [values_cons_some htoken, Finding.bind_eq_clean, Finding.map_eq_ok,
            Part.value_eq_clean_iff, Option.some.injEq, forall_eq']
          rw [← values_clean_iff hord]
          constructor
          · rintro ⟨_, v, hv, vs, hvs, rfl⟩
            exact ⟨⟨v, hv⟩, vs, hvs⟩
          · rintro ⟨⟨v, hv⟩, vs, hvs⟩
            exact ⟨v :: vs, v, hv, vs, hvs, rfl⟩

end Instruction

end LineAsm
