import LineAsm.Proofs.SlotReading

/-!
# The lines that are accepted

Lenient encoding of an instruction fails at a token that has to hold a
numeral and does not, and at nothing else: a register operand, or the
offset of a line that has one. Strict encoding asks for more, namely
that names stand in the tables and numbers fit their fields.

Both conditions are first put slot by slot. `Part.Readable` and
`Part.InBounds` are what a slot asks of its token, and a walk over an
ordered shape fails at the first slot whose token is not readable
(`values_result`) and warns at none if all tokens are in bounds
(`exists_reads_iff`). What the slots of a shape are is said once
(`forall_mem_shape`); with it, both conditions become statements about
token positions.
-/

namespace LineAsm

/-! ## One slot -/

namespace Part

/-- Holds the part a flag? -/
def isFlag : Part → Bool
  | .immediate | .writeEnable | .signed | .setFlags | .predicate => true
  | _ => false

/-- What the token is read as, if it has to hold a numeral. -/
def subject? : Part → Option Subject
  | .register _ => some .registerOperand
  | .offset => some .memoryOffset
  | _ => none

/-- The token holds a numeral, if it has to. -/
def Readable (token : String) : Part → Prop
  | .register _ => ∃ n, Instruction.RegisterToken token n
  | .offset => ∃ n, Instruction.OffsetToken token n
  | _ => True

/-- The token is in the part's table, or its number fits the field. -/
def InBounds (isa : Isa) (kind : OpClass) (field : Field) (token : String) : Part → Prop
  | .opClass => token ∈ ["a", "c", "m", "f"]
  | .opcode => token ∈ (isa.opcodes.table kind).map (·.1)
  | .register _ => ∀ n, Instruction.RegisterToken token n → n ≤ field.max.toNat
  | .offset => ∀ n, Instruction.OffsetToken token n → n ≤ field.max.toNat
  | .condition => token = "" ∨ token ∈ isa.conditions.map (·.1)
  | _ => True

theorem subject?_of_isFlag {part : Part} (h : part.isFlag = true) : part.subject? = none := by
  cases part with
  | immediate | writeEnable | signed | setFlags | predicate => rfl
  | _ => cases h

theorem readable_of_isFlag {part : Part} {token : String} (h : part.isFlag = true) :
    part.Readable token := by
  cases part with
  | immediate | writeEnable | signed | setFlags | predicate => trivial
  | _ => cases h

theorem inBounds_of_isFlag {isa : Isa} {kind : OpClass} {field : Field} {token : String}
    {part : Part} (h : part.isFlag = true) : part.InBounds isa kind field token := by
  cases part with
  | immediate | writeEnable | signed | setFlags | predicate => trivial
  | _ => cases h

/-- A slot fails exactly on a token that is not readable, and the failure
names the token and what it was to be read as. -/
theorem value_result (isa : Isa) (kind : OpClass) (field : Field) (token : String)
    (part : Part) :
    (part.Readable token ∧ ∃ v, (part.value isa kind field token).result = .ok v)
      ∨ (¬ part.Readable token ∧ ∃ subject reason, part.subject? = some subject
        ∧ (part.value isa kind field token).result = .error ⟨subject, token, reason⟩) := by
  cases part with
  | register index =>
      rw [Readable, Instruction.exists_registerToken_iff, Part.value]
      cases hread : Instruction.readRegister token with
      | ok w => exact Or.inl ⟨⟨w, rfl⟩, _, rfl⟩
      | error reason =>
          refine Or.inr ⟨?_, _, reason, rfl, rfl⟩
          rintro ⟨w, hw⟩
          cases hw
  | offset =>
      rw [Readable, Instruction.exists_offsetToken_iff, Part.value]
      cases hread : Instruction.readOffset token with
      | ok w =>
          exact Or.inl ⟨⟨w, rfl⟩, Finding.exists_orWarn_map_result ..⟩
      | error reason =>
          refine Or.inr ⟨?_, _, reason, rfl, rfl⟩
          rintro ⟨w, hw⟩
          cases hw
  | opClass | opcode | condition =>
      exact Or.inl ⟨trivial, Finding.exists_orWarn_map_result ..⟩
  | immediate | writeEnable | signed | setFlags | predicate => exact Or.inl ⟨trivial, _, rfl⟩

end Part

theorem OpClass.mem_markers_iff {token : String} :
    token ∈ ["a", "c", "m", "f"] ↔ ∃ kind, OpClass.ofMarker? token = some kind := by
  simp only [OpClass.ofMarker?]
  split <;> simp_all

theorem lookup_eq_some_exists_iff {table : Table} {name : String} :
    (∃ value, table.lookup name = some value) ↔ name ∈ table.map (·.1) := by
  rw [← Option.isSome_iff_exists, List.lookup_isSome_iff, List.mem_map]
  refine exists_congr fun p => and_congr_right fun _ => ?_
  rw [beq_iff_eq]
  exact eq_comm

namespace Part

/-- A slot is read without a warning exactly if its token is readable and
in bounds. -/
theorem exists_reads_iff {isa : Isa} {kind : OpClass} {field : Field} {token : String}
    {part : Part} :
    (∃ v, part.Reads isa kind field token v)
      ↔ part.Readable token ∧ part.InBounds isa kind field token := by
  cases part with
  | immediate | writeEnable | signed | setFlags | predicate =>
      exact ⟨fun _ => ⟨trivial, trivial⟩, fun _ => ⟨_, rfl⟩⟩
  | opClass =>
      show _ ↔ True ∧ token ∈ ["a", "c", "m", "f"]
      rw [true_and, OpClass.mem_markers_iff]
      constructor
      · rintro ⟨_, found, hfound, -⟩
        exact ⟨found, hfound⟩
      · rintro ⟨found, hfound⟩
        exact ⟨.opClass found, found, hfound, rfl⟩
  | opcode =>
      show _ ↔ True ∧ token ∈ (isa.opcodes.table kind).map (·.1)
      rw [true_and, ← lookup_eq_some_exists_iff]
      constructor
      · rintro ⟨_, value, hvalue, -⟩
        exact ⟨value, hvalue⟩
      · rintro ⟨value, hvalue⟩
        exact ⟨.opcode value, value, hvalue, rfl⟩
  | register index =>
      constructor
      · rintro ⟨_, w, htoken, hfits, -⟩
        refine ⟨⟨w.toNat, htoken⟩, fun n hn => ?_⟩
        rw [hn.unique htoken]
        exact Field.fits_iff_le.mp hfits
      · rintro ⟨hnumeral, hle⟩
        obtain ⟨w, hw⟩ := Instruction.exists_registerToken_iff.mp hnumeral
        have htoken := Instruction.readRegister_eq_ok_iff.mp hw
        exact ⟨.register index w, w, htoken, Field.fits_iff_le.mpr (hle _ htoken), rfl⟩
  | offset =>
      constructor
      · rintro ⟨_, w, htoken, hfits, -⟩
        refine ⟨⟨w.toNat, htoken⟩, fun n hn => ?_⟩
        rw [Literal.Numeral.unique hn htoken]
        exact Field.fits_iff_le.mp hfits
      · rintro ⟨hnumeral, hle⟩
        obtain ⟨w, hw⟩ := Instruction.exists_offsetToken_iff.mp hnumeral
        have htoken := Instruction.readOffset_eq_ok_iff.mp hw
        exact ⟨.offset w, w, htoken, Field.fits_iff_le.mpr (hle _ htoken), rfl⟩
  | condition =>
      show _ ↔ True ∧ (token = "" ∨ token ∈ isa.conditions.map (·.1))
      rw [true_and, ← lookup_eq_some_exists_iff]
      by_cases hempty : token = ""
      · exact ⟨fun _ => Or.inl hempty, fun _ => ⟨.condition 0, 0, if_pos hempty, rfl⟩⟩
      · constructor
        · rintro ⟨_, value, hvalue, -⟩
          rw [if_neg hempty] at hvalue
          exact Or.inr ⟨value, hvalue⟩
        · rintro (h | ⟨value, hvalue⟩)
          · exact absurd h hempty
          · exact ⟨.condition value, value, (if_neg hempty).trans hvalue, rfl⟩

end Part

/-! ## All slots of a line -/

namespace Instruction

/-- A walk over an ordered shape succeeds exactly if all tokens in its
slots are readable, and otherwise reports the first that is not. -/
theorem values_result (isa : Isa) (kind : OpClass) (tokens : List String) :
    ∀ {slots : List (Part × Slot)}, slots.Pairwise (fun s t => s.2.Precedes t.2) →
      ((∀ s ∈ slots, ∀ token, tokens[s.2.token]? = some token → s.1.Readable token)
          ∧ ∃ vs, (values isa kind tokens slots).result = .ok vs)
        ∨ ∃ s ∈ slots, ∃ token subject reason, tokens[s.2.token]? = some token
          ∧ s.1.subject? = some subject ∧ ¬ s.1.Readable token
          ∧ (values isa kind tokens slots).result = .error ⟨subject, token, reason⟩
          ∧ ∀ t ∈ slots, t.2.token < s.2.token →
            ∀ token, tokens[t.2.token]? = some token → t.1.Readable token
  | [], _ => Or.inl ⟨fun s hs => (by cases hs), [], rfl⟩
  | (part, slot) :: rest, h => by
      obtain ⟨hfirst, hord⟩ := List.pairwise_cons.mp h
      cases htoken : tokens[slot.token]? with
      | none =>
          refine Or.inl ⟨fun s hs token hs' => ?_, [], ?_⟩
          · rcases List.mem_cons.mp hs with rfl | hs
            · rw [htoken] at hs'
              cases hs'
            · rw [(hfirst s hs).getElem?_eq_none htoken] at hs'
              cases hs'
          · rw [values_cons_none htoken]
            rfl
      | some token =>
          rw [values_cons_some htoken]
          rcases part.value_result isa kind slot.field token with
            ⟨hreadable, v, hv⟩ | ⟨hnot, subject, reason, hsubject, hv⟩
          · -- The slot itself is fine, and the rest of the walk decides.
            have hhead : ∀ token', tokens[slot.token]? = some token' → part.Readable token' := by
              intro token' h'
              obtain rfl := Option.some.inj (htoken.symm.trans h')
              exact hreadable
            rcases values_result isa kind tokens hord with
              ⟨hall, vs, hvs⟩ | ⟨s, hs, token', subject, reason, hs', hsubject, hnot, hvs, hbefore⟩
            · refine Or.inl ⟨List.forall_mem_cons.mpr ⟨hhead, hall⟩, v :: vs, ?_⟩
              rw [Finding.bind_result_eq_ok]
              exact ⟨v, hv, Finding.map_result_eq_ok.mpr ⟨vs, hvs, rfl⟩⟩
            · refine Or.inr ⟨s, List.mem_cons_of_mem _ hs, token', subject, reason, hs', hsubject,
                hnot, ?_, List.forall_mem_cons.mpr ⟨fun _ => hhead, hbefore⟩⟩
              rw [Finding.bind_result_eq_error]
              exact Or.inr ⟨v, hv, Finding.map_result_eq_error.mpr hvs⟩
          · refine Or.inr ⟨(part, slot), List.mem_cons_self .., token, subject, reason, htoken,
              hsubject, hnot, ?_, fun t ht hlt => ?_⟩
            · rw [Finding.bind_result_eq_error]
              exact Or.inl hv
            · rcases List.mem_cons.mp ht with rfl | ht
              · exact absurd hlt (Nat.lt_irrefl _)
              · exact absurd (hfirst t ht).1 (Nat.lt_asymm hlt)

end Instruction

/-! ## Positions -/

/-- Where the condition of a line is read from and where it goes. -/
def Revision.conditionSlot? : Revision → Tail → Option Slot
  | .v1, .signed => some ⟨10, ⟨0, 4⟩⟩
  | .v1, .offset => some ⟨9, ⟨0, 4⟩⟩
  | .v2, _ => some ⟨8, ⟨1, 3⟩⟩
  | .v3, _ => none

/-- The slots of a shape that are not flags. -/
theorem forall_mem_shape {revision : Revision} {tail : Tail} {P : Part × Slot → Prop}
    (hflag : ∀ s : Part × Slot, s.1.isFlag = true → P s) :
    (∀ s ∈ revision.isa.layout.shape tail, P s) ↔
      P (.opClass, ⟨2, ⟨28, 2⟩⟩) ∧ P (.opcode, ⟨3, ⟨24, 4⟩⟩)
        ∧ (revision.isa.layout.registers ≠ [] →
          P (.register 0, ⟨4, ⟨20, 4⟩⟩) ∧ P (.register 1, ⟨5, ⟨16, 4⟩⟩)
            ∧ P (.register 2, ⟨6, ⟨12, 4⟩⟩) ∧ (tail = .offset → P (.offset, ⟨7, ⟨4, 8⟩⟩)))
        ∧ ∀ slot ∈ revision.conditionSlot? tail, P (.condition, slot) := by
  have hflags : ∀ slot, P (.immediate, slot) ∧ P (.writeEnable, slot) ∧ P (.signed, slot)
      ∧ P (.setFlags, slot) ∧ P (.predicate, slot) := fun slot =>
    ⟨hflag _ rfl, hflag _ rfl, hflag _ rfl, hflag _ rfl, hflag _ rfl⟩
  cases revision <;> cases tail <;>
    simp [Revision.isa, earlyIsa, refinedIsa, strippedIsa, registerLayout, headerLayout,
      Layout.shape, Layout.registerShape, Operands.shape, Revision.conditionSlot?, hflags,
      classToken, operandToken, registerToken, and_assoc]

namespace Revision

variable {revision : Revision} {tokens : List String}

theorem tail_eq_offset_iff :
    revision.tail tokens = .offset ↔ revision.isSignedLine tokens = false := by
  rw [tail]
  cases revision.isSignedLine tokens <;> simp

/-! ## Lenient lines -/

/-- Token `i` has to hold a numeral and does not. Registers stand at the
tokens 4 to 6, and an offset at token 7 unless the line is signed. -/
def MisreadAt (revision : Revision) (tokens : List String) (i : Nat) (what token : String) :
    Prop :=
  revision.isa.layout.registers ≠ [] ∧ tokens[i]? = some token ∧
    ((4 ≤ i ∧ i ≤ 6 ∧ what = "register operand"
        ∧ ¬ ∃ n, Instruction.RegisterToken token n)
      ∨ (i = 7 ∧ revision.isSignedLine tokens = false ∧ what = "memory offset"
        ∧ ¬ ∃ n, Instruction.OffsetToken token n))

/-- A slot whose token is not readable is at one of these positions. -/
theorem misreadAt_of_slot : ∀ s ∈ revision.isa.layout.shape (revision.tail tokens),
    ∀ {token : String} {subject : Subject}, tokens[s.2.token]? = some token →
      s.1.subject? = some subject → ¬ s.1.Readable token →
      revision.MisreadAt tokens s.2.token subject.name token := by
  refine (forall_mem_shape fun s hflag => ?_).mpr
    ⟨?_, ?_, fun hregisters => ⟨?_, ?_, ?_, fun htail => ?_⟩, fun slot _ => ?_⟩
  case refine_1 =>
    intro token subject _ hsubject
    rw [Part.subject?_of_isFlag hflag] at hsubject
    cases hsubject
  case refine_2 | refine_3 | refine_8 =>
    intro token subject _ hsubject
    cases hsubject
  case refine_4 | refine_5 | refine_6 =>
    intro token subject htoken hsubject hnot
    obtain rfl := Option.some.inj hsubject
    exact ⟨hregisters, htoken, Or.inl ⟨by decide, by decide, rfl, hnot⟩⟩
  case refine_7 =>
    intro token subject htoken hsubject hnot
    obtain rfl := Option.some.inj hsubject
    exact ⟨hregisters, htoken, Or.inr ⟨rfl, tail_eq_offset_iff.mp htail, rfl, hnot⟩⟩

/-- At a position whose slots are readable there is nothing to report. -/
theorem not_misreadAt {j : Nat}
    (h : ∀ s ∈ revision.isa.layout.shape (revision.tail tokens), s.2.token = j →
      ∀ token, tokens[s.2.token]? = some token → s.1.Readable token) (what token : String) :
    ¬ revision.MisreadAt tokens j what token := by
  rw [forall_mem_shape fun s hflag _ token _ => Part.readable_of_isFlag hflag] at h
  obtain ⟨-, -, hslots, -⟩ := h
  rintro ⟨hregisters, htoken, ⟨hlow, hhigh, -, hnot⟩ | ⟨rfl, hsigned, -, hnot⟩⟩
  · obtain ⟨hfirst, hsecond, hthird, -⟩ := hslots hregisters
    obtain rfl | rfl | rfl : j = 4 ∨ j = 5 ∨ j = 6 := by omega
    · exact hnot (hfirst rfl token htoken)
    · exact hnot (hsecond rfl token htoken)
    · exact hnot (hthird rfl token htoken)
  · obtain ⟨-, -, -, hoffset⟩ := hslots hregisters
    exact hnot (hoffset (tail_eq_offset_iff.mpr hsigned) rfl token htoken)

/-! ## Strict lines -/

/-- The names of the class and of the mnemonic are known, and the numbers
fit their fields. -/
structure InTables (revision : Revision) (tokens : List String) : Prop where
  class_known : ∀ token, tokens[2]? = some token → token ∈ ["a", "c", "m", "f"]
  mnemonic_known : ∀ kind token, tokens[2]?.bind OpClass.ofMarker? = some kind →
    tokens[3]? = some token → token ∈ (revision.isa.opcodes.table kind).map (·.1)
  registers_fit : revision.isa.layout.registers ≠ [] → ∀ i token n, 4 ≤ i → i ≤ 6 →
    tokens[i]? = some token → Instruction.RegisterToken token n → n ≤ 15
  offset_fits : revision.isa.layout.registers ≠ [] → revision.isSignedLine tokens = false →
    ∀ token n, tokens[7]? = some token → Instruction.OffsetToken token n → n ≤ 255

/-- The condition is left out or known. -/
def ConditionKnown (revision : Revision) (tokens : List String) : Prop :=
  ∀ slot ∈ revision.conditionSlot? (revision.tail tokens), ∀ token,
    tokens[slot.token]? = some token →
      token = "" ∨ token ∈ revision.isa.conditions.map (·.1)

/-- A line whose third token is a marker, if it has one. -/
theorem marker_of_mnemonic (h : ∀ token, tokens[2]? = some token → token ∈ ["a", "c", "m", "f"])
    {token : String} (htoken : tokens[3]? = some token) :
    tokens[2]?.bind OpClass.ofMarker? = some (Instruction.classOf tokens) := by
  obtain ⟨hlen, -⟩ := List.getElem?_eq_some_iff.mp htoken
  have hclass : tokens[2]? = some tokens[2] := List.getElem?_eq_getElem (by omega)
  obtain ⟨kind, hkind⟩ := OpClass.mem_markers_iff.mp (h _ hclass)
  have hmarker : tokens[2]?.bind OpClass.ofMarker? = some kind := by
    rw [hclass, Option.bind_some, hkind]
  rw [Instruction.classOf_eq hmarker, hmarker]

/-- All slots are in bounds exactly if the tokens at their positions are. -/
theorem inBounds_iff :
    (∀ s ∈ revision.isa.layout.shape (revision.tail tokens), ∀ token,
        tokens[s.2.token]? = some token →
        s.1.InBounds revision.isa (Instruction.classOf tokens) s.2.field token)
      ↔ revision.InTables tokens ∧ revision.ConditionKnown tokens := by
  rw [forall_mem_shape fun s hflag token _ => Part.inBounds_of_isFlag hflag]
  constructor
  · rintro ⟨hclass, hopcode, hslots, hcondition⟩
    refine ⟨⟨hclass, fun kind token hkind htoken => ?_, fun hregisters i token n hlow hhigh
      htoken hn => ?_, fun hregisters hsigned token n htoken hn => ?_⟩, hcondition⟩
    · rw [← Instruction.classOf_eq hkind]
      exact hopcode token htoken
    · obtain ⟨hfirst, hsecond, hthird, -⟩ := hslots hregisters
      obtain rfl | rfl | rfl : i = 4 ∨ i = 5 ∨ i = 6 := by omega
      · exact hfirst token htoken n hn
      · exact hsecond token htoken n hn
      · exact hthird token htoken n hn
    · obtain ⟨-, -, -, hoffset⟩ := hslots hregisters
      exact hoffset (tail_eq_offset_iff.mpr hsigned) token htoken n hn
  · rintro ⟨⟨hclass, hmnemonic, hregister, hoffset⟩, hcondition⟩
    refine ⟨hclass, fun token htoken => ?_, fun hregisters => ⟨?_, ?_, ?_, fun htail => ?_⟩,
      hcondition⟩
    · exact hmnemonic _ token (marker_of_mnemonic hclass htoken) htoken
    · exact fun token htoken n => hregister hregisters 4 token n (by decide) (by decide) htoken
    · exact fun token htoken n => hregister hregisters 5 token n (by decide) (by decide) htoken
    · exact fun token htoken n => hregister hregisters 6 token n (by decide) (by decide) htoken
    · exact fun token htoken n =>
        hoffset hregisters (tail_eq_offset_iff.mp htail) token n htoken

end Revision

/-! ## Both modes -/

namespace Encoder

variable {revision : Revision} {tokens : List String}

/-- A lenient line is accepted, or fails at the first position where a
numeral is missing. -/
theorem lenient_result (hlen : 2 ≤ tokens.length) (hline : Line.isDirective tokens = false) :
    ((∀ s ∈ revision.isa.layout.shape (revision.tail tokens), ∀ token,
          tokens[s.2.token]? = some token → s.1.Readable token)
        ∧ (∃ encoded, (Encoder.mk revision .lenient).encodeTokens tokens = .ok encoded)
        ∧ ∀ i what token, ¬ revision.MisreadAt tokens i what token)
      ∨ ∃ i subject token reason, (Encoder.mk revision .lenient).encodeTokens tokens
          = .error (.unreadable subject token reason)
        ∧ revision.MisreadAt tokens i subject.name token
        ∧ ∀ j < i, ∀ what token, ¬ revision.MisreadAt tokens j what token := by
  rw [encodeTokens_instruction hlen hline, shapeOf_eq, Finding.encoded_lenient_eq_ok_iff,
    Instruction.word]
  rcases Instruction.values_result revision.isa (Instruction.classOf tokens) tokens
    (shape_ordered revision (revision.tail tokens)) with
    ⟨hall, vs, hvs⟩ | ⟨s, hs, token, subject, reason, htoken, hsubject, hnot, herror, hbefore⟩
  · refine Or.inl ⟨hall, ⟨_, Finding.map_result_eq_ok.mpr ⟨vs, hvs, rfl⟩⟩, fun i => ?_⟩
    exact Revision.not_misreadAt fun s hs _ => hall s hs
  · refine Or.inr ⟨s.2.token, subject, token, reason, ?_,
      Revision.misreadAt_of_slot s hs htoken hsubject hnot, fun j hj => ?_⟩
    · exact Finding.encoded_lenient_eq_error_iff.mpr
        ⟨_, Finding.map_result_eq_error.mpr herror, rfl⟩
    · refine Revision.not_misreadAt fun t ht hposition => hbefore t ht ?_
      rw [hposition]
      exact hj

/-- A strict line is accepted exactly if each of its tokens is readable
and in bounds. -/
theorem strict_ok_iff (hlen : 2 ≤ tokens.length) (hline : Line.isDirective tokens = false) :
    (∃ encoded, (Encoder.mk revision .strict).encodeTokens tokens = .ok encoded)
      ↔ (∀ s ∈ revision.isa.layout.shape (revision.tail tokens), ∀ token,
          tokens[s.2.token]? = some token → s.1.Readable token)
        ∧ revision.InTables tokens ∧ revision.ConditionKnown tokens := by
  rw [encodeTokens_instruction hlen hline, shapeOf_eq, Finding.encoded_strict_eq_ok_iff,
    Instruction.word, ← Revision.inBounds_iff]
  constructor
  · rintro ⟨word, h⟩
    obtain ⟨vs, hvs, -⟩ := Finding.map_eq_ok.mp h
    have hreads := (Instruction.values_clean_iff (shape_ordered ..)).mp ⟨vs, hvs⟩
    exact ⟨fun s hs token htoken => (Part.exists_reads_iff.mp (hreads s hs token htoken)).1,
      fun s hs token htoken => (Part.exists_reads_iff.mp (hreads s hs token htoken)).2⟩
  · rintro ⟨hreadable, hbounds⟩
    obtain ⟨vs, hvs⟩ := (Instruction.values_clean_iff (shape_ordered ..)).mpr
      fun s hs token htoken => Part.exists_reads_iff.mpr
        ⟨hreadable s hs token htoken, hbounds s hs token htoken⟩
    exact ⟨_, Finding.map_eq_ok.mpr ⟨vs, hvs, rfl⟩⟩

/-- **The accepted lines.** A lenient line fails exactly where a numeral is
missing, and reports the first such token. A strict line is accepted
exactly if the lenient one is, its class and mnemonic are known, its
numbers fit, and its condition is left out or known. -/
theorem accepts_iff (revision : Revision) (tokens : List String) (hlen : 2 ≤ tokens.length)
    (hhead : tokens.head? ∉ [some "di", some "dh", some "df"]) :
    ((∃ e, (Encoder.mk revision .lenient).encodeTokens tokens = .error e)
        ↔ ∃ i what token, revision.MisreadAt tokens i what token)
      ∧ (∀ e, (Encoder.mk revision .lenient).encodeTokens tokens = .error e →
        ∃ i subject token reason, e = .unreadable subject token reason
          ∧ revision.MisreadAt tokens i subject.name token
          ∧ ∀ j < i, ∀ what token, ¬ revision.MisreadAt tokens j what token)
      ∧ ((∃ encoded, (Encoder.mk revision .strict).encodeTokens tokens = .ok encoded)
        ↔ (∃ encoded, (Encoder.mk revision .lenient).encodeTokens tokens = .ok encoded)
          ∧ revision.InTables tokens ∧ revision.ConditionKnown tokens) := by
  have hline := Line.isDirective_of_head? hhead
  rw [strict_ok_iff hlen hline]
  rcases lenient_result hlen hline with
    ⟨hall, ⟨encoded, hok⟩, hnone⟩ | ⟨i, subject, token, reason, herror, hmisread, hfirst⟩
  · rw [hok]
    refine ⟨⟨?_, ?_⟩, ?_, ?_⟩
    · rintro ⟨e, he⟩
      cases he
    · rintro ⟨i, what, token, h⟩
      exact absurd h (hnone i what token)
    · intro e he
      cases he
    · exact and_congr_left fun _ => ⟨fun _ => ⟨encoded, rfl⟩, fun _ => hall⟩
  · rw [herror]
    refine ⟨⟨fun _ => ⟨i, subject.name, token, hmisread⟩, fun _ => ⟨_, rfl⟩⟩, ?_, ?_⟩
    · intro e he
      obtain rfl := Except.error.inj he
      exact ⟨i, subject, token, reason, rfl, hmisread, hfirst⟩
    · constructor
      · rintro ⟨hall, -⟩
        exact absurd hmisread (Revision.not_misreadAt (fun s hs _ => hall s hs) _ _)
      · rintro ⟨⟨encoded, hok⟩, -⟩
        cases hok

/-- A refined line with a register that is too large, a register without a
number and an offset without digits: the second is reported. -/
theorem accepts_iff_three_faults :
    2 ≤ ["i", "1", "m", "lw", "r99", "r", "r3", "+"].length
      ∧ ["i", "1", "m", "lw", "r99", "r", "r3", "+"].head?
        ∉ [some "di", some "dh", some "df"]
      ∧ ∃ i subject token reason,
        EncodeError.unreadable .registerOperand "r" (.integer .empty)
          = .unreadable subject token reason
        ∧ Revision.v2.MisreadAt ["i", "1", "m", "lw", "r99", "r", "r3", "+"] i
          subject.name token
        ∧ ∀ j < i, ∀ what token, ¬ Revision.v2.MisreadAt
          ["i", "1", "m", "lw", "r99", "r", "r3", "+"] j what token :=
  ⟨by decide, by decide,
    (accepts_iff .v2 ["i", "1", "m", "lw", "r99", "r", "r3", "+"] (by decide) (by decide)).2.1
      _ rfl⟩

/-- The condition has to be among what a strict line is asked for: all else
is right in this line. -/
theorem strict_rejects_unknown_condition :
    2 ≤ ["n", "0", "a", "add", "r1", "r2", "r3", "s", "xx"].length
      ∧ ["n", "0", "a", "add", "r1", "r2", "r3", "s", "xx"].head?
        ∉ [some "di", some "dh", some "df"]
      ∧ (∃ encoded, (Encoder.mk .v2 .lenient).encodeTokens
        ["n", "0", "a", "add", "r1", "r2", "r3", "s", "xx"] = .ok encoded)
      ∧ Revision.v2.InTables ["n", "0", "a", "add", "r1", "r2", "r3", "s", "xx"]
      ∧ ¬ ∃ encoded, (Encoder.mk .v2 .strict).encodeTokens
        ["n", "0", "a", "add", "r1", "r2", "r3", "s", "xx"] = .ok encoded := by
  refine ⟨by decide, by decide, ⟨_, rfl⟩, ⟨?_, ?_, ?_, ?_⟩, ?_⟩
  · intro token htoken
    obtain rfl := Option.some.inj htoken
    decide
  · intro kind token hkind htoken
    obtain rfl := Option.some.inj hkind
    obtain rfl := Option.some.inj htoken
    decide
  · intro _ i token n hlow hhigh htoken hn
    obtain rfl | rfl | rfl : i = 4 ∨ i = 5 ∨ i = 6 := by omega
    · obtain rfl := Option.some.inj htoken
      have hone : Instruction.readRegister "r1" = .ok 1 := rfl
      rw [hn.unique (Instruction.readRegister_eq_ok_iff.mp hone)]
      decide
    · obtain rfl := Option.some.inj htoken
      have htwo : Instruction.readRegister "r2" = .ok 2 := rfl
      rw [hn.unique (Instruction.readRegister_eq_ok_iff.mp htwo)]
      decide
    · obtain rfl := Option.some.inj htoken
      have hthree : Instruction.readRegister "r3" = .ok 3 := rfl
      rw [hn.unique (Instruction.readRegister_eq_ok_iff.mp hthree)]
      decide
  · intro _ hsigned
    exact absurd hsigned (by decide)
  · rintro ⟨encoded, h⟩
    have hrejected : (Encoder.mk .v2 .strict).encodeTokens
        ["n", "0", "a", "add", "r1", "r2", "r3", "s", "xx"]
          = .error (.rejected (.unknownCondition "xx")) := rfl
    rw [hrejected] at h
    cases h

end Encoder

end LineAsm
