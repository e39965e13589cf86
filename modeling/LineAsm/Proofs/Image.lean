import LineAsm.Proofs.Spelling
import LineAsm.Proofs.Truncation

/-!
# The words of instruction lines

Which words strict encoding can give, exactly (`LegalWord`). The class
bits are free, and the rest depends on them in one of two ways:

- the line has a mnemonic: the opcode bits hold an opcode of the class,
  the condition bits hold zero or a condition of the revision, and the
  bits that no slot of the line fills are zero;
- the line ends with the class or before it: everything below the class
  bits is zero. Not every such word arises in the first way, because a
  class need not have an opcode zero.

From a line to its word, each slot holds a value that its part has
(`reached_or_missing`), and what no slot fills is zero
(`get_eq_zero_of_apart`). Backwards the word is spelled out; of what it
holds, only the bits of the slots come back, and these are all bits that
are not zero (`and_cover_eq_self`).
-/

namespace LineAsm

/-! ## Legal words -/

/-- The bits of the condition. -/
def Revision.conditionField? : Revision → Option Field
  | .v1 => some ⟨0, 4⟩
  | .v2 => some ⟨1, 3⟩
  | .v3 => none

/-- The bits that no slot fills. Only an offset takes all the bits between
the registers and the condition. -/
def Revision.spareFields : Revision → Tail → List Field
  | .v1, .signed => [⟨4, 6⟩]
  | .v2, .signed => [⟨4, 7⟩]
  | .v1, .offset | .v2, .offset => []
  | .v3, _ => [⟨0, 24⟩]

/-- The word is that of a line with a mnemonic of the class, or of a line
that ends with the class or before it. -/
def Revision.LegalWord (revision : Revision) (w : Word) : Prop :=
  ∃ kind ∈ OpClass.all, Field.get ⟨28, 2⟩ w = kind.code ∧
    ((Field.get ⟨24, 4⟩ w ∈ (revision.isa.opcodes.table kind).map (·.2)
        ∧ (∀ f ∈ revision.conditionField?, f.get w ∈ 0 :: revision.isa.conditions.map (·.2))
        ∧ ∀ f ∈ revision.spareFields (revision.isa.tailFor kind), f.get w = 0)
      ∨ (Field.get ⟨24, 4⟩ w = 0 ∧ Field.get ⟨0, 24⟩ w = 0))

instance (revision : Revision) (w : Word) : Decidable (revision.LegalWord w) :=
  inferInstanceAs (Decidable (∃ kind ∈ OpClass.all, _))

theorem OpClass.mem_all (kind : OpClass) : kind ∈ OpClass.all := by
  cases kind <;> decide

/-! ## Facts of the tables -/

theorem layout_opClass (revision : Revision) : revision.isa.layout.opClass = ⟨28, 2⟩ := by
  cases revision <;> rfl

theorem layout_opcode (revision : Revision) : revision.isa.layout.opcode = ⟨24, 4⟩ := by
  cases revision <;> rfl

/-- The field is where the revision has the part. -/
def Part.InPlace (revision : Revision) (field : Field) : Part → Prop
  | .immediate | .writeEnable | .signed | .setFlags | .predicate => field.width = 1
  | .opClass => field = ⟨28, 2⟩
  | .opcode => field = ⟨24, 4⟩
  | .condition => revision.conditionField? = some field
  | .register _ | .offset => True

instance (revision : Revision) (field : Field) (part : Part) :
    Decidable (part.InPlace revision field) :=
  match part with
  | .immediate | .writeEnable | .signed | .setFlags | .predicate =>
    inferInstanceAs (Decidable (field.width = 1))
  | .opClass => inferInstanceAs (Decidable (field = ⟨28, 2⟩))
  | .opcode => inferInstanceAs (Decidable (field = ⟨24, 4⟩))
  | .condition => inferInstanceAs (Decidable (revision.conditionField? = some field))
  | .register _ | .offset => inferInstanceAs (Decidable True)

theorem shape_inPlace (revision : Revision) (tail : Tail) :
    ∀ s ∈ revision.isa.layout.shape tail, s.1.InPlace revision s.2.field := by
  cases revision <;> cases tail <;> decide

theorem condition_mem_shape (revision : Revision) (tail : Tail) :
    ∀ f ∈ revision.conditionField?,
      ∃ s ∈ revision.isa.layout.shape tail, s.1 = .condition ∧ s.2.field = f := by
  cases revision <;> cases tail <;> decide

theorem classToken_of_mem_shape (revision : Revision) (tail : Tail) :
    ∀ s ∈ revision.isa.layout.shape tail, s.1 = .opClass → s.2.token = classToken := by
  cases revision <;> cases tail <;> decide

theorem opcodes_fit (revision : Revision) (kind : OpClass) :
    ∀ p ∈ revision.isa.opcodes.table kind, p.2 &&& Field.max ⟨24, 4⟩ = p.2 := by
  cases revision <;> cases kind <;> decide

theorem conditions_fit (revision : Revision) : ∀ f ∈ revision.conditionField?,
    ∀ p ∈ revision.isa.conditions, p.2 &&& f.max = p.2 := by
  cases revision <;> decide

theorem Part.InPlace.choices_fit {revision : Revision} {field : Field} {part : Part}
    (h : part.InPlace revision field) (kind : OpClass) :
    ∀ choices ∈ part.choices revision.isa kind, ∀ value ∈ choices,
      value &&& field.max = value := by
  intro choices hchoices value hvalue
  cases part with
  | immediate | writeEnable | signed | setFlags | predicate =>
      obtain rfl := Option.some.inj hchoices
      have hflag : value = 0 ∨ value = 1 := by simpa using hvalue
      rw [Field.max, show field.width = 1 from h]
      rcases hflag with rfl | rfl <;> rfl
  | opClass =>
      obtain rfl := Option.some.inj hchoices
      obtain rfl := List.mem_singleton.mp hvalue
      rw [show field = ⟨28, 2⟩ from h]
      cases kind <;> decide
  | opcode =>
      obtain rfl := Option.some.inj hchoices
      obtain ⟨p, hp, rfl⟩ := List.mem_map.mp hvalue
      rw [show field = ⟨24, 4⟩ from h]
      exact opcodes_fit revision kind p hp
  | condition =>
      obtain rfl := Option.some.inj hchoices
      rcases List.mem_cons.mp hvalue with rfl | hvalue
      · exact BitVec.zero_and
      · obtain ⟨p, hp, rfl⟩ := List.mem_map.mp hvalue
        exact conditions_fit revision field h p hp
  | register _ | offset => cases hchoices

theorem spare_apart (revision : Revision) (tail : Tail) :
    ∀ f ∈ revision.spareFields tail, ∀ s ∈ revision.isa.layout.shape tail,
      s.2.field.Apart f := by
  cases revision <;> cases tail <;> decide

theorem cover_shape (revision : Revision) (tail : Tail) :
    Field.cover ((revision.isa.layout.shape tail).map (·.2.field))
      ||| Field.cover (revision.spareFields tail) = BitVec.allOnes 32 := by
  cases revision <;> cases tail <;> decide

theorem token_lt_eleven (revision : Revision) (tail : Tail) :
    ∀ s ∈ revision.isa.layout.shape tail, s.2.token < 11 := by
  cases revision <;> cases tail <;> decide

/-- The slots before the opcode. -/
theorem header_slots (revision : Revision) (tail : Tail) :
    ∀ s ∈ Instruction.slotsBelow 3 (revision.isa.layout.shape tail),
      s.2.token < 3 ∧ s.1 ≠ .opcode ∧ s.1 ≠ .condition ∧ s.2.field.Apart ⟨0, 24⟩ := by
  cases revision <;> cases tail <;> decide

theorem three_le_token (revision : Revision) (tail : Tail) :
    ∀ t ∈ (revision.isa.layout.shape tail).dropWhile (·.2.token < 3), 3 ≤ t.2.token := by
  cases revision <;> cases tail <;> decide

theorem cover_header (revision : Revision) (tail : Tail) :
    Field.cover ((Instruction.slotsBelow 3 (revision.isa.layout.shape tail)).map (·.2.field))
      ||| Field.cover [⟨24, 4⟩, ⟨0, 24⟩] = BitVec.allOnes 32 := by
  cases revision <;> cases tail <;> decide

/-! ## From a line to its word -/

theorem Table.mem_values_of_lookup {table : Table} {name : String} {value : Word}
    (h : table.lookup name = some value) : value ∈ table.map (·.2) := by
  obtain ⟨before, after, htable, -⟩ := List.lookup_eq_some_iff.mp h
  exact List.mem_map.mpr ⟨(name, value), by simp [htable], rfl⟩

namespace Part

/-- What is read without a warning is a value of the part. -/
theorem Reads.admits {isa : Isa} {kind : OpClass} {field : Field} {token : String}
    {part : Part} {v : PartValue} (h : part.Reads isa kind field token v)
    (hclass : part = .opClass → v.word = kind.code) : part.Admits isa kind v.word := by
  intro choices hchoices
  cases part with
  | immediate | writeEnable | signed | setFlags | predicate =>
      obtain rfl := Option.some.inj hchoices
      obtain rfl := h
      rw [PartValue.word]
      cases token == _ <;> decide
  | opClass =>
      obtain rfl := Option.some.inj hchoices
      exact List.mem_singleton.mpr (hclass rfl)
  | opcode =>
      obtain rfl := Option.some.inj hchoices
      obtain ⟨value, hvalue, rfl⟩ := h
      exact Table.mem_values_of_lookup hvalue
  | condition =>
      obtain rfl := Option.some.inj hchoices
      obtain ⟨value, hvalue, rfl⟩ := h
      by_cases hempty : token = ""
      · rw [if_pos hempty] at hvalue
        obtain rfl := Option.some.inj hvalue
        exact List.mem_cons_self ..
      · rw [if_neg hempty] at hvalue
        exact List.mem_cons_of_mem _ (Table.mem_values_of_lookup hvalue)
  | register _ | offset => cases hchoices

/-- A value of the part is not changed by the field's width. -/
theorem Admits.and_max {isa : Isa} {kind : OpClass} {field : Field} {part : Part}
    {value : Word} (h : part.Admits isa kind value)
    (hfit : ∀ choices ∈ part.choices isa kind, ∀ value ∈ choices, value &&& field.max = value) :
    part.Admits isa kind (value &&& field.max) := by
  intro choices hchoices
  rw [hfit choices hchoices value (h choices hchoices)]
  exact h choices hchoices

end Part

namespace Instruction

theorem get_eq_zero_of_apart {isa : Isa} {kind : OpClass} {tokens : List String}
    {slots : List (Part × Slot)} {w : Word} {ws : List Warning}
    (h : word isa kind tokens slots = ⟨.ok w, ws⟩) {f : Field}
    (hapart : ∀ s ∈ slots, s.2.field.Apart f) : f.get w = 0 := by
  obtain ⟨vs, -, rfl⟩ := Finding.map_eq_ok.mp h
  refine get_join_of_apart fun p hp => ?_
  obtain ⟨s, hs, hfield⟩ := mem_placed hp
  rw [hfield]
  exact hapart s hs

/-- Each slot of a line without a fault holds a value of its part, or
else zero because the line does not reach it. -/
theorem reached_or_missing {revision : Revision} {tokens : List String} {tail : Tail} {w : Word}
    (h : word revision.isa (classOf tokens) tokens (revision.isa.layout.shape tail)
      = ⟨.ok w, []⟩) {s : Part × Slot} (hs : s ∈ revision.isa.layout.shape tail) :
    (tokens[s.2.token]? = none ∧ s.2.field.get w = 0)
      ∨ (∃ token, tokens[s.2.token]? = some token)
        ∧ s.1.Admits revision.isa (classOf tokens) (s.2.field.get w) := by
  obtain ⟨vs, hvs, rfl⟩ := Finding.map_eq_ok.mp h
  have hord := shape_ordered revision tail
  have hread := get_join_values hord (shape_inside revision tail)
    (congrArg Finding.result hvs) s hs
  rcases hread with hmissing | ⟨token, v, htoken, hv, hget⟩
  · exact Or.inl hmissing
  · refine Or.inr ⟨⟨token, htoken⟩, ?_⟩
    obtain ⟨v', hv'⟩ := (values_clean_iff hord).mp ⟨vs, hvs⟩ s hs token htoken
    obtain rfl : v = v' := by
      rw [Part.value_eq_clean_iff.mpr hv'] at hv
      exact (Except.ok.inj hv).symm
    rw [hget]
    refine (hv'.admits fun hclass => ?_).and_max ((shape_inPlace revision tail s hs).choices_fit _)
    rw [classToken_of_mem_shape revision tail s hs hclass] at htoken
    rw [hclass, value_opClass_result htoken] at hv
    obtain rfl := Except.ok.inj hv
    rfl

/-- A line that names a class has the tail of that class. -/
theorem tail_eq_of_marker {revision : Revision} {tokens : List String} {kind : OpClass}
    (h : tokens[classToken]?.bind OpClass.ofMarker? = some kind) :
    revision.tail tokens = revision.isa.tailFor kind := by
  rw [Revision.tail, Revision.isSignedLine, Isa.tailFor, ← classToken, h]
  rfl

/-- A line without a fault that reaches the opcode has the tail of its
class. -/
theorem tail_eq_tailFor {revision : Revision} {tokens : List String} {w : Word}
    (h : word revision.isa (classOf tokens) tokens
      (revision.isa.layout.shape (revision.tail tokens)) = ⟨.ok w, []⟩)
    (hlen : classToken < tokens.length) :
    revision.tail tokens = revision.isa.tailFor (classOf tokens) := by
  obtain ⟨vs, hvs, -⟩ := Finding.map_eq_ok.mp h
  have htoken : tokens[classToken]? = some tokens[classToken] := List.getElem?_eq_getElem hlen
  obtain ⟨_, found, hfound, -⟩ := (values_clean_iff (shape_ordered ..)).mp ⟨vs, hvs⟩
    (.opClass, ⟨classToken, revision.isa.layout.opClass⟩) (by simp [shape_eq]) _ htoken
  have hmarker : tokens[classToken]?.bind OpClass.ofMarker? = some found := by
    rw [htoken, Option.bind_some, hfound]
  rw [classOf_eq hmarker, tail_eq_of_marker hmarker]

/-- The word of a line without a fault is legal. -/
theorem legalWord_of_word {revision : Revision} {tokens : List String} {w : Word}
    (h : word revision.isa (classOf tokens) tokens (shapeOf revision.isa tokens)
      = ⟨.ok w, []⟩) : revision.LegalWord w := by
  rw [shapeOf_eq] at h
  have hclass : (.opClass, ⟨classToken, ⟨28, 2⟩⟩)
      ∈ revision.isa.layout.shape (revision.tail tokens) := by
    simp [shape_eq, layout_opClass]
  have hopcode : (.opcode, ⟨3, ⟨24, 4⟩⟩)
      ∈ revision.isa.layout.shape (revision.tail tokens) := by
    simp [shape_eq, shapeAfterClass, layout_opcode]
  refine ⟨classOf tokens, OpClass.mem_all _, ?_, ?_⟩
  · rcases reached_or_missing h hclass with ⟨hnone, hzero⟩ | ⟨-, hvalue⟩
    · rw [hzero, classOf, hnone]
      rfl
    · exact List.mem_singleton.mp (hvalue _ rfl)
  · rcases reached_or_missing h hopcode with ⟨hnone, hzero⟩ | ⟨⟨mnemonic, hmnemonic⟩, hvalue⟩
    · have hshort : tokens.take 3 = tokens :=
        List.take_of_length_le (List.getElem?_eq_none_iff.mp hnone)
      rw [← hshort, word_take] at h
      exact Or.inr ⟨hzero, get_eq_zero_of_apart h fun s hs => (header_slots revision _ s hs).2.2.2⟩
    · obtain ⟨hlen, -⟩ := List.getElem?_eq_some_iff.mp hmnemonic
      refine Or.inl ⟨hvalue _ rfl, fun f hf => ?_, fun f hf => ?_⟩
      · obtain ⟨s, hs, hpart, rfl⟩ := condition_mem_shape revision (revision.tail tokens) f hf
        rcases reached_or_missing h hs with ⟨-, hzero⟩ | ⟨-, hvalue⟩
        · rw [hzero]
          exact List.mem_cons_self ..
        · rw [hpart] at hvalue
          exact hvalue _ rfl
      · rw [← tail_eq_tailFor h (Nat.lt_of_succ_lt hlen)] at hf
        exact get_eq_zero_of_apart h (spare_apart revision _ f hf)

end Instruction

/-! ## From a word to a line -/

/-- What a legal word holds in a slot is a value of the slot's part. -/
theorem Part.InPlace.admits_get {revision : Revision} {kind : OpClass} {field : Field}
    {part : Part} {w : Word} (h : part.InPlace revision field)
    (hclass : Field.get ⟨28, 2⟩ w = kind.code)
    (hopcode : part = .opcode → field.get w ∈ (revision.isa.opcodes.table kind).map (·.2))
    (hcondition : part = .condition → field.get w ∈ 0 :: revision.isa.conditions.map (·.2)) :
    part.Admits revision.isa kind (field.get w) := by
  intro choices hchoices
  cases part with
  | immediate | writeEnable | signed | setFlags | predicate =>
      obtain rfl := Option.some.inj hchoices
      simpa using Field.get_of_width_one h w
  | opClass =>
      obtain rfl := Option.some.inj hchoices
      rw [show field = ⟨28, 2⟩ from h]
      exact List.mem_singleton.mpr hclass
  | opcode =>
      obtain rfl := Option.some.inj hchoices
      exact hopcode rfl
  | condition =>
      obtain rfl := Option.some.inj hchoices
      exact hcondition rfl
  | register _ | offset => cases hchoices

namespace Revision

variable {revision : Revision} {kind : OpClass} {w : Word}

/-- A line with a mnemonic. -/
theorem encodeTokens_spelled_full (hclass : Field.get ⟨28, 2⟩ w = kind.code)
    (hopcode : Field.get ⟨24, 4⟩ w ∈ (revision.isa.opcodes.table kind).map (·.2))
    (hcondition : ∀ f ∈ revision.conditionField?,
      f.get w ∈ 0 :: revision.isa.conditions.map (·.2))
    (hspare : ∀ f ∈ revision.spareFields (revision.isa.tailFor kind), f.get w = 0) :
    (Encoder.mk revision .strict).encodeTokens (revision.spelled kind w 11)
      = .ok ⟨w, []⟩ := by
  rw [encodeTokens_spelled revision kind w (by decide) (List.append_nil _).symm
    (token_lt_eleven revision _) (fun t ht => by cases ht) fun s hs => ?_,
    Field.and_cover_eq_self (cover_shape ..) hspare]
  have hplace := shape_inPlace revision _ s hs
  refine hplace.admits_get hclass (fun hpart => ?_) (fun hpart => ?_)
  · rw [hpart] at hplace
    rw [show s.2.field = ⟨24, 4⟩ from hplace]
    exact hopcode
  · rw [hpart] at hplace
    exact hcondition _ hplace

/-- A line that ends with its class. -/
theorem encodeTokens_spelled_header (hclass : Field.get ⟨28, 2⟩ w = kind.code)
    (hopcode : Field.get ⟨24, 4⟩ w = 0) (hrest : Field.get ⟨0, 24⟩ w = 0) :
    (Encoder.mk revision .strict).encodeTokens (revision.spelled kind w 3)
      = .ok ⟨w, []⟩ := by
  have hsplit := Instruction.slotsBelow_append 3
    (revision.isa.layout.shape (revision.isa.tailFor kind))
  have hspare : ∀ f ∈ [⟨24, 4⟩, ⟨0, 24⟩], Field.get f w = 0 := by
    intro f hf
    rcases List.mem_cons.mp hf with rfl | hf
    · exact hopcode
    · rw [List.mem_singleton.mp hf]
      exact hrest
  rw [encodeTokens_spelled revision kind w (by decide) hsplit.symm
    (fun s hs => (header_slots revision _ s hs).1) (three_le_token revision _) fun s hs => ?_,
    Field.and_cover_eq_self (cover_header ..) hspare]
  obtain ⟨-, hnotOpcode, hnotCondition, -⟩ := header_slots revision _ s hs
  have hplace := shape_inPlace revision _ s (hsplit ▸ List.mem_append_left _ hs)
  exact hplace.admits_get hclass (fun hpart => absurd hpart hnotOpcode)
    fun hpart => absurd hpart hnotCondition

/-- The word of a blank line. -/
theorem legalWord_zero (revision : Revision) : revision.LegalWord 0 :=
  ⟨.alu, OpClass.mem_all _, rfl, Or.inr ⟨rfl, rfl⟩⟩

/-- **The image of strict encoding.** A word is what some instruction line
encodes to without a fault exactly if it is legal. -/
theorem exists_line_iff_legalWord (revision : Revision) (w : Word) :
    (∃ tokens : List String, tokens.head? ∉ [some "di", some "dh", some "df"]
        ∧ ((Encoder.mk revision .strict).encodeTokens tokens).map Encoded.word = .ok w)
      ↔ revision.LegalWord w := by
  constructor
  · rintro ⟨tokens, hhead, hword⟩
    by_cases hlen : tokens.length ≤ 1
    · rw [Encoder.encodeTokens_blank hlen] at hword
      obtain rfl := Except.ok.inj hword
      exact legalWord_zero revision
    · cases hencoded : (Encoder.mk revision .strict).encodeTokens tokens with
      | error e =>
          rw [hencoded] at hword
          cases hword
      | ok encoded =>
          obtain ⟨word, ws⟩ := encoded
          rw [hencoded] at hword
          obtain rfl := Except.ok.inj hword
          rw [Encoder.encodeTokens_instruction (by omega) (Line.isDirective_of_head? hhead),
            Finding.encoded_eq_ok] at hencoded
          obtain ⟨hclean, hstrict⟩ := hencoded
          rw [hstrict rfl] at hclean
          exact Instruction.legalWord_of_word hclean
  · rintro ⟨kind, -, hclass, ⟨hopcode, hcondition, hspare⟩ | ⟨hopcode, hrest⟩⟩
    · refine ⟨revision.spelled kind w 11, head?_spelled revision kind w, ?_⟩
      rw [encodeTokens_spelled_full hclass hopcode hcondition hspare]
      rfl
    · refine ⟨revision.spelled kind w 3, head?_spelled revision kind w, ?_⟩
      rw [encodeTokens_spelled_header hclass hopcode hrest]
      rfl

/-- In the refined revision the inverse of no condition is no condition, and
a control word without an opcode holds nothing else. -/
example : Revision.v2.LegalWord 0x0200080C ∧ ¬ Revision.v2.LegalWord 0x02000808
    ∧ Revision.v2.LegalWord 0x10000000 ∧ ¬ Revision.v2.LegalWord 0x10100000 := by
  decide

end Revision

end LineAsm
