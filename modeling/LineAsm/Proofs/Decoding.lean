import LineAsm.Proofs.Image

/-!
# Decoding the words of full lines

A line that reaches every slot of its shape leaves nothing open: its
word alone tells the instruction. `Instruction.decode` reads the class
bits first, because they decide whether the bits below the registers
hold a signed flag or an offset, and then takes every field for the
value that it holds.

Decoding undoes packing (`decode_pack`) for three reasons:

- no two slots of a shape share a bit, so a field of the word holds what
  its own token gave, up to its width;
- no value is wider than its field (`InPlace.value_and_max`), not even in
  lenient mode, where it is cut or replaced by zero;
- the class of a line with a known marker is in its word, and with it
  the shape.

The last one is why the marker has to be known: a line of an unknown
class has the class bits of the alu class, but takes an offset.
-/

namespace LineAsm

/-! ## Values from words -/

/-- The class with the code. -/
def OpClass.ofCode (code : Word) : OpClass := (all.find? (·.code = code)).getD .alu

theorem OpClass.ofCode_code (kind : OpClass) : ofCode kind.code = kind := by
  cases kind <;> rfl

/-- The value of the part that its field holds as this word. -/
def Part.ofWord (word : Word) : Part → PartValue
  | .immediate => .immediate (word = 1)
  | .writeEnable => .writeEnable (word = 1)
  | .opClass => .opClass (OpClass.ofCode word)
  | .opcode => .opcode word
  | .register index => .register index word
  | .signed => .signed (word = 1)
  | .setFlags => .setFlags (word = 1)
  | .offset => .offset word
  | .condition => .condition word
  | .predicate => .predicate (word = 1)

theorem PartValue.ofWord_word (v : PartValue) : v.part.ofWord v.word = v := by
  cases v with
  | immediate on | writeEnable on | signed on | setFlags on | predicate on => cases on <;> rfl
  | opClass kind => exact congrArg PartValue.opClass kind.ofCode_code
  | opcode | register | offset | condition => rfl

/-! ## Values fit their fields -/

theorem Finding.orWarn_map_result_eq_ok {α β : Type} {found? : Option α} {warning : Warning}
    {fallback : α} {f : α → β} {b : β}
    (h : ((Finding.orWarn found? warning fallback).map f).result = .ok b) :
    b = f (found?.getD fallback) := by
  cases found? <;> exact (Except.ok.inj h).symm

/-- In either mode, what a token gives to a slot is not cut by the width
of the field. -/
theorem Part.InPlace.value_and_max {revision : Revision} {field : Field} {part : Part}
    (h : part.InPlace revision field) {kind : OpClass} {token : String} {v : PartValue}
    (hv : (part.value revision.isa kind field token).result = .ok v) :
    v.word &&& field.max = v.word := by
  cases part with
  | immediate | writeEnable | signed | setFlags | predicate =>
      obtain rfl := Except.ok.inj hv
      refine h.choices_fit kind _ rfl _ ?_
      rw [PartValue.word]
      cases token == _ <;> decide
  | opClass =>
      obtain rfl := Finding.orWarn_map_result_eq_ok hv
      exact h.choices_fit _ _ rfl _ (List.mem_singleton.mpr rfl)
  | opcode =>
      obtain rfl := Finding.orWarn_map_result_eq_ok hv
      cases hfound : revision.isa.opcode? kind token with
      | none => exact BitVec.zero_and
      | some value => exact h.choices_fit kind _ rfl _ (Table.mem_values_of_lookup hfound)
  | register index =>
      obtain ⟨value, -, hvalue⟩ := Finding.bind_result_eq_ok.mp hv
      obtain rfl := Except.ok.inj hvalue
      show value &&& field.max &&& field.max = value &&& field.max
      rw [BitVec.and_assoc, BitVec.and_self]
  | offset =>
      obtain ⟨value, -, hvalue⟩ := Finding.bind_result_eq_ok.mp hv
      obtain rfl := Finding.orWarn_map_result_eq_ok hvalue
      cases hfits : field.fits value with
      | false => exact BitVec.zero_and
      | true => exact Field.and_max_of_fits hfits
  | condition =>
      obtain rfl := Finding.orWarn_map_result_eq_ok hv
      by_cases hempty : token = ""
      · rw [hempty]
        exact BitVec.zero_and
      · cases hfound : revision.isa.condition? token with
        | none =>
            simp only [beq_iff_eq, if_neg hempty]
            exact BitVec.zero_and
        | some value =>
            simp only [beq_iff_eq, if_neg hempty]
            exact h.choices_fit kind _ rfl _
              (List.mem_cons_of_mem _ (Table.mem_values_of_lookup hfound))

namespace Instruction

/-! ## Full lines -/

/-- The values of a line that reaches all slots, given what each slot
must hold. -/
theorem values_eq_map {isa : Isa} {kind : OpClass} {tokens : List String}
    {f : Part × Slot → PartValue} :
    ∀ {slots : List (Part × Slot)} {vs : List PartValue},
      (∀ s ∈ slots, s.2.token < tokens.length) →
      (values isa kind tokens slots).result = .ok vs →
      (∀ s ∈ slots, ∀ token v, tokens[s.2.token]? = some token →
        (s.1.value isa kind s.2.field token).result = .ok v → v = f s) →
      vs = slots.map f
  | [], _, _, h, _ => (Except.ok.inj h).symm
  | (part, slot) :: rest, vs, hreach, h, hvalue => by
      have hslot : slot.token < tokens.length := hreach _ (List.mem_cons_self ..)
      have htoken : tokens[slot.token]? = some tokens[slot.token] :=
        List.getElem?_eq_getElem hslot
      obtain ⟨v, vs, rfl, hv, hvs⟩ := values_cons_result htoken h
      have hhead : v = f (part, slot) := hvalue _ (List.mem_cons_self ..) _ _ htoken hv
      have hrest : vs = rest.map f := values_eq_map
        (fun s hs => hreach s (List.mem_cons_of_mem _ hs)) hvs
        fun s hs => hvalue s (List.mem_cons_of_mem _ hs)
      rw [List.map_cons, hhead, hrest]

/-- The instruction of a full line, from its word. -/
def decode (isa : Isa) (w : Word) : Instruction :=
  let kind := OpClass.ofCode (isa.layout.opClass.get w)
  ((isa.layout.shape (isa.tailFor kind)).map fun s => s.1.ofWord (s.2.field.get w)).foldl put {}

/-- The fields of the joined word hold the values of the line. -/
theorem values_eq_ofWord {revision : Revision} {kind : OpClass} {tail : Tail}
    {tokens : List String} {vs : List PartValue} (hlen : 11 ≤ tokens.length)
    (h : (values revision.isa kind tokens (revision.isa.layout.shape tail)).result = .ok vs) :
    vs = (revision.isa.layout.shape tail).map fun s =>
      s.1.ofWord (s.2.field.get (join (placed (revision.isa.layout.shape tail) vs))) := by
  refine values_eq_map (fun s hs => ?_) h fun s hs token v htoken hv => ?_
  · exact Nat.lt_of_lt_of_le (token_lt_eleven revision tail s hs) hlen
  · rcases get_join_values (shape_ordered revision tail) (shape_inside revision tail) h s hs with
      ⟨hnone, -⟩ | ⟨token', v', htoken', hv', hget⟩
    · rw [htoken] at hnone
      cases hnone
    · obtain rfl := Option.some.inj (htoken.symm.trans htoken')
      obtain rfl := Except.ok.inj (hv.symm.trans hv')
      rw [hget, (shape_inPlace revision tail s hs).value_and_max hv, ← Part.value_part hv,
        PartValue.ofWord_word]

/-- The class bits of a full line hold its class. -/
theorem get_opClass_join {revision : Revision} {tail : Tail} {tokens : List String}
    {vs : List PartValue} (hlen : 11 ≤ tokens.length)
    (h : (values revision.isa (classOf tokens) tokens (revision.isa.layout.shape tail)).result
      = .ok vs) :
    revision.isa.layout.opClass.get (join (placed (revision.isa.layout.shape tail) vs))
      = (classOf tokens).code := by
  have hmem : (.opClass, ⟨classToken, revision.isa.layout.opClass⟩)
      ∈ revision.isa.layout.shape tail := by simp [shape_eq]
  rcases get_join_values (shape_ordered revision tail) (shape_inside revision tail) h _ hmem with
    ⟨hnone, -⟩ | ⟨token, v, htoken, hv, hget⟩
  · rw [List.getElem?_eq_none_iff] at hnone
    simp only [classToken] at hnone
    omega
  · rw [hget, (shape_inPlace revision tail _ hmem).value_and_max hv]
    rw [value_opClass_result htoken] at hv
    obtain rfl := Except.ok.inj hv
    rfl

/-- **Decoding undoes packing**, for the instruction of a full line with a
known class. -/
theorem decode_pack {revision : Revision} {tokens : List String} (hlen : 11 ≤ tokens.length)
    {kind : OpClass} (hkind : tokens[classToken]?.bind OpClass.ofMarker? = some kind)
    {i : Instruction} (h : (finding revision.isa tokens).result = .ok i) :
    decode revision.isa (i.pack revision.isa.layout) = i := by
  obtain ⟨vs, hvs, rfl⟩ := Finding.map_result_eq_ok.mp h
  rw [shapeOf_eq] at hvs
  have hvalues := values_eq_ofWord hlen hvs
  have hpack : pack revision.isa.layout (vs.foldl put {})
      = join (placed (revision.isa.layout.shape (revision.tail tokens)) vs) := by
    match tokens, hlen with
    | _ :: _ :: _, _ =>
        rw [pack, placements_foldl_put (values_fill hvs) (two_le_length_values hvs)]
  have hclass := get_opClass_join hlen hvs
  rw [hpack, decode]
  simp only [hclass, OpClass.ofCode_code]
  rw [classOf_eq hkind, ← tail_eq_of_marker hkind, ← hvalues]

end Instruction

/-! ## Two lines -/

/-- A line of at least two tokens that is no directive is read as an
instruction. -/
theorem Line.instruction_of_runOn {isa : Isa} {tokens : List String} (hlen : 2 ≤ tokens.length)
    (hhead : tokens.head? ∉ [some "di", some "dh", some "df"]) {line : Line}
    (h : ((Line.read isa tokens).runOn (.fresh .lenient)).1 = .ok line) :
    ∃ i, line = .instruction i ∧ (Instruction.finding isa tokens).result = .ok i := by
  match tokens, hlen with
  | head :: literal :: rest, _ =>
      have hmarker : Directive.Kind.ofMarker? head = none :=
        ofMarker?_eq_none_iff.mpr (Line.isDirective_of_head? hhead)
      rw [(Line.read_denotes isa _).lenient_eq_ok, Line.finding, hmarker] at h
      obtain ⟨i, hi, rfl⟩ := Finding.map_result_eq_ok.mp h
      exact ⟨i, rfl, hi⟩

theorem OpClass.exists_marker {tokens : List String}
    (h : tokens[2]? ∈ [some "a", some "c", some "m", some "f"]) :
    ∃ kind, tokens[classToken]?.bind ofMarker? = some kind := by
  simp only [List.mem_cons, List.not_mem_nil, or_false] at h
  rw [classToken]
  rcases h with h | h | h | h <;> exact ⟨_, by rw [h]; rfl⟩

/-- **Full words are uniquely decodable.** Two full lines of known classes
that are accepted are instructions, and if these pack to one word, they
are the same instruction. -/
theorem Line.instructions_eq_of_pack_eq (revision : Revision) (tokens₁ tokens₂ : List String)
    (hlen₁ : 11 ≤ tokens₁.length) (hlen₂ : 11 ≤ tokens₂.length)
    (hhead₁ : tokens₁.head? ∉ [some "di", some "dh", some "df"])
    (hhead₂ : tokens₂.head? ∉ [some "di", some "dh", some "df"])
    (hclass₁ : tokens₁[2]? ∈ [some "a", some "c", some "m", some "f"])
    (hclass₂ : tokens₂[2]? ∈ [some "a", some "c", some "m", some "f"])
    {line₁ line₂ : Line}
    (h₁ : ((Line.read revision.isa tokens₁).runOn (.fresh .lenient)).1 = .ok line₁)
    (h₂ : ((Line.read revision.isa tokens₂).runOn (.fresh .lenient)).1 = .ok line₂) :
    ∃ i₁ i₂, line₁ = .instruction i₁ ∧ line₂ = .instruction i₂ ∧
      (i₁.pack revision.isa.layout = i₂.pack revision.isa.layout → i₁ = i₂) := by
  obtain ⟨i₁, rfl, hi₁⟩ := Line.instruction_of_runOn (by omega) hhead₁ h₁
  obtain ⟨i₂, rfl, hi₂⟩ := Line.instruction_of_runOn (by omega) hhead₂ h₂
  obtain ⟨kind₁, hkind₁⟩ := OpClass.exists_marker hclass₁
  obtain ⟨kind₂, hkind₂⟩ := OpClass.exists_marker hclass₂
  refine ⟨i₁, i₂, rfl, rfl, fun hpack => ?_⟩
  calc i₁
      = Instruction.decode revision.isa (i₁.pack revision.isa.layout) :=
        (Instruction.decode_pack hlen₁ hkind₁ hi₁).symm
    _ = Instruction.decode revision.isa (i₂.pack revision.isa.layout) := by rw [hpack]
    _ = i₂ := Instruction.decode_pack hlen₂ hkind₂ hi₂

/-- Two early lines that look different: a register that is too large and
one that is not, and two names of one condition. -/
theorem Line.instructions_eq_of_pack_eq_twins :
    ∃ i₁ i₂,
      ((Line.read Revision.v1.isa
          ["i", "1", "a", "add", "r17", "r2", "r3", "s", "sf", "?", "eq"]).runOn
            (.fresh .lenient)).1 = .ok (.instruction i₁)
      ∧ ((Line.read Revision.v1.isa
          ["i", "1", "a", "add", "r1", "+2", "x03", "s", "sf", "", "z", "end"]).runOn
            (.fresh .lenient)).1 = .ok (.instruction i₂)
      ∧ i₁.pack Revision.v1.isa.layout = 0xC4123C04#32
      ∧ i₂.pack Revision.v1.isa.layout = 0xC4123C04#32
      ∧ i₁ = i₂ := by
  obtain ⟨i₁, i₂, h₁, h₂, heq⟩ := Line.instructions_eq_of_pack_eq .v1
    ["i", "1", "a", "add", "r17", "r2", "r3", "s", "sf", "?", "eq"]
    ["i", "1", "a", "add", "r1", "+2", "x03", "s", "sf", "", "z", "end"]
    (by decide) (by decide) (by decide) (by decide) (by decide) (by decide) rfl rfl
  obtain rfl := Line.instruction.inj h₁
  obtain rfl := Line.instruction.inj h₂
  exact ⟨_, _, rfl, rfl, rfl, rfl, heq rfl⟩

end LineAsm
