import LineAsm.Proofs.Truncation

/-!
# What one token can change

A token is read by at most one slot, so a change of one token changes
the bits of that slot and no others (`encodeTokens_local`). The class
token is the exception: besides its own bits it picks the table of the
mnemonic and the tail of the line, and with them everything but the
flags and the registers may change.

The two lines are compared bit by bit. A bit of the word belongs to at
most one slot of a line. If this slot is in both lines and finds the
same token there, it holds the same value (`get_word_eq`); and a bit
that belongs to no slot of either line is zero in both words. What is
left are the bits that the changed token feeds (`shared_of_unfed`).

A token that no slot looks at can change nothing at all, not even which
fault is reported: both lines are read through the same slots, and
these find the same tokens (`word_congr`).
-/

namespace LineAsm

/-! ## Positions and bits -/

/-- The fields that the token at the position may change. -/
def Revision.fedFields : Revision → Tail → Nat → List Field
  | _, _, 0 => [⟨31, 1⟩]
  | _, _, 1 => [⟨30, 1⟩]
  | _, _, 2 => [⟨24, 6⟩, ⟨0, 12⟩]
  | _, _, 3 => [⟨24, 4⟩]
  | .v3, _, _ => []
  | _, _, 4 => [⟨20, 4⟩]
  | _, _, 5 => [⟨16, 4⟩]
  | _, _, 6 => [⟨12, 4⟩]
  | _, .signed, 7 => [⟨11, 1⟩]
  | _, .offset, 7 => [⟨4, 8⟩]
  | .v1, .signed, 8 => [⟨10, 1⟩]
  | .v1, .signed, 10 => [⟨0, 4⟩]
  | .v1, .offset, 9 => [⟨0, 4⟩]
  | .v2, _, 8 => [⟨1, 3⟩]
  | .v2, _, 9 => [⟨0, 1⟩]
  | _, _, _ => []

/-- No slot of the line looks at the position. -/
def Revision.Unread : Revision → Tail → Nat → Prop
  | .v1, .signed, p => p = 9 ∨ 11 ≤ p
  | .v1, .offset, p => p = 8 ∨ 10 ≤ p
  | .v2, _, p => 10 ≤ p
  | .v3, _, p => 4 ≤ p

theorem Revision.unread_iff {revision : Revision} {tail : Tail} {p : Nat} :
    revision.Unread tail p ↔ ∀ s ∈ revision.slots tail, s.token ≠ p := by
  cases revision <;> cases tail <;>
    simp [Unread, slots, headerSlots, registerSlots] <;> omega

theorem class_mem_slots (revision : Revision) (tail : Tail) :
    ⟨2, ⟨28, 2⟩⟩ ∈ revision.slots tail := by
  cases revision <;> cases tail <;> decide

theorem Revision.fedFields_eq {p : Nat} (hp : p ≠ 2) (revision : Revision) (tail : Tail) :
    revision.fedFields tail p = ((revision.slots tail).filter (·.token = p)).map (·.field) := by
  match p with
  | 2 => exact absurd rfl hp
  | 0 | 1 | 3 | 4 | 5 | 6 | 7 | 8 | 9 | 10 | n + 11 => cases revision <;> cases tail <;> rfl

/-- A slot that reads the position lies within the fields that the
position feeds. -/
theorem mask_and_fed {revision : Revision} {tail : Tail} {p : Nat} (hp : p ≠ 2)
    {s : Part × Slot} (hs : s ∈ revision.isa.layout.shape tail) (htoken : s.2.token = p) :
    s.2.field.mask &&& Field.cover (revision.fedFields tail p) = s.2.field.mask := by
  apply Field.mask_and_cover
  rw [Revision.fedFields_eq hp, ← shape_slots]
  refine List.mem_map.mpr ⟨s.2, List.mem_filter.mpr ⟨?_, decide_eq_true htoken⟩, rfl⟩
  exact List.mem_map.mpr ⟨s, hs, rfl⟩

/-- Under another class, a slot stays where it is and is read as before,
or it lies within the fields that the class token feeds. -/
theorem shared_or_fed (revision : Revision) (tail tail' : Tail) :
    ∀ s ∈ revision.isa.layout.shape tail,
      (s ∈ revision.isa.layout.shape tail' ∧ s.2.token ≠ 2 ∧ s.1 ≠ .opcode)
        ∨ s.2.field.mask &&& Field.cover (revision.fedFields tail 2) = s.2.field.mask := by
  cases revision <;> cases tail <;> cases tail' <;> decide

theorem Field.getLsbD_eq_of_get_eq {f : Field} {w₁ w₂ : Word} (h : f.get w₁ = f.get w₂)
    {n : Nat} (hn : f.mask.getLsbD n = true) : w₁.getLsbD n = w₂.getLsbD n := by
  have hmasked : (w₁ &&& f.mask).getLsbD n = (w₂ &&& f.mask).getLsbD n := by
    rw [← f.place_get, ← f.place_get, h]
  rw [BitVec.getLsbD_and, BitVec.getLsbD_and, hn, Bool.and_true, Bool.and_true] at hmasked
  exact hmasked

/-- A bit outside some fields is outside each field that lies within
them. -/
theorem Field.getLsbD_mask_eq_false {f : Field} {bits : Word} (h : f.mask &&& bits = f.mask)
    {n : Nat} (hn : bits.getLsbD n = false) : f.mask.getLsbD n = false := by
  rw [← h, BitVec.getLsbD_and, hn, Bool.and_false]

namespace Instruction

/-! ## Two lines, slot by slot -/

/-- Only the opcode depends on the class. -/
theorem value_congr_class {isa : Isa} {kind₁ kind₂ : OpClass} {field : Field} {token : String}
    {part : Part} (h : part = .opcode → kind₁ = kind₂) :
    part.value isa kind₁ field token = part.value isa kind₂ field token := by
  cases part with
  | opcode => rw [h rfl]
  | _ => rfl

theorem values_congr {isa : Isa} {kind : OpClass} {tokens₁ tokens₂ : List String} :
    ∀ {slots : List (Part × Slot)},
      (∀ s ∈ slots, tokens₁[s.2.token]? = tokens₂[s.2.token]?) →
      values isa kind tokens₁ slots = values isa kind tokens₂ slots
  | [], _ => rfl
  | (part, slot) :: rest, h => by
      have hslot : tokens₁[slot.token]? = tokens₂[slot.token]? := h _ (List.mem_cons_self ..)
      have hrest : values isa kind tokens₁ rest = values isa kind tokens₂ rest :=
        values_congr fun s hs => h s (List.mem_cons_of_mem _ hs)
      cases htoken : tokens₁[slot.token]? with
      | none => rw [values_cons_none htoken, values_cons_none (hslot ▸ htoken)]
      | some token => rw [values_cons_some htoken, values_cons_some (hslot ▸ htoken), hrest]

theorem word_congr {isa : Isa} {kind : OpClass} {tokens₁ tokens₂ : List String}
    {slots : List (Part × Slot)}
    (h : ∀ s ∈ slots, tokens₁[s.2.token]? = tokens₂[s.2.token]?) :
    word isa kind tokens₁ slots = word isa kind tokens₂ slots := by
  rw [word, word, values_congr h]

section TwoLines

variable {revision : Revision} {kind₁ kind₂ : OpClass} {tail₁ tail₂ : Tail}
  {tokens₁ tokens₂ : List String} {w₁ w₂ : Word} {ws₁ ws₂ : List Warning}

/-- A slot that both lines have holds the same value in both words if it
finds the same token. -/
theorem get_word_eq
    (h₁ : word revision.isa kind₁ tokens₁ (revision.isa.layout.shape tail₁) = ⟨.ok w₁, ws₁⟩)
    (h₂ : word revision.isa kind₂ tokens₂ (revision.isa.layout.shape tail₂) = ⟨.ok w₂, ws₂⟩)
    {s : Part × Slot} (hs₁ : s ∈ revision.isa.layout.shape tail₁)
    (hs₂ : s ∈ revision.isa.layout.shape tail₂)
    (htoken : tokens₁[s.2.token]? = tokens₂[s.2.token]?)
    (hkind : s.1 = .opcode → kind₁ = kind₂) :
    s.2.field.get w₁ = s.2.field.get w₂ := by
  obtain ⟨vs₁, hvs₁, rfl⟩ := Finding.map_eq_ok.mp h₁
  obtain ⟨vs₂, hvs₂, rfl⟩ := Finding.map_eq_ok.mp h₂
  rcases get_join_values (shape_ordered revision tail₁) (shape_inside revision tail₁)
      (congrArg Finding.result hvs₁) s hs₁ with ⟨hnone₁, hget₁⟩ | ⟨t₁, v₁, ht₁, hv₁, hget₁⟩ <;>
    rcases get_join_values (shape_ordered revision tail₂) (shape_inside revision tail₂)
      (congrArg Finding.result hvs₂) s hs₂ with ⟨hnone₂, hget₂⟩ | ⟨t₂, v₂, ht₂, hv₂, hget₂⟩
  · rw [hget₁, hget₂]
  · rw [← htoken, hnone₁] at ht₂
    cases ht₂
  · rw [htoken, hnone₂] at ht₁
    cases ht₁
  · obtain rfl := Option.some.inj (ht₁.symm.trans (htoken.trans ht₂))
    rw [value_congr_class hkind] at hv₁
    obtain rfl := Except.ok.inj (hv₁.symm.trans hv₂)
    rw [hget₁, hget₂]

theorem getLsbD_word_eq_false
    (h : word revision.isa kind₁ tokens₁ (revision.isa.layout.shape tail₁) = ⟨.ok w₁, ws₁⟩)
    {n : Nat}
    (hn : ∀ s ∈ revision.isa.layout.shape tail₁, s.2.field.mask.getLsbD n = false) :
    w₁.getLsbD n = false := by
  obtain ⟨vs, -, rfl⟩ := Finding.map_eq_ok.mp h
  rw [← join_placed_and_cover, BitVec.getLsbD_and, Field.getLsbD_cover]
  have hnone : ((revision.isa.layout.shape tail₁).map (·.2.field)).any (·.mask.getLsbD n)
      = false := by
    simpa [List.any_eq_false] using hn
  rw [hnone, Bool.and_false]

/-- A bit is the same in both words if every slot that it belongs to is
in both lines, and finds the same token there. -/
theorem getLsbD_word_eq
    (h₁ : word revision.isa kind₁ tokens₁ (revision.isa.layout.shape tail₁) = ⟨.ok w₁, ws₁⟩)
    (h₂ : word revision.isa kind₂ tokens₂ (revision.isa.layout.shape tail₂) = ⟨.ok w₂, ws₂⟩)
    {n : Nat}
    (hshared₁ : ∀ s ∈ revision.isa.layout.shape tail₁, s.2.field.mask.getLsbD n = true →
      s ∈ revision.isa.layout.shape tail₂ ∧ tokens₁[s.2.token]? = tokens₂[s.2.token]?
        ∧ (s.1 = .opcode → kind₁ = kind₂))
    (hshared₂ : ∀ s ∈ revision.isa.layout.shape tail₂, s.2.field.mask.getLsbD n = true →
      s ∈ revision.isa.layout.shape tail₁ ∧ tokens₂[s.2.token]? = tokens₁[s.2.token]?
        ∧ (s.1 = .opcode → kind₂ = kind₁)) :
    w₁.getLsbD n = w₂.getLsbD n := by
  by_cases hbit₁ : ∃ s ∈ revision.isa.layout.shape tail₁, s.2.field.mask.getLsbD n = true
  · obtain ⟨s, hs, hn⟩ := hbit₁
    obtain ⟨hs', htoken, hkind⟩ := hshared₁ s hs hn
    exact Field.getLsbD_eq_of_get_eq (get_word_eq h₁ h₂ hs hs' htoken hkind) hn
  by_cases hbit₂ : ∃ s ∈ revision.isa.layout.shape tail₂, s.2.field.mask.getLsbD n = true
  · obtain ⟨s, hs, hn⟩ := hbit₂
    obtain ⟨hs', htoken, hkind⟩ := hshared₂ s hs hn
    exact (Field.getLsbD_eq_of_get_eq (get_word_eq h₂ h₁ hs hs' htoken hkind) hn).symm
  -- No slot of either line has the bit.
  simp only [not_exists, not_and, Bool.not_eq_true] at hbit₁ hbit₂
  rw [getLsbD_word_eq_false h₁ hbit₁, getLsbD_word_eq_false h₂ hbit₂]

end TwoLines

end Instruction

/-! ## Two lines that differ at one position -/

section OnePosition

variable {revision : Revision} {tokens₁ tokens₂ : List String} {p : Nat}

theorem classOf_congr (h : tokens₁[2]? = tokens₂[2]?) :
    Instruction.classOf tokens₁ = Instruction.classOf tokens₂ := by
  rw [Instruction.classOf, Instruction.classOf, classToken, h]

theorem tail_congr (h : tokens₁[2]? = tokens₂[2]?) :
    revision.tail tokens₁ = revision.tail tokens₂ := by
  rw [Revision.tail, Revision.tail, Revision.isSignedLine, Revision.isSignedLine, h]

/-- What a position feeds is the same for both lines. -/
theorem fedFields_congr (hsame : ∀ j, j ≠ p → tokens₁[j]? = tokens₂[j]?) :
    revision.fedFields (revision.tail tokens₁) p
      = revision.fedFields (revision.tail tokens₂) p := by
  by_cases hp : p = 2
  · subst hp
    cases revision <;> cases Revision.tail _ tokens₁ <;> cases Revision.tail _ tokens₂ <;> rfl
  · rw [tail_congr (hsame 2 (Ne.symm hp))]

/-- A slot with a bit that the position does not feed is in both lines,
and finds the same token there. -/
theorem shared_of_unfed (hsame : ∀ j, j ≠ p → tokens₁[j]? = tokens₂[j]?) {n : Nat}
    (hn : (Field.cover (revision.fedFields (revision.tail tokens₁) p)).getLsbD n = false) :
    ∀ s ∈ revision.isa.layout.shape (revision.tail tokens₁),
      s.2.field.mask.getLsbD n = true →
      s ∈ revision.isa.layout.shape (revision.tail tokens₂)
        ∧ tokens₁[s.2.token]? = tokens₂[s.2.token]?
        ∧ (s.1 = .opcode → Instruction.classOf tokens₁ = Instruction.classOf tokens₂) := by
  intro s hs hbit
  have houtside : ¬ s.2.field.mask &&& Field.cover (revision.fedFields (revision.tail tokens₁) p)
      = s.2.field.mask := by
    intro hwithin
    rw [Field.getLsbD_mask_eq_false hwithin hn] at hbit
    cases hbit
  by_cases hp : p = 2
  · subst hp
    obtain ⟨hs', htoken, hopcode⟩ :=
      (shared_or_fed revision _ (revision.tail tokens₂) s hs).resolve_right houtside
    exact ⟨hs', hsame _ htoken, fun h => absurd h hopcode⟩
  · have hclass : tokens₁[2]? = tokens₂[2]? := hsame 2 (Ne.symm hp)
    refine ⟨tail_congr hclass ▸ hs, hsame _ fun htoken => ?_, fun _ => classOf_congr hclass⟩
    exact houtside (mask_and_fed hp hs htoken)

/-- **Locality.** Two instruction lines that differ at one position only:
their words agree in every bit that the position does not feed, and if
no slot looks at the position, the two results are the same. -/
theorem Encoder.encodeTokens_local (encoder : Encoder) (tokens₁ tokens₂ : List String) (p : Nat)
    (hlen : tokens₁.length = tokens₂.length)
    (hsame : ∀ j, j ≠ p → tokens₁[j]? = tokens₂[j]?)
    (hhead₁ : tokens₁.head? ∉ [some "di", some "dh", some "df"])
    (hhead₂ : tokens₂.head? ∉ [some "di", some "dh", some "df"]) :
    (∀ encoded₁ encoded₂, encoder.encodeTokens tokens₁ = .ok encoded₁ →
      encoder.encodeTokens tokens₂ = .ok encoded₂ →
      ∀ n, (Field.cover (encoder.revision.fedFields (encoder.revision.tail tokens₁) p)).getLsbD n
        = false → encoded₁.word.getLsbD n = encoded₂.word.getLsbD n)
    ∧ (encoder.revision.Unread (encoder.revision.tail tokens₁) p →
      encoder.encodeTokens tokens₁ = encoder.encodeTokens tokens₂) := by
  by_cases hblank : tokens₁.length ≤ 1
  · have hblank₂ : tokens₂.length ≤ 1 := hlen ▸ hblank
    rw [encodeTokens_blank hblank, encodeTokens_blank hblank₂]
    refine ⟨fun encoded₁ encoded₂ h₁ h₂ n _ => ?_, fun _ => rfl⟩
    obtain rfl := Except.ok.inj h₁
    obtain rfl := Except.ok.inj h₂
    rfl
  rw [encodeTokens_instruction (by omega) (Line.isDirective_of_head? hhead₁),
    encodeTokens_instruction (by omega) (Line.isDirective_of_head? hhead₂), shapeOf_eq,
    shapeOf_eq]
  constructor
  · rintro ⟨w₁, ws₁⟩ ⟨w₂, ws₂⟩ h₁ h₂ n hn
    have hword₁ := (Finding.encoded_eq_ok.mp h₁).1
    have hword₂ := (Finding.encoded_eq_ok.mp h₂).1
    refine Instruction.getLsbD_word_eq hword₁ hword₂ (shared_of_unfed hsame hn)
      (shared_of_unfed (fun j hj => (hsame j hj).symm) ?_)
    rw [← fedFields_congr hsame]
    exact hn
  · intro hunread
    have hslots := Revision.unread_iff.mp hunread
    have hp : p ≠ 2 := fun hp => hslots _ (class_mem_slots ..) hp.symm
    have hclass : tokens₁[2]? = tokens₂[2]? := hsame 2 (Ne.symm hp)
    rw [← tail_congr hclass, ← classOf_congr hclass, Instruction.word_congr fun s hs => ?_]
    refine hsame _ (hslots s.2 ?_)
    rw [← shape_slots]
    exact List.mem_map.mpr ⟨s, hs, rfl⟩

/-- A refined line whose class is changed: the mnemonic is unknown in the
other class, and the signed flag becomes an offset. The early line has
a token that no slot looks at. -/
theorem Encoder.encodeTokens_local_class :
    (Encoder.mk .v2 .lenient).encodeTokens
        ["i", "1", "a", "add", "r1", "r2", "r3", "7", "eq", "p"]
      = .ok ⟨0xC2123005#32, []⟩
    ∧ (Encoder.mk .v2 .lenient).encodeTokens
        ["i", "1", "m", "add", "r1", "r2", "r3", "7", "eq", "p"]
      = .ok ⟨0xE0123075#32, [.unknownMnemonic .memory "add"]⟩
    ∧ (∀ n, (Field.cover [⟨24, 6⟩, ⟨0, 12⟩]).getLsbD n = false →
      (0xC2123005#32).getLsbD n = (0xE0123075#32).getLsbD n)
    ∧ (Encoder.mk .v1 .strict).encodeTokens
        ["n", "0", "a", "add", "r1", "r2", "r99", "s", "sf", "", "eq"]
      = (Encoder.mk .v1 .strict).encodeTokens
        ["n", "0", "a", "add", "r1", "r2", "r99", "s", "sf", "?", "eq"] := by
  refine ⟨rfl, rfl, ?_, ?_⟩
  · have hsame : ∀ j, j ≠ 2 →
        ["i", "1", "a", "add", "r1", "r2", "r3", "7", "eq", "p"][j]?
          = ["i", "1", "m", "add", "r1", "r2", "r3", "7", "eq", "p"][j]?
      | 0, _ | 1, _ | _ + 3, _ => rfl
      | 2, h => absurd rfl h
    exact (Encoder.encodeTokens_local ⟨.v2, .lenient⟩
      ["i", "1", "a", "add", "r1", "r2", "r3", "7", "eq", "p"]
      ["i", "1", "m", "add", "r1", "r2", "r3", "7", "eq", "p"] 2 rfl hsame (by decide)
      (by decide)).1 _ _ rfl rfl
  · have hsame : ∀ j, j ≠ 9 →
        ["n", "0", "a", "add", "r1", "r2", "r99", "s", "sf", "", "eq"][j]?
          = ["n", "0", "a", "add", "r1", "r2", "r99", "s", "sf", "?", "eq"][j]?
      | 0, _ | 1, _ | 2, _ | 3, _ | 4, _ | 5, _ | 6, _ | 7, _ | 8, _ | _ + 10, _ => rfl
      | 9, h => absurd rfl h
    exact (Encoder.encodeTokens_local ⟨.v1, .strict⟩
      ["n", "0", "a", "add", "r1", "r2", "r99", "s", "sf", "", "eq"]
      ["n", "0", "a", "add", "r1", "r2", "r99", "s", "sf", "?", "eq"] 9 rfl hsame (by decide)
      (by decide)).2 (Or.inl rfl)

end OnePosition

end LineAsm
