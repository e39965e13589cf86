import LineAsm.Proofs.Shapes

/-!
# Lines that are cut short

A line that ends early encodes to the word of the whole line, masked to
the fields of the tokens that are left, and what it warns about is a
first part of what the whole line warns about (`encodeTokens_take`).

Cutting the line is cutting the shape: the slots beyond the cut find no
token (`values_take`). What is left is a statement about one line and
two shapes, of which one is a first part of the other. Along the longer
shape the same values are read first (`values_append`), and as the
slots of a shape share no bit, masking the joined word takes away the
later values and nothing else (`join_and_cover`).
-/

namespace LineAsm

namespace Instruction

/-! ## Masking a joined word -/

theorem join_and_of_within {bits : Word} {ps : List (Field × Word)}
    (h : ∀ p ∈ ps, p.1.mask &&& bits = p.1.mask) : join ps &&& bits = join ps := by
  induction ps with
  | nil => exact BitVec.zero_and
  | cons p ps ih =>
      have hp : p.1.place p.2 &&& bits = p.1.place p.2 := by
        rw [← p.1.place_and_mask p.2, BitVec.and_assoc, h p (List.mem_cons_self ..)]
      rw [join_cons, BitVec.and_or_distrib_right, hp,
        ih fun q hq => h q (List.mem_cons_of_mem _ hq)]

theorem join_and_of_apart {bits : Word} {ps : List (Field × Word)}
    (h : ∀ p ∈ ps, p.1.mask &&& bits = 0) : join ps &&& bits = 0 := by
  induction ps with
  | nil => exact BitVec.zero_and
  | cons p ps ih =>
      have hp : p.1.place p.2 &&& bits = 0 := by
        rw [← p.1.place_and_mask p.2, BitVec.and_assoc, h p (List.mem_cons_self ..)]
        exact BitVec.and_zero
      rw [join_cons, BitVec.and_or_distrib_right, hp,
        ih fun q hq => h q (List.mem_cons_of_mem _ hq)]
      rfl

/-- A joined word is zero outside the fields of its slots. -/
theorem join_placed_and_cover (slots : List (Part × Slot)) (vs : List PartValue) :
    join (placed slots vs) &&& Field.cover (slots.map (·.2.field)) = join (placed slots vs) := by
  refine join_and_of_within fun p hp => ?_
  obtain ⟨s, hs, hfield⟩ := mem_placed hp
  rw [hfield]
  exact Field.mask_and_cover (List.mem_map.mpr ⟨s, hs, rfl⟩)

/-- Masking with the fields of the first slots takes away what the later
slots placed. -/
theorem join_and_cover {as bs : List (Part × Slot)}
    (h : ∀ s ∈ as, ∀ t ∈ bs, s.2.field.Apart t.2.field) (xs ys : List PartValue) :
    join (placed as xs ++ placed bs ys) &&& Field.cover (as.map (·.2.field))
      = join (placed as xs) := by
  have hsecond : join (placed bs ys) &&& Field.cover (as.map (·.2.field)) = 0 := by
    refine join_and_of_apart fun p hp => Field.and_cover_eq_zero fun f hf => ?_
    obtain ⟨t, ht, hfield⟩ := mem_placed hp
    obtain ⟨s, hs, rfl⟩ := List.mem_map.mp hf
    rw [hfield]
    exact (h s hs t ht).symm
  rw [join_append, BitVec.and_or_distrib_right, join_placed_and_cover, hsecond]
  exact BitVec.or_zero

/-! ## Cutting the shape -/

/-- The values along a first part of a shape. -/
theorem values_append {isa : Isa} {kind : OpClass} {tokens : List String} :
    ∀ {as bs : List (Part × Slot)} {vs : List PartValue} {ws : List Warning},
      values isa kind tokens (as ++ bs) = ⟨.ok vs, ws⟩ →
      ∃ fewer, fewer <+: ws ∧ values isa kind tokens as = ⟨.ok (vs.take as.length), fewer⟩
  | [], _, _, _, _ => ⟨[], List.nil_prefix, rfl⟩
  | (part, slot) :: as, bs, vs, ws, h => by
      cases htoken : tokens[slot.token]? with
      | none =>
          rw [List.cons_append, values_cons_none htoken] at h
          obtain ⟨⟨⟩, rfl⟩ := Finding.mk.injEq .. |>.mp h
          exact ⟨[], List.nil_prefix, by rw [values_cons_none htoken]; rfl⟩
      | some token =>
          rw [List.cons_append, values_cons_some htoken, Finding.bind_eq_ok] at h
          obtain ⟨v, ws₁, ws₂, hv, hrest, rfl⟩ := h
          obtain ⟨vs, hvs, rfl⟩ := Finding.map_eq_ok.mp hrest
          obtain ⟨fewer, hfewer, has⟩ := values_append hvs
          refine ⟨ws₁ ++ fewer, (List.prefix_append_right_inj ws₁).mpr hfewer, ?_⟩
          rw [values_cons_some htoken, hv, has]
          rfl

/-- The slots that the first `k` tokens reach. -/
def slotsBelow (k : Nat) (slots : List (Part × Slot)) : List (Part × Slot) :=
  slots.takeWhile (·.2.token < k)

theorem values_take (isa : Isa) (kind : OpClass) (tokens : List String) (k : Nat) :
    ∀ slots : List (Part × Slot),
      values isa kind (tokens.take k) slots = values isa kind tokens (slotsBelow k slots)
  | [] => rfl
  | (part, slot) :: rest => by
      by_cases hk : slot.token < k
      · have hcut : (tokens.take k)[slot.token]? = tokens[slot.token]? :=
          List.getElem?_take_of_lt hk
        have hbelow : slotsBelow k ((part, slot) :: rest)
            = (part, slot) :: slotsBelow k rest := by simp [slotsBelow, hk]
        rw [hbelow]
        cases htoken : tokens[slot.token]? with
        | none => rw [values_cons_none htoken, values_cons_none (hcut.trans htoken)]
        | some token =>
            rw [values_cons_some htoken, values_cons_some (hcut.trans htoken),
              values_take isa kind tokens k rest]
      · have hcut : (tokens.take k)[slot.token]? = none := by
          simp
          omega
        have hbelow : slotsBelow k ((part, slot) :: rest) = [] := by simp [slotsBelow, hk]
        rw [hbelow, values_cons_none hcut]
        rfl

theorem slotsBelow_append (k : Nat) (slots : List (Part × Slot)) :
    slotsBelow k slots ++ slots.dropWhile (·.2.token < k) = slots :=
  List.takeWhile_append_dropWhile ..

theorem slotsBelow_eq_filter {k : Nat} : ∀ {slots : List (Part × Slot)},
    slots.Pairwise (fun s t => s.2.Precedes t.2) →
      slotsBelow k slots = slots.filter (·.2.token < k)
  | [], _ => rfl
  | s :: slots, h => by
      rw [List.pairwise_cons] at h
      by_cases hk : s.2.token < k
      · rw [slotsBelow, List.takeWhile_cons_of_pos (by simpa using hk),
          List.filter_cons_of_pos (by simpa using hk)]
        exact congrArg (s :: ·) (slotsBelow_eq_filter h.2)
      · have hlater : slots.filter (·.2.token < k) = [] := by
          rw [List.filter_eq_nil_iff]
          intro t ht
          have := (h.1 t ht).1
          simp only [decide_eq_true_eq]
          omega
        rw [slotsBelow, List.takeWhile_cons_of_neg (by simpa using hk),
          List.filter_cons_of_neg (by simpa using hk), hlater]

/-- The word along a first part of a shape is the masked word along the
whole. -/
theorem word_append {isa : Isa} {kind : OpClass} {tokens : List String}
    {as bs : List (Part × Slot)} (hapart : ∀ s ∈ as, ∀ t ∈ bs, s.2.field.Apart t.2.field)
    {w : Word} {ws : List Warning} (h : word isa kind tokens (as ++ bs) = ⟨.ok w, ws⟩) :
    ∃ fewer, fewer <+: ws ∧
      word isa kind tokens as = ⟨.ok (w &&& Field.cover (as.map (·.2.field))), fewer⟩ := by
  obtain ⟨vs, hvs, rfl⟩ := Finding.map_eq_ok.mp h
  obtain ⟨fewer, hfewer, has⟩ := values_append hvs
  refine ⟨fewer, hfewer, Finding.map_eq_ok.mpr ⟨_, has, ?_⟩⟩
  rw [placed_split, join_and_cover hapart]

/-- The word along the slots that `k` tokens reach is the masked word of
the whole line. -/
theorem word_slotsBelow (revision : Revision) {kind : OpClass} {tokens : List String}
    {tail : Tail} {w : Word} {ws : List Warning}
    (h : word revision.isa kind tokens (revision.isa.layout.shape tail) = ⟨.ok w, ws⟩)
    (k : Nat) :
    ∃ fewer, fewer <+: ws ∧
      word revision.isa kind tokens (slotsBelow k (revision.isa.layout.shape tail))
        = ⟨.ok (w &&& Field.cover
            ((slotsBelow k (revision.isa.layout.shape tail)).map (·.2.field))), fewer⟩ := by
  have hsplit := slotsBelow_append k (revision.isa.layout.shape tail)
  have hordered := shape_ordered revision tail
  rw [← hsplit, List.pairwise_append] at hordered
  rw [← hsplit] at h
  exact word_append (fun s hs t ht => (hordered.2.2 s hs t ht).2) h

theorem word_take {isa : Isa} {kind : OpClass} {tokens : List String} {k : Nat}
    {slots : List (Part × Slot)} :
    word isa kind (tokens.take k) slots = word isa kind tokens (slotsBelow k slots) := by
  rw [word, word, values_take]
  refine Finding.map_congr fun vs hvs => congrArg join ?_
  calc placed slots vs
      = placed (slotsBelow k slots ++ slots.dropWhile (·.2.token < k)) vs := by
        rw [slotsBelow_append]
    _ = placed (slotsBelow k slots) vs := placed_append_left (values_fill hvs).length_le

/-- A line cut after at least two tokens is read along the slots below
the cut, under the class and with the tail of the whole line. -/
theorem word_cut (revision : Revision) {tokens : List String} {k : Nat} (hk : 2 ≤ k)
    (hlen : k ≤ tokens.length) :
    word revision.isa (classOf (tokens.take k)) (tokens.take k)
        (shapeOf revision.isa (tokens.take k))
      = word revision.isa (classOf tokens) tokens
          (slotsBelow k (shapeOf revision.isa tokens)) := by
  by_cases hclass : classToken < k
  · have hsame : (tokens.take k)[classToken]? = tokens[classToken]? :=
      List.getElem?_take_of_lt hclass
    rw [classOf, shapeOf, hsame, word_take]
    rfl
  · obtain rfl : k = 2 := by
      rw [classToken] at hclass
      omega
    rcases tokens with _ | ⟨_, _ | ⟨_, _⟩⟩
    · cases hlen
    · simp at hlen
    · rfl

end Instruction

/-! ## Cutting a line -/

/-- The bits of a line's word that its first `k` tokens decide. -/
def reachedBits (revision : Revision) (tokens : List String) (k : Nat) : Word :=
  if k ≤ 1 then 0
  else if Line.isDirective tokens then BitVec.allOnes 32
  else Field.cover (((revision.slots (revision.tail tokens)).filter (·.token < k)).map (·.field))

theorem reachedBits_eq {revision : Revision} {tokens : List String} {k : Nat} (hk : 2 ≤ k)
    (hline : Line.isDirective tokens = false) :
    reachedBits revision tokens k = Field.cover
      ((Instruction.slotsBelow k (Instruction.shapeOf revision.isa tokens)).map (·.2.field)) := by
  rw [reachedBits, if_neg (by omega), hline, if_neg Bool.false_ne_true, shapeOf_eq,
    Instruction.slotsBelow_eq_filter (shape_ordered ..), ← shape_slots, List.filter_map,
    List.map_map]
  rfl

/-- Truncation, before the mode comes in. -/
theorem Line.finding_take {revision : Revision} {tokens : List String} {word : Word}
    {warnings : List Warning}
    (h : (Line.finding revision.isa tokens).map (Line.word revision.isa)
      = ⟨.ok word, warnings⟩)
    {k : Nat} (hk : k ≤ tokens.length) :
    ∃ fewer, fewer <+: warnings ∧
      (Line.finding revision.isa (tokens.take k)).map (Line.word revision.isa)
        = ⟨.ok (word &&& reachedBits revision tokens k), fewer⟩ := by
  match tokens, k with
  | _, 0 => exact ⟨[], List.nil_prefix, by simp [reachedBits, Line.finding]; rfl⟩
  | _ :: _, 1 => exact ⟨[], List.nil_prefix, by simp [reachedBits, Line.finding]; rfl⟩
  | head :: literal :: rest, n + 2 =>
      rw [List.take_succ_cons, List.take_succ_cons]
      cases hmarker : Directive.Kind.ofMarker? head with
      | some kind =>
          have hline : Line.isDirective (head :: literal :: rest) = true := by
            rw [← Bool.not_eq_false, ← ofMarker?_eq_none_iff, hmarker]
            simp
          have hbits : reachedBits revision (head :: literal :: rest) (n + 2)
              = BitVec.allOnes 32 := by
            rw [reachedBits, if_neg (by omega), hline, if_pos rfl]
          rw [Line.finding, hmarker] at h
          rw [Line.finding, hmarker, hbits, BitVec.and_allOnes]
          exact ⟨warnings, List.prefix_refl _, h⟩
      | none =>
          have hline : Line.isDirective (head :: literal :: rest) = false :=
            ofMarker?_eq_none_iff.mp hmarker
          have hcut := Instruction.word_cut revision (Nat.le_add_left 2 n) hk
          rw [List.take_succ_cons, List.take_succ_cons] at hcut
          rw [Line.finding_word hmarker] at h ⊢
          rw [hcut, reachedBits_eq (Nat.le_add_left 2 n) hline]
          rw [shapeOf_eq] at h ⊢
          exact Instruction.word_slotsBelow revision h (n + 2)

/-- **Truncation.** A line that encodes also encodes when it is cut short.
Its word is then the word of the whole line in the bits that the tokens
left decide, and zero elsewhere; and its warnings come first among those
of the whole line. -/
theorem Encoder.encodeTokens_take (encoder : Encoder) (tokens : List String) (k : Nat)
    (hk : k ≤ tokens.length) {word : Word} {warnings : List Warning}
    (h : encoder.encodeTokens tokens = .ok ⟨word, warnings⟩) :
    ∃ fewer, fewer <+: warnings ∧
      encoder.encodeTokens (tokens.take k)
        = .ok ⟨word &&& reachedBits encoder.revision tokens k, fewer⟩ := by
  obtain ⟨revision, mode⟩ := encoder
  rw [encodeTokens_eq, Finding.encoded_eq_ok] at h
  obtain ⟨hword, hstrict⟩ := h
  suffices hcut : ∃ fewer, fewer <+: warnings ∧
      (Line.finding revision.isa (tokens.take k)).map (Line.word revision.isa)
        = ⟨.ok (word &&& reachedBits revision tokens k), fewer⟩ by
    obtain ⟨fewer, hfewer, hcut⟩ := hcut
    refine ⟨fewer, hfewer, ?_⟩
    rw [encodeTokens_eq, Finding.encoded_eq_ok]
    exact ⟨hcut, fun hmode => List.prefix_nil.mp (hstrict hmode ▸ hfewer)⟩
  exact Line.finding_take hword hk

/-- An early line with two faults, cut after its set-flags token: the
register is still too large, and the unknown condition is gone. -/
theorem Encoder.encodeTokens_take_nine :
    (Encoder.mk .v1 .lenient).encodeTokens
        ["i", "1", "a", "add", "r1", "r99", "r3", "s", "sf", "?", "never"]
      = .ok ⟨0xC4133C00#32, [.registerOutOfRange 1 99 15, .unknownCondition "never"]⟩
    ∧ ∃ fewer, fewer <+: [.registerOutOfRange 1 99 15, .unknownCondition "never"] ∧
      (Encoder.mk .v1 .lenient).encodeTokens
          ["i", "1", "a", "add", "r1", "r99", "r3", "s", "sf"]
        = .ok ⟨0xC4133C00#32 &&& 0xFFFFFC00#32, fewer⟩ :=
  ⟨rfl, Encoder.encodeTokens_take ⟨.v1, .lenient⟩
    ["i", "1", "a", "add", "r1", "r99", "r3", "s", "sf", "?", "never"] 9 (by decide) rfl⟩

end LineAsm
