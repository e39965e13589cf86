import LineAsm.Proofs.Packing

/-!
# The shapes of the revisions

The slots of every line, written out: which token feeds which bits.
`Revision.slots` is the table that the layouts of the three revisions
amount to (`shape_slots`), and two facts about it carry the statements
on whole lines: token positions grow along a shape, and no two slots of
a shape share a bit (`shape_ordered`). The second would fail for a
shape that held both tails, since the signed flag and the offset share
their bits.
-/

namespace LineAsm

/-! ## The table -/

-- The starts of all fields below are literals that rest on this.
instance neZero_wordWidth : NeZero 32 := ⟨by decide⟩

def headerSlots : List Slot := [⟨0, ⟨31, 1⟩⟩, ⟨1, ⟨30, 1⟩⟩, ⟨2, ⟨28, 2⟩⟩, ⟨3, ⟨24, 4⟩⟩]

def registerSlots : List Slot := [⟨4, ⟨20, 4⟩⟩, ⟨5, ⟨16, 4⟩⟩, ⟨6, ⟨12, 4⟩⟩]

/-- The slots of a line by revision and tail. After the registers come
the signed flag or the offset, the set-flags flag of the early signed
tail, the condition, and the refined predicate. -/
def Revision.slots : Revision → Tail → List Slot
  | .v1, .signed => headerSlots ++ registerSlots ++ [⟨7, ⟨11, 1⟩⟩, ⟨8, ⟨10, 1⟩⟩, ⟨10, ⟨0, 4⟩⟩]
  | .v1, .offset => headerSlots ++ registerSlots ++ [⟨7, ⟨4, 8⟩⟩, ⟨9, ⟨0, 4⟩⟩]
  | .v2, .signed => headerSlots ++ registerSlots ++ [⟨7, ⟨11, 1⟩⟩, ⟨8, ⟨1, 3⟩⟩, ⟨9, ⟨0, 1⟩⟩]
  | .v2, .offset => headerSlots ++ registerSlots ++ [⟨7, ⟨4, 8⟩⟩, ⟨8, ⟨1, 3⟩⟩, ⟨9, ⟨0, 1⟩⟩]
  | .v3, _ => headerSlots

/-- Does the third token name a class that carries a signed flag? -/
def Revision.isSignedLine (revision : Revision) (tokens : List String) : Bool :=
  (tokens[2]?.bind OpClass.ofMarker?).any revision.isa.isSigned

/-- The tail that a line takes. -/
def Revision.tail (revision : Revision) (tokens : List String) : Tail :=
  if revision.isSignedLine tokens then .signed else .offset

theorem Instruction.classOf_eq {tokens : List String} {kind : OpClass}
    (h : tokens[2]?.bind OpClass.ofMarker? = some kind) : classOf tokens = kind := by
  rw [classOf, classToken, h]
  rfl

theorem shape_slots (revision : Revision) (tail : Tail) :
    (revision.isa.layout.shape tail).map (·.2) = revision.slots tail := by
  cases revision <;> cases tail <;> rfl

theorem shapeOf_eq (revision : Revision) (tokens : List String) :
    Instruction.shapeOf revision.isa tokens
      = revision.isa.layout.shape (revision.tail tokens) := by
  rw [Instruction.shapeOf, Revision.tail, Revision.isSignedLine, classToken]
  cases tokens[2]? with
  | none => rfl
  | some token =>
      rw [Option.elim_some, Isa.tailOf, Option.bind_some]
      cases OpClass.ofMarker? token <;> rfl

/-! ## Order and disjointness -/

/-- The second slot reads a later token and shares no bit. -/
def Slot.Precedes (s t : Slot) : Prop := s.token < t.token ∧ s.field.Apart t.field

instance (s t : Slot) : Decidable (s.Precedes t) :=
  inferInstanceAs (Decidable (_ ∧ _))

/-- The slots after one without a token have no token either. -/
theorem Slot.Precedes.getElem?_eq_none {s t : Slot} (h : s.Precedes t) {tokens : List String}
    (hnone : tokens[s.token]? = none) : tokens[t.token]? = none := by
  rw [List.getElem?_eq_none_iff] at hnone ⊢
  exact Nat.le_trans hnone (Nat.le_of_lt h.1)

theorem slots_ordered (revision : Revision) (tail : Tail) :
    (revision.slots tail).Pairwise Slot.Precedes := by
  cases revision <;> cases tail <;> decide

theorem shape_ordered (revision : Revision) (tail : Tail) :
    (revision.isa.layout.shape tail).Pairwise fun s t => s.2.Precedes t.2 := by
  rw [← List.pairwise_map, shape_slots]
  exact slots_ordered revision tail

theorem slots_inside (revision : Revision) (tail : Tail) :
    ∀ s ∈ revision.slots tail, s.field.shift.val + s.field.width ≤ 32 := by
  cases revision <;> cases tail <;> decide

theorem shape_inside (revision : Revision) (tail : Tail) :
    ∀ s ∈ revision.isa.layout.shape tail, s.2.field.shift.val + s.2.field.width ≤ 32 := by
  intro s hs
  exact slots_inside revision tail s.2 (shape_slots revision tail ▸ List.mem_map.mpr ⟨s, hs, rfl⟩)

/-! ## Reading the fields back -/

namespace Instruction

theorem get_join_of_apart {f : Field} : ∀ {ps : List (Field × Word)},
    (∀ p ∈ ps, p.1.Apart f) → f.get (join ps) = 0
  | [], _ => f.get_zero
  | p :: ps, h => by
      rw [join_cons, f.get_or, (h p (List.mem_cons_self ..)).get_place,
        get_join_of_apart fun q hq => h q (List.mem_cons_of_mem _ hq)]
      rfl

/-- Each slot of an ordered shape holds what its own token gave, and zero
if the line does not reach it. -/
theorem get_join_values {isa : Isa} {kind : OpClass} {tokens : List String} :
    ∀ {slots : List (Part × Slot)}, slots.Pairwise (fun s t => s.2.Precedes t.2) →
      (∀ s ∈ slots, s.2.field.shift.val + s.2.field.width ≤ 32) → ∀ {vs : List PartValue},
      (values isa kind tokens slots).result = .ok vs → ∀ s ∈ slots,
        (tokens[s.2.token]? = none ∧ s.2.field.get (join (placed slots vs)) = 0)
          ∨ ∃ token v, tokens[s.2.token]? = some token
            ∧ (s.1.value isa kind s.2.field token).result = .ok v
            ∧ s.2.field.get (join (placed slots vs)) = v.word &&& s.2.field.max
  | (part, slot) :: rest, hord, hin, vs, h, s, hs => by
      rw [List.pairwise_cons] at hord
      obtain ⟨hfirst, hord⟩ := hord
      cases htoken : tokens[slot.token]? with
      | none =>
          rw [values_cons_none htoken] at h
          obtain rfl := Except.ok.inj h
          refine Or.inl ⟨?_, by rw [placed_nil]; exact Field.get_zero _⟩
          rcases List.mem_cons.mp hs with rfl | hs
          · exact htoken
          · exact (hfirst s hs).getElem?_eq_none htoken
      | some token =>
          obtain ⟨v, vs, rfl, hv, hvs⟩ := values_cons_result htoken h
          rw [placed_cons, join_cons]
          rcases List.mem_cons.mp hs with rfl | hs
          · have hrest : slot.field.get (join (placed rest vs)) = 0 := by
              refine get_join_of_apart fun p hp => ?_
              obtain ⟨t, ht, hfield⟩ := mem_placed hp
              rw [hfield]
              exact (hfirst t ht).2.symm
            refine Or.inr ⟨token, v, htoken, hv, ?_⟩
            rw [Field.get_or, Field.get_place _ (hin _ (List.mem_cons_self ..)), hrest]
            exact BitVec.or_zero
          · have hskip : s.2.field.get (slot.field.place v.word ||| join (placed rest vs))
                = s.2.field.get (join (placed rest vs)) := by
              rw [Field.get_or, (hfirst s hs).2.get_place]
              exact BitVec.zero_or
            rw [hskip]
            exact get_join_values hord (fun t ht => hin t (List.mem_cons_of_mem _ ht)) hvs s hs

end Instruction

/-! ## Directives -/

/-- Does the line start with the marker of a directive and have a literal? -/
def Line.isDirective : List String → Bool
  | head :: _ :: _ => head == "di" || head == "dh" || head == "df"
  | _ => false

theorem ofMarker?_eq_none_iff {head literal : String} {rest : List String} :
    Directive.Kind.ofMarker? head = none ↔
      Line.isDirective (head :: literal :: rest) = false := by
  simp only [Line.isDirective, Directive.Kind.ofMarker?]
  split <;> simp_all

theorem Line.isDirective_of_head? {tokens : List String}
    (h : tokens.head? ∉ [some "di", some "dh", some "df"]) :
    Line.isDirective tokens = false := by
  match tokens with
  | [] => rfl
  | [_] => rfl
  | head :: literal :: rest =>
      rw [Line.isDirective]
      simp_all

theorem Encoder.encodeTokens_blank {encoder : Encoder} {tokens : List String}
    (h : tokens.length ≤ 1) : encoder.encodeTokens tokens = .ok ⟨0, []⟩ := by
  obtain ⟨revision, mode⟩ := encoder
  match tokens, h with
  | [], _ => cases mode <;> rfl
  | [_], _ => cases mode <;> rfl

/-- A line of at least two tokens that is no directive is an instruction,
and encoding it is reading its slots. -/
theorem Encoder.encodeTokens_instruction {encoder : Encoder} {tokens : List String}
    (hlen : 2 ≤ tokens.length) (hline : Line.isDirective tokens = false) :
    encoder.encodeTokens tokens =
      (Instruction.word encoder.revision.isa (Instruction.classOf tokens) tokens
        (Instruction.shapeOf encoder.revision.isa tokens)).encoded encoder.mode := by
  match tokens, hlen with
  | head :: literal :: rest, _ =>
      rw [encodeTokens_eq, Line.finding_word (ofMarker?_eq_none_iff.mpr hline)]

end LineAsm
