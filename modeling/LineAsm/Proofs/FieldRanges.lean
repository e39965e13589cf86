import LineAsm.Proofs.FieldBits

/-!
# The bit range of a field

A field spans the bits from its start up to its width, or up to the end
of the word if that comes first (`Field.Spans`). Its operations are said
here through that range alone, for every width: an empty field spans
nothing, and one that is wider than the word, or reaches over its end,
spans what is left of the word.

A value that fits is one whose bits all lie below the width
(`fits_iff_and_max`). Moving it into position loses none of them if the
field ends inside the word (`ushiftRight_place`), and what other fields
hold is not seen when it is read back (`Apart.get_place_or`).
-/

namespace LineAsm

namespace Field

variable {f g : Field} {u v : Word} {i : Nat}

/-- The bit belongs to the field. -/
def Spans (f : Field) (i : Nat) : Prop :=
  f.shift.val ≤ i ∧ i < min 32 (f.shift.val + f.width)

instance (f : Field) (i : Nat) : Decidable (f.Spans i) :=
  inferInstanceAs (Decidable (_ ∧ _))

theorem spans_iff : f.Spans i ↔ f.shift.val ≤ i ∧ i < f.shift.val + f.width ∧ i < 32 := by
  rw [Spans]
  omega

theorem getLsbD_mask_eq_true_iff : f.mask.getLsbD i = true ↔ f.Spans i := by
  rw [getLsbD_mask, decide_eq_true_iff, spans_iff]

theorem getLsbD_place_of_spans (h : f.Spans i) (v : Word) :
    (f.place v).getLsbD i = v.getLsbD (i - f.shift.val) := by
  rw [getLsbD_place, decide_eq_true (spans_iff.mp h), Bool.true_and]

theorem getLsbD_place_of_not_spans (h : ¬ f.Spans i) (v : Word) :
    (f.place v).getLsbD i = false := by
  rw [getLsbD_place, decide_eq_false (mt spans_iff.mpr h), Bool.false_and]

/-! ## Values that fit -/

theorem fits_iff_and_max : f.fits v = true ↔ v &&& f.max = v := by
  refine ⟨and_max_of_fits, fun h => ?_⟩
  rw [fits_iff_le, ← h, BitVec.toNat_and]
  exact Nat.and_le_right

theorem place_and_max (f : Field) (v : Word) : f.place (v &&& f.max) = f.place v := by
  rw [place, place, BitVec.and_assoc, BitVec.and_self]

theorem place_allOnes (f : Field) : f.place (BitVec.allOnes 32) = f.mask := by
  rw [place, mask, BitVec.allOnes_and]

/-- A field that ends inside the word keeps the value, up to its width. -/
theorem ushiftRight_place (h : f.shift.val + f.width ≤ 32) (v : Word) :
    f.place v >>> f.shift.val = v &&& f.max := by
  apply BitVec.eq_of_getLsbD_eq
  intro i _
  rw [BitVec.getLsbD_ushiftRight, getLsbD_place, BitVec.getLsbD_and, getLsbD_max,
    Nat.add_sub_cancel_left]
  grind

theorem eq_of_place_eq (h : f.shift.val + f.width ≤ 32) (hu : f.fits u = true)
    (hv : f.fits v = true) (heq : f.place u = f.place v) : u = v := by
  calc u = u &&& f.max := (and_max_of_fits hu).symm
    _ = f.place u >>> f.shift.val := (ushiftRight_place h u).symm
    _ = f.place v >>> f.shift.val := by rw [heq]
    _ = v &&& f.max := ushiftRight_place h v
    _ = v := and_max_of_fits hv

/-! ## Two fields -/

theorem apart_of_spans (h : ∀ i, f.Spans i → ¬ g.Spans i) : f.Apart g := by
  apply BitVec.eq_of_getLsbD_eq
  intro i _
  refine Eq.trans ?_ BitVec.getLsbD_zero.symm
  rw [BitVec.getLsbD_and, Bool.and_eq_false_iff]
  by_cases hf : f.Spans i
  · right
    exact Bool.eq_false_iff.mpr fun hg => h i hf (getLsbD_mask_eq_true_iff.mp hg)
  · left
    exact Bool.eq_false_iff.mpr fun hbit => hf (getLsbD_mask_eq_true_iff.mp hbit)

/-- What is read back does not depend on the other field. -/
theorem Apart.get_place_or (h : f.Apart g) (u v : Word) :
    f.get (f.place u ||| g.place v) = f.get (f.place u) := by
  rw [get_or, h.symm.get_place v]
  exact BitVec.or_zero

/-- **The bits of a field.** The mask marks the range of the field, and a
placed value has its own bits there and zeros elsewhere. A value fits
exactly if masking it keeps it. So placing a value is placing what fits of
it, inside the mask, and loses nothing if the field ends inside the word;
and the values of two fields without a common bit can be joined and read
back, each as if it stood alone. -/
theorem place_bit_by_bit (f : Field) (v : Word) :
    (∀ i, f.mask.getLsbD i = true ↔ f.Spans i)
      ∧ (∀ i, f.Spans i → (f.place v).getLsbD i = v.getLsbD (i - f.shift.val))
      ∧ (∀ i, ¬ f.Spans i → (f.place v).getLsbD i = false)
      ∧ (f.fits v = true ↔ v &&& f.max = v)
      ∧ f.place v &&& f.mask = f.place v
      ∧ f.place v = f.place (v &&& f.max)
      ∧ f.place (BitVec.allOnes 32) = f.mask
      ∧ (f.shift.val + f.width ≤ 32 → f.place v >>> f.shift.val = v &&& f.max
        ∧ ∀ u, f.fits u = true → f.fits v = true → f.place u = f.place v → u = v)
      ∧ ∀ (g : Field) (u : Word), (∀ i, f.Spans i → ¬ g.Spans i) →
        f.get (f.place v ||| g.place u) = f.get (f.place v)
        ∧ g.get (f.place v ||| g.place u) = g.get (g.place u)
        ∧ (f.shift.val + f.width ≤ 32 → f.get (f.place v ||| g.place u) = v &&& f.max)
        ∧ (g.shift.val + g.width ≤ 32 → g.get (f.place v ||| g.place u) = u &&& g.max) := by
  refine ⟨fun i => getLsbD_mask_eq_true_iff, fun i h => getLsbD_place_of_spans h v,
    fun i h => getLsbD_place_of_not_spans h v, fits_iff_and_max, f.place_and_mask v,
    (f.place_and_max v).symm, f.place_allOnes, fun h => ⟨ushiftRight_place h v,
      fun u hu hv => eq_of_place_eq h hu hv⟩, fun g u hspans => ?_⟩
  have h : f.Apart g := apart_of_spans hspans
  have hf := h.get_place_or v u
  have hg := h.symm.get_place_or u v
  rw [BitVec.or_comm] at hg
  exact ⟨hf, hg, fun hin => hf.trans (get_place f hin v), fun hin => hg.trans (get_place g hin u)⟩

/-- An offset with a bit too many, beside a field that reaches far over the
end of the word. -/
theorem place_bit_by_bit_overhang :
    (∀ i, (Field.mk 4 8).Spans i → ¬ (Field.mk 28 200).Spans i)
      ∧ (Field.mk 4 8).place 0x1ff#32 >>> 4 = 0xff#32
      ∧ (Field.mk 4 8).get ((Field.mk 4 8).place 0x1ff ||| (Field.mk 28 200).place 0x5a) = 0xff
      ∧ (Field.mk 28 200).get ((Field.mk 4 8).place 0x1ff ||| (Field.mk 28 200).place 0x5a)
        = 0xa := by
  have hspans : ∀ i, (Field.mk 4 8).Spans i → ¬ (Field.mk 28 200).Spans i := by
    intro i hlow hhigh
    have hlt : i < 12 := (spans_iff.mp hlow).2.1
    have hle : 28 ≤ i := (spans_iff.mp hhigh).1
    omega
  obtain ⟨-, -, -, -, -, -, -, hinside, hjoined⟩ := place_bit_by_bit ⟨4, 8⟩ 0x1ff
  obtain ⟨-, hother, hoffset, -⟩ := hjoined ⟨28, 200⟩ 0x5a hspans
  exact ⟨hspans, (hinside (by decide)).1, hoffset (by decide), hother.trans (by decide)⟩

end Field

end LineAsm
