import LineAsm.Field

/-!
# The bits of a field

What `Field.mask` and `Field.place` are, bit by bit, and what follows
for fields that share no bit. `Field.get` reads a field back; it is the
inverse of placing a value, up to the bits that the field has no room
for (`get_place`) and the bits that belong to other fields
(`place_get`).

Fields are *apart* if their masks share no bit; a value placed in one
of them cannot be seen in the other. The *cover* of some fields is all
their bits, and masking with it keeps a word that holds zero everywhere
else (`and_cover_eq_self`).
-/

namespace LineAsm

namespace Field

/-! ## Bit by bit -/

theorem getLsbD_max (f : Field) (i : Nat) :
    f.max.getLsbD i = (decide (i < 32) && decide (i < f.width)) := by
  rw [max, BitVec.getLsbD_ofNat, Nat.one_shiftLeft, Nat.testBit_two_pow_sub_one]

theorem getLsbD_place (f : Field) (v : Word) (i : Nat) :
    (f.place v).getLsbD i =
      (decide (f.shift.val ≤ i ∧ i < f.shift.val + f.width ∧ i < 32)
        && v.getLsbD (i - f.shift.val)) := by
  rw [place, BitVec.getLsbD_shiftLeft, BitVec.getLsbD_and, getLsbD_max]
  have := f.shift.isLt
  grind

theorem getLsbD_mask (f : Field) (i : Nat) :
    f.mask.getLsbD i = decide (f.shift.val ≤ i ∧ i < f.shift.val + f.width ∧ i < 32) := by
  rw [mask, BitVec.getLsbD_shiftLeft, getLsbD_max]
  have := f.shift.isLt
  grind

/-! ## Placing and reading back -/

/-- The value that the word holds in the field. -/
def get (f : Field) (w : Word) : Word := (w >>> f.shift.val) &&& f.max

theorem place_and_mask (f : Field) (v : Word) : f.place v &&& f.mask = f.place v := by
  apply BitVec.eq_of_getLsbD_eq
  intro i _
  rw [BitVec.getLsbD_and, getLsbD_place, getLsbD_mask]
  grind

theorem place_get (f : Field) (w : Word) : f.place (f.get w) = w &&& f.mask := by
  apply BitVec.eq_of_getLsbD_eq
  intro i hi
  rw [getLsbD_place, BitVec.getLsbD_and, getLsbD_mask, get, BitVec.getLsbD_and,
    BitVec.getLsbD_ushiftRight, getLsbD_max]
  grind

theorem get_place (f : Field) (hf : f.shift.val + f.width ≤ 32) (v : Word) :
    f.get (f.place v) = v &&& f.max := by
  apply BitVec.eq_of_getLsbD_eq
  intro i hi
  rw [get, BitVec.getLsbD_and, BitVec.getLsbD_ushiftRight, getLsbD_place,
    BitVec.getLsbD_and, getLsbD_max]
  grind

theorem get_or (f : Field) (w w' : Word) : f.get (w ||| w') = f.get w ||| f.get w' := by
  apply BitVec.eq_of_getLsbD_eq
  intro i _
  simp only [get, BitVec.getLsbD_and, BitVec.getLsbD_or, BitVec.getLsbD_ushiftRight]
  grind

theorem get_and_mask (f : Field) (w : Word) : f.get (w &&& f.mask) = f.get w := by
  apply BitVec.eq_of_getLsbD_eq
  intro i _
  simp only [get, BitVec.getLsbD_and, BitVec.getLsbD_ushiftRight, getLsbD_mask, getLsbD_max]
  grind

theorem get_zero (f : Field) : f.get 0 = 0 := by simp [get]

theorem get_eq_zero_iff (f : Field) (w : Word) : f.get w = 0 ↔ w &&& f.mask = 0 := by
  constructor
  · intro h
    rw [← place_get, h]
    simp [place]
  · intro h
    rw [← get_and_mask, h, get_zero]

/-! ## Values that fit -/

theorem fits_iff_le {f : Field} {v : Word} : f.fits v = true ↔ v.toNat ≤ f.max.toNat := by
  rw [fits, decide_eq_true_iff, BitVec.le_def]

theorem and_max_of_fits {f : Field} {v : Word} (h : f.fits v = true) : v &&& f.max = v := by
  have hle : v.toNat ≤ f.max.toNat := fits_iff_le.mp h
  have hmax : f.max.toNat < 2 ^ f.width := by
    have hpos : 0 < 2 ^ f.width := Nat.two_pow_pos _
    rw [max, BitVec.toNat_ofNat, Nat.one_shiftLeft]
    exact Nat.lt_of_le_of_lt (Nat.mod_le ..) (by omega)
  apply BitVec.eq_of_getLsbD_eq
  intro i hi
  rw [BitVec.getLsbD_and, getLsbD_max]
  by_cases hwidth : i < f.width
  · simp [hi, hwidth]
  · -- A bit above the width would make the value too large.
    have hbit : v.getLsbD i = false := by
      refine Nat.testBit_lt_two_pow (Nat.lt_of_le_of_lt hle (Nat.lt_of_lt_of_le hmax ?_))
      exact Nat.pow_le_pow_right (by decide) (Nat.le_of_not_lt hwidth)
    simp [hbit]

theorem fits_get (f : Field) (w : Word) : f.fits (f.get w) = true := by
  rw [fits_iff_le, get, BitVec.toNat_and]
  exact Nat.and_le_right

theorem get_of_width_one {f : Field} (h : f.width = 1) (w : Word) :
    f.get w = 0 ∨ f.get w = 1 := by
  have hle : (f.get w).toNat ≤ f.max.toNat := fits_iff_le.mp (f.fits_get w)
  rw [max, h, show (BitVec.ofNat 32 ((1 <<< 1) - 1)).toNat = 1 from rfl] at hle
  rcases Nat.le_one_iff_eq_zero_or_eq_one.mp hle with hzero | hone
  · exact Or.inl (BitVec.eq_of_toNat_eq hzero)
  · exact Or.inr (BitVec.eq_of_toNat_eq hone)

/-! ## Fields that share no bit -/

def Apart (f g : Field) : Prop := f.mask &&& g.mask = 0

instance (f g : Field) : Decidable (f.Apart g) :=
  inferInstanceAs (Decidable (f.mask &&& g.mask = 0))

theorem Apart.symm {f g : Field} (h : f.Apart g) : g.Apart f := by
  rw [Apart, BitVec.and_comm]
  exact h

theorem Apart.place_and_mask {f g : Field} (h : f.Apart g) (v : Word) :
    f.place v &&& g.mask = 0 := by
  rw [← f.place_and_mask v, BitVec.and_assoc, show f.mask &&& g.mask = 0 from h]
  exact BitVec.and_zero

theorem Apart.get_place {f g : Field} (h : f.Apart g) (v : Word) :
    g.get (f.place v) = 0 := by
  rw [← get_and_mask, h.place_and_mask v, get_zero]

/-- The bits of several fields. -/
def cover (fields : List Field) : Word := fields.foldr (fun f bits => f.mask ||| bits) 0

@[simp] theorem cover_nil : cover [] = 0 := rfl

@[simp] theorem cover_cons (f : Field) (fields : List Field) :
    cover (f :: fields) = f.mask ||| cover fields := rfl

theorem getLsbD_cover (fields : List Field) (i : Nat) :
    (cover fields).getLsbD i = fields.any (·.mask.getLsbD i) := by
  induction fields with
  | nil => simp
  | cons f fields ih => rw [cover_cons, BitVec.getLsbD_or, ih, List.any_cons]

theorem mask_and_cover {f : Field} {fields : List Field} (h : f ∈ fields) :
    f.mask &&& cover fields = f.mask := by
  apply BitVec.eq_of_getLsbD_eq
  intro i _
  rw [BitVec.getLsbD_and, getLsbD_cover]
  cases hbit : f.mask.getLsbD i with
  | false => rfl
  | true => exact List.any_eq_true.mpr ⟨f, h, hbit⟩

theorem and_cover_eq_zero {w : Word} :
    ∀ {fields : List Field}, (∀ f ∈ fields, w &&& f.mask = 0) → w &&& cover fields = 0
  | [], _ => BitVec.and_zero
  | f :: fields, h => by
      rw [cover_cons, BitVec.and_or_distrib_left, h f (List.mem_cons_self ..),
        and_cover_eq_zero fun g hg => h g (List.mem_cons_of_mem _ hg)]
      rfl

/-- What fields do not cover is zero in a word that holds zero there. -/
theorem and_cover_eq_self {w : Word} {fields spare : List Field}
    (hall : cover fields ||| cover spare = BitVec.allOnes 32)
    (hzero : ∀ f ∈ spare, f.get w = 0) : w &&& cover fields = w := by
  have hspare : w &&& cover spare = 0 :=
    and_cover_eq_zero fun f hf => (f.get_eq_zero_iff w).mp (hzero f hf)
  calc w &&& cover fields
      = w &&& cover fields ||| w &&& cover spare := by rw [hspare]; exact BitVec.or_zero.symm
    _ = w &&& BitVec.allOnes 32 := by rw [← BitVec.and_or_distrib_left, hall]
    _ = w := BitVec.and_allOnes

end Field

end LineAsm
