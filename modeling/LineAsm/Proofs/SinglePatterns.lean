import Mathlib
import LineAsm.Literal.Single

/-!
# Patterns and the numbers they stand for

Without its sign bit, a pattern of the 32-bit interchange format is a
natural number: the significand in the lower 23 bits, the exponent
above them. `Single.magnitude` is the number that it stands for, and
greater patterns stand for greater numbers (`magnitude_strictMono`).
Nothing stops the exponent here, so the pattern of infinity and those
above it stand for numbers as well, the next ones that the format would
have if it went on. What is too large is thereby rounded like anything
else, and is seen to be too large by its pattern.

`Rounds x p` says that `p` is the pattern nearest to `x`, and an even one
if another is as near. It fixes the pattern, and greater numbers have
greater patterns (`Rounds.mono`). The two ends of the format are points
half way between two neighbours: the last number that is still rounded
to zero (`Rounds.eq_zero_iff`), and the first one that is rounded to
infinity (`Rounds.infinity_le_iff`).
-/

namespace LineAsm

namespace Single

/-! ## Values -/

/-- The significand of a pattern. Its upper bit is not kept in the
pattern, and is missing if the exponent is zero. -/
def significand (p : Nat) : Nat :=
  if p / 2 ^ 23 = 0 then p % 2 ^ 23 else 2 ^ 23 + p % 2 ^ 23

/-- The number that a pattern stands for. The exponent zero means the
same power of two as the exponent one. -/
def magnitude (p : Nat) : ℚ :=
  significand p * 2 ^ ((max 1 (p / 2 ^ 23) : Nat) - 150 : ℤ)

theorem significand_mod_two (p : Nat) : significand p % 2 = p % 2 := by
  rw [significand]
  split <;> omega

/-- The grids of the format: on the grid of spacing `2 ^ (k - 149)` the
pattern of `m` steps is `k · 2 ^ 23 + m`. Above the lowest grid, `m` is in
the upper half, whose last point is also the first one of the next grid. -/
theorem magnitude_grid {k m : Nat} (hm : m ≤ 2 ^ 24) (hk : k = 0 ∨ 2 ^ 23 ≤ m) :
    magnitude (k * 2 ^ 23 + m) = m * 2 ^ ((k : ℤ) - 149) := by
  rcases Nat.lt_or_ge m (2 ^ 23) with hlow | hlow
  · obtain rfl : k = 0 := hk.resolve_right (by omega)
    have hexponent : (0 * 2 ^ 23 + m) / 2 ^ 23 = 0 := by omega
    have hfraction : (0 * 2 ^ 23 + m) % 2 ^ 23 = m := by omega
    rw [magnitude, significand, hexponent, hfraction, if_pos rfl]
    norm_num
  · rcases Nat.lt_or_ge m (2 ^ 24) with hhigh | hhigh
    · have hexponent : (k * 2 ^ 23 + m) / 2 ^ 23 = k + 1 := by omega
      have hfraction : 2 ^ 23 + (k * 2 ^ 23 + m) % 2 ^ 23 = m := by omega
      have hpower : ((k + 1 : Nat) : ℤ) - 150 = (k : ℤ) - 149 := by omega
      rw [magnitude, significand, hexponent, if_neg (Nat.succ_ne_zero k), hfraction,
        Nat.max_eq_right (Nat.succ_le_succ (Nat.zero_le k)), hpower]
    · -- The upper end of the binade, which is the lower end of the next one.
      obtain rfl : m = 2 ^ 24 := Nat.le_antisymm hm hhigh
      have hexponent : (k * 2 ^ 23 + 2 ^ 24) / 2 ^ 23 = k + 2 := by omega
      have hfraction : 2 ^ 23 + (k * 2 ^ 23 + 2 ^ 24) % 2 ^ 23 = 2 ^ 23 := by omega
      have hpower : ((k + 2 : Nat) : ℤ) - 150 = 1 + ((k : ℤ) - 149) := by omega
      rw [magnitude, significand, hexponent, if_neg (Nat.succ_ne_zero _), hfraction,
        Nat.max_eq_right (by omega), hpower, zpow_one_add₀ two_ne_zero]
      push_cast
      ring

/-- Every pattern is a point of a grid, and not its last one. -/
theorem exists_grid (p : Nat) :
    ∃ k m, p = k * 2 ^ 23 + m ∧ m < 2 ^ 24 ∧ (k = 0 ∨ 2 ^ 23 ≤ m) := by
  by_cases hp : p < 2 ^ 24
  · exact ⟨0, p, by omega, hp, Or.inl rfl⟩
  · exact ⟨p / 2 ^ 23 - 1, 2 ^ 23 + p % 2 ^ 23, by omega, by omega, Or.inr (by omega)⟩

theorem magnitude_strictMono : StrictMono magnitude := by
  refine strictMono_nat_of_lt_succ fun p => ?_
  obtain ⟨k, m, rfl, hm, hk⟩ := exists_grid p
  have hstep : (0 : ℚ) < 2 ^ ((k : ℤ) - 149) := by positivity
  rw [Nat.add_assoc, magnitude_grid (by omega) hk, magnitude_grid (by omega) (by omega)]
  push_cast
  linarith

@[simp] theorem magnitude_zero : magnitude 0 = 0 := by
  norm_num [magnitude, significand]

theorem magnitude_nonneg (p : Nat) : 0 ≤ magnitude p := by
  rw [magnitude]
  positivity

theorem magnitude_one : magnitude 1 = 2 ^ (-149 : ℤ) := by
  norm_num [magnitude, significand]

theorem magnitude_infinity : magnitude infinity = 2 ^ 128 := by
  norm_num [magnitude, significand, infinity]

/-- The greatest number of the format. -/
theorem magnitude_pred_infinity : magnitude (infinity - 1) = 2 ^ 128 - 2 ^ 104 := by
  norm_num [magnitude, significand, infinity]

/-! ## Distances -/

theorem abs_sub_le_of_lt {x a b : ℚ} (h : a < b) : |x - a| ≤ |x - b| ↔ 2 * x ≤ a + b := by
  rw [← sq_le_sq]
  constructor <;> intro hx <;> nlinarith

theorem abs_sub_le_of_gt {x a b : ℚ} (h : a < b) : |x - b| ≤ |x - a| ↔ a + b ≤ 2 * x := by
  rw [← sq_le_sq]
  constructor <;> intro hx <;> nlinarith

theorem abs_sub_eq_of_midpoint {x a b : ℚ} (h : 2 * x = a + b) : |x - a| = |x - b| := by
  rw [abs_sub_comm x b]
  congr 1
  linarith

/-! ## The nearest pattern -/

/-- The pattern is the nearest one to `x`, and an even one if there is
another as near. -/
structure Rounds (x : ℚ) (p : Nat) : Prop where
  nearest : ∀ r, |x - magnitude p| ≤ |x - magnitude r|
  even_of_tie : ∀ r, r ≠ p → |x - magnitude p| = |x - magnitude r| → p % 2 = 0

namespace Rounds

variable {x y : ℚ} {p r : Nat}

theorem two_mul_le (h : Rounds x p) (hr : p < r) : 2 * x ≤ magnitude p + magnitude r :=
  (abs_sub_le_of_lt (magnitude_strictMono hr)).mp (h.nearest r)

theorem le_two_mul (h : Rounds x p) (hr : r < p) : magnitude r + magnitude p ≤ 2 * x :=
  (abs_sub_le_of_gt (magnitude_strictMono hr)).mp (h.nearest r)

/-- A number that is not beyond the middle is not rounded beyond it. Two
numbers could be rounded the wrong way round only in the middle of two
even patterns, and between these is an odd one, which is nearer. -/
theorem mono (hx : Rounds x p) (hy : Rounds y r) (h : x ≤ y) : p ≤ r := by
  by_contra hlt
  have hrp : r < p := Nat.lt_of_not_le hlt
  have hlow := hx.le_two_mul hrp
  have hhigh := hy.two_mul_le hrp
  have hmiddle : 2 * x = magnitude r + magnitude p := by linarith
  have hmiddle' : 2 * y = magnitude r + magnitude p := by linarith
  have heven : p % 2 = 0 :=
    hx.even_of_tie r (Nat.ne_of_lt hrp) (abs_sub_eq_of_midpoint hmiddle).symm
  have heven' : r % 2 = 0 :=
    hy.even_of_tie p (Nat.ne_of_gt hrp) (abs_sub_eq_of_midpoint hmiddle')
  have hbetween := hx.le_two_mul (show r + 1 < p by omega)
  have hnext : magnitude r < magnitude (r + 1) := magnitude_strictMono (Nat.lt_succ_self r)
  linarith

theorem unique (hp : Rounds x p) (hr : Rounds x r) : p = r :=
  Nat.le_antisymm (hp.mono hr le_rfl) (hr.mono hp le_rfl)

/-- The numbers that vanish. Half of the least number is still rounded to
zero, because zero is even. -/
theorem eq_zero_iff (h : Rounds x p) : p = 0 ↔ x ≤ 2 ^ (-150 : ℤ) := by
  have hhalf : (2 : ℚ) * 2 ^ (-150 : ℤ) = magnitude 1 := by
    rw [magnitude_one, ← zpow_one_add₀ two_ne_zero]
    norm_num
  constructor
  · rintro rfl
    have hle := h.two_mul_le Nat.zero_lt_one
    rw [magnitude_zero] at hle
    linarith
  · intro hx
    by_contra hp
    have hpos : 0 < p := Nat.pos_of_ne_zero hp
    have hle := h.le_two_mul hpos
    rw [magnitude_zero] at hle
    have hone : p ≤ 1 := magnitude_strictMono.le_iff_le.mp (by linarith)
    obtain rfl : p = 1 := Nat.le_antisymm hone hpos
    have hmiddle : 2 * x = magnitude 0 + magnitude 1 := by
      rw [magnitude_zero]
      linarith
    have heven := h.even_of_tie 0 Nat.zero_ne_one (abs_sub_eq_of_midpoint hmiddle).symm
    exact absurd heven (by decide)

/-- The numbers that are too large. The middle between the greatest number
and the next power of two is one of them, because the greatest number
is odd. -/
theorem infinity_le_iff (h : Rounds x p) : infinity ≤ p ↔ 2 ^ 128 - 2 ^ 103 ≤ x := by
  have hmiddle : magnitude (infinity - 1) + magnitude infinity = 2 * (2 ^ 128 - 2 ^ 103) := by
    rw [magnitude_pred_infinity, magnitude_infinity]
    norm_num
  constructor
  · intro hp
    have hle := h.le_two_mul (show infinity - 1 < p from Nat.lt_of_lt_of_le (by decide) hp)
    have hge : magnitude infinity ≤ magnitude p := magnitude_strictMono.monotone hp
    linarith
  · intro hx
    by_contra hlt
    have hp : p < infinity := Nat.lt_of_not_le hlt
    have hle := h.two_mul_le hp
    have hlast : infinity - 1 ≤ p := magnitude_strictMono.le_iff_le.mp (by linarith)
    obtain rfl : p = infinity - 1 := Nat.le_antisymm (Nat.le_sub_one_of_lt hp) hlast
    have htie : 2 * x = magnitude (infinity - 1) + magnitude infinity := by linarith
    have heven := h.even_of_tie infinity (by decide) (abs_sub_eq_of_midpoint htie)
    exact absurd heven (by decide)

end Rounds

end Single

end LineAsm
