import LineAsm.Proofs.SinglePatterns

/-!
# Rounding to the nearest pattern

`Single.nearest` chooses a grid by the binary exponent of the quotient
and divides once, with the rest rounded to the nearest integer. That
this is the nearest pattern of all (`nearest_rounds`) has two parts:

- on the grid, the nearest point is the nearest integer multiple of its
  spacing, and a pattern is even if the multiple is
  (`Rounding.roundDiv_nearest`);
- off the grid, a pattern is beyond one of its ends, and the end is
  nearer (`rounds_of_grid`).

`Single.nearestDecimal` does the same for a decimal. It leaves out the
division where the decimal is far too large or far too small, and there
the pattern is known without it (`nearestDecimal_rounds`).
-/

namespace LineAsm

namespace Rounding

/-- The rounded quotient is at most one half away, and even if it is just
so far away. -/
theorem roundDiv_near (num : Nat) {den : Nat} (hden : 0 < den) :
    |(num : ℚ) / den - roundDiv num den| ≤ 1 / 2
      ∧ (|(num : ℚ) / den - roundDiv num den| = 1 / 2 → roundDiv num den % 2 = 0) := by
  have hpos : (0 : ℚ) < den := by exact_mod_cast hden
  have hsplit : (num : ℚ) / den = (num / den : Nat) + (num % den : Nat) / den := by
    rw [eq_comm, add_div' _ _ _ hpos.ne', div_left_inj' hpos.ne']
    exact_mod_cast Nat.div_add_mod' num den
  have hrest : (0 : ℚ) ≤ (num % den : Nat) / den := by positivity
  have hbelow : ((num % den : Nat) : ℚ) / den < 1 := by
    rw [div_lt_one hpos]
    exact_mod_cast Nat.mod_lt num hden
  -- The three cases are those of the rest against one half.
  unfold roundDiv
  rcases Nat.lt_trichotomy (2 * (num % den)) den with hlt | heq | hgt
  · have hhalf : ((num % den : Nat) : ℚ) / den < 1 / 2 := by
      rw [div_lt_div_iff₀ hpos two_pos, one_mul, mul_comm]
      exact_mod_cast hlt
    simp only [if_pos hlt]
    rw [hsplit, add_sub_cancel_left, abs_of_nonneg hrest]
    exact ⟨hhalf.le, fun h => absurd h hhalf.ne⟩
  · have hhalf : ((num % den : Nat) : ℚ) / den = 1 / 2 := by
      rw [div_eq_div_iff hpos.ne' two_ne_zero, one_mul, mul_comm]
      exact_mod_cast heq
    simp only [heq, lt_irrefl, if_false]
    rw [hsplit, hhalf]
    refine ⟨?_, fun _ => by omega⟩
    rcases Nat.mod_two_eq_zero_or_one (num / den) with heven | hodd
    · rw [heven, Nat.add_zero, add_sub_cancel_left, abs_of_pos (by norm_num)]
    · rw [hodd, Nat.cast_add, Nat.cast_one, add_sub_add_left_eq_sub]
      norm_num [abs_of_neg]
  · have hhalf : 1 / 2 < ((num % den : Nat) : ℚ) / den := by
      rw [div_lt_div_iff₀ two_pos hpos, one_mul, mul_comm]
      exact_mod_cast hgt
    simp only [if_neg (Nat.lt_asymm hgt), if_pos hgt]
    rw [hsplit, Nat.cast_add, Nat.cast_one, add_sub_add_left_eq_sub,
      abs_of_neg (by linarith)]
    exact ⟨by linarith, fun h => by linarith⟩

/-- The rounded quotient is the nearest natural number, and even if there
is another as near. -/
theorem roundDiv_nearest (num : Nat) {den : Nat} (hden : 0 < den) (n : Nat) :
    |(num : ℚ) / den - roundDiv num den| ≤ |(num : ℚ) / den - n|
      ∧ (n ≠ roundDiv num den →
        |(num : ℚ) / den - roundDiv num den| = |(num : ℚ) / den - n| →
          roundDiv num den % 2 = 0) := by
  obtain ⟨hnear, heven⟩ := roundDiv_near num hden
  by_cases hn : n = roundDiv num den
  · subst hn
    exact ⟨le_rfl, fun h => absurd rfl h⟩
  · -- Two natural numbers are at least one apart, so the other is at least one half away.
    have hapart : (1 : ℚ) ≤ |(roundDiv num den : ℚ) - n| := by
      have hint : (roundDiv num den : ℤ) - n ≠ 0 := by omega
      exact_mod_cast Int.one_le_abs hint
    have htriangle := abs_sub_le (roundDiv num den : ℚ) ((num : ℚ) / den) n
    rw [abs_sub_comm (roundDiv num den : ℚ) ((num : ℚ) / den)] at htriangle
    exact ⟨by linarith, fun _ htie => heven (by linarith)⟩

end Rounding

namespace Single

/-! ## On a grid and off it -/

/-- A pattern is a point of the grid, or beyond one of its ends. -/
theorem exists_grid_point {x : ℚ} {k : Nat} (hlow : k = 0 ∨ 2 ^ 23 * 2 ^ ((k : ℤ) - 149) ≤ x)
    (hhigh : x ≤ 2 ^ 24 * 2 ^ ((k : ℤ) - 149)) (r : Nat) :
    ∃ n : Nat, (r = k * 2 ^ 23 + n ∧ magnitude r = n * 2 ^ ((k : ℤ) - 149))
      ∨ |x - n * 2 ^ ((k : ℤ) - 149)| < |x - magnitude r| := by
  rcases Nat.lt_or_ge (k * 2 ^ 23 + 2 ^ 24) r with habove | hle
  · refine ⟨2 ^ 24, Or.inr ?_⟩
    have hlt := magnitude_strictMono habove
    rw [magnitude_grid le_rfl (Or.inr (by norm_num))] at hlt
    push_cast at hlt ⊢
    rw [abs_sub_comm, abs_sub_comm x, abs_of_nonneg (by linarith), abs_of_pos (by linarith)]
    linarith
  by_cases hbelow : k ≠ 0 ∧ r < k * 2 ^ 23 + 2 ^ 23
  · refine ⟨2 ^ 23, Or.inr ?_⟩
    have hlt := magnitude_strictMono hbelow.2
    rw [magnitude_grid (by norm_num) (Or.inr le_rfl)] at hlt
    have hx := hlow.resolve_left hbelow.1
    push_cast at hlt ⊢
    rw [abs_of_nonneg (by linarith), abs_of_pos (by linarith)]
    linarith
  · obtain ⟨n, rfl⟩ : ∃ n, r = k * 2 ^ 23 + n := ⟨r - k * 2 ^ 23, by omega⟩
    exact ⟨n, Or.inl ⟨rfl, magnitude_grid (by omega) (by omega)⟩⟩

/-- The nearest integer to a number between the ends of a grid is a point
of the grid. -/
theorem nearest_mem_grid {y : ℚ} {k m : Nat} (hnear : ∀ n : Nat, |y - m| ≤ |y - n|)
    (hlow : k = 0 ∨ 2 ^ 23 ≤ y) (hhigh : y ≤ 2 ^ 24) : m ≤ 2 ^ 24 ∧ (k = 0 ∨ 2 ^ 23 ≤ m) := by
  constructor
  · by_contra hgt
    have hcast : ((2 ^ 24 : Nat) : ℚ) < m := by exact_mod_cast Nat.lt_of_not_le hgt
    have hle := (abs_sub_le_of_gt hcast).mp (hnear (2 ^ 24))
    push_cast at hcast hle
    linarith
  · refine hlow.imp_right fun hy => ?_
    by_contra hlt
    have hcast : (m : ℚ) < (2 ^ 23 : Nat) := by exact_mod_cast Nat.lt_of_not_le hlt
    have hle := (abs_sub_le_of_lt hcast).mp (hnear (2 ^ 23))
    push_cast at hcast hle
    linarith

/-- A number between the ends of a grid is rounded as its multiple of the
spacing is. -/
theorem rounds_of_grid {y : ℚ} {k m : Nat}
    (hnear : ∀ n : Nat, |y - m| ≤ |y - n| ∧ (n ≠ m → |y - m| = |y - n| → m % 2 = 0))
    (hlow : k = 0 ∨ 2 ^ 23 ≤ y) (hhigh : y ≤ 2 ^ 24) :
    Rounds (y * 2 ^ ((k : ℤ) - 149)) (k * 2 ^ 23 + m) := by
  have hstep : (0 : ℚ) < 2 ^ ((k : ℤ) - 149) := by positivity
  have hscale : ∀ n : Nat, |y * 2 ^ ((k : ℤ) - 149) - n * 2 ^ ((k : ℤ) - 149)|
      = |y - n| * 2 ^ ((k : ℤ) - 149) := by
    intro n
    rw [← sub_mul, abs_mul, abs_of_pos hstep]
  obtain ⟨hm, hk⟩ := nearest_mem_grid (fun n => (hnear n).1) hlow hhigh
  have hpoint := exists_grid_point (k := k) (x := y * 2 ^ ((k : ℤ) - 149))
    (hlow.imp_right fun h => by gcongr) (by gcongr)
  have hle : ∀ n : Nat, |y - m| * 2 ^ ((k : ℤ) - 149) ≤ |y - n| * 2 ^ ((k : ℤ) - 149) :=
    fun n => mul_le_mul_of_nonneg_right (hnear n).1 hstep.le
  constructor
  · intro r
    rw [magnitude_grid hm hk, hscale]
    obtain ⟨n, ⟨-, hr⟩ | hr⟩ := hpoint r
    · rw [hr, hscale]
      exact hle n
    · rw [hscale] at hr
      exact (hle n).trans hr.le
  · intro r hne htie
    rw [magnitude_grid hm hk, hscale] at htie
    obtain ⟨n, ⟨rfl, hr⟩ | hr⟩ := hpoint r
    · rw [hr, hscale] at htie
      have heven := (hnear n).2 (by omega) (mul_right_cancel₀ hstep.ne' htie)
      omega
    · rw [hscale] at hr
      exact absurd htie ((hle n).trans_lt hr).ne

/-! ## The grid of a quotient -/

theorem scale_pos (num : Nat) {den : Nat} (hden : 0 < den) (q : Int) : 0 < (scale num den q).2 := by
  show 0 < den <<< q.toNat
  rw [Nat.shiftLeft_eq]
  positivity

theorem scale_div (num den : Nat) (q : Int) :
    ((scale num den q).1 : ℚ) / (scale num den q).2 = num / den / 2 ^ q := by
  rw [scale, Nat.shiftLeft_eq, Nat.shiftLeft_eq]
  rcases Int.eq_nat_or_neg q with ⟨n, rfl | rfl⟩
  · simp [div_div]
  · simp [div_mul_eq_mul_div]

theorem log2_bounds {n : Nat} (hn : 0 < n) :
    (2 : ℚ) ^ (n.log2 : ℤ) ≤ n ∧ (n : ℚ) < 2 ^ ((n.log2 : ℤ) + 1) := by
  constructor
  · exact_mod_cast Nat.log2_self_le hn.ne'
  · exact_mod_cast Nat.lt_log2_self

/-- The quotient lies in the binade of its exponent. The logarithms of
the two numbers leave two binades, and a comparison decides. -/
theorem binaryExponent_bounds {num den : Nat} (hnum : 0 < num) (hden : 0 < den) :
    (2 : ℚ) ^ binaryExponent num den ≤ num / den
      ∧ (num : ℚ) / den < 2 ^ (binaryExponent num den + 1) := by
  obtain ⟨hnumLow, hnumHigh⟩ := log2_bounds hnum
  obtain ⟨hdenLow, hdenHigh⟩ := log2_bounds hden
  have hpos : (0 : ℚ) < den := by exact_mod_cast hden
  have hbelow : (num : ℚ) / den < 2 ^ ((num.log2 : ℤ) - den.log2 + 1) := by
    rw [div_lt_iff₀ hpos]
    calc (num : ℚ) < 2 ^ ((num.log2 : ℤ) + 1) := hnumHigh
      _ = 2 ^ ((num.log2 : ℤ) - den.log2 + 1) * 2 ^ (den.log2 : ℤ) := by
        rw [← zpow_add₀ two_ne_zero]
        congr 1
        ring
      _ ≤ _ := by gcongr
  have habove : (2 : ℚ) ^ ((num.log2 : ℤ) - den.log2 - 1) ≤ num / den := by
    rw [le_div_iff₀ hpos]
    calc (2 : ℚ) ^ ((num.log2 : ℤ) - den.log2 - 1) * den
        ≤ 2 ^ ((num.log2 : ℤ) - den.log2 - 1) * 2 ^ ((den.log2 : ℤ) + 1) := by gcongr
      _ = 2 ^ (num.log2 : ℤ) := by
        rw [← zpow_add₀ two_ne_zero]
        congr 1
        ring
      _ ≤ num := hnumLow
  have hcompare : (scale num den ((num.log2 : ℤ) - den.log2)).2
        ≤ (scale num den ((num.log2 : ℤ) - den.log2)).1
      ↔ (2 : ℚ) ^ ((num.log2 : ℤ) - den.log2) ≤ num / den := by
    have hscaled : (0 : ℚ) < (scale num den ((num.log2 : ℤ) - den.log2)).2 := by
      exact_mod_cast scale_pos num hden _
    rw [← one_le_div₀ (by positivity : (0 : ℚ) < 2 ^ ((num.log2 : ℤ) - den.log2)), ← scale_div,
      one_le_div₀ hscaled, Nat.cast_le]
  unfold binaryExponent
  simp only [hcompare]
  split
  · rename_i hge
    exact ⟨hge, hbelow⟩
  · rename_i hlt
    refine ⟨habove, ?_⟩
    rw [sub_add_cancel]
    exact lt_of_not_ge hlt

/-- The exponent of the grid, which is the lowest one for small quotients. -/
theorem quotient_on_grid {num den : Nat} (hnum : 0 < num) (hden : 0 < den) {q : Int}
    (hq : q = max (-149) (binaryExponent num den - 23)) :
    ((q + 149).toNat = 0 ∨ (2 : ℚ) ^ 23 ≤ num / den / 2 ^ q)
      ∧ (num : ℚ) / den / 2 ^ q ≤ 2 ^ 24 := by
  obtain ⟨hlow, hhigh⟩ := binaryExponent_bounds hnum hden
  have hstep : (0 : ℚ) < 2 ^ q := by positivity
  constructor
  · by_cases hgrid : (q + 149).toNat = 0
    · exact Or.inl hgrid
    · refine Or.inr ?_
      rw [le_div_iff₀ hstep]
      calc (2 : ℚ) ^ 23 * 2 ^ q = 2 ^ ((23 : ℤ) + q) := by
            rw [zpow_add₀ two_ne_zero]
            norm_cast
        _ = 2 ^ binaryExponent num den := by
            congr 1
            omega
        _ ≤ num / den := hlow
  · rw [div_le_iff₀ hstep]
    calc (num : ℚ) / den ≤ 2 ^ (binaryExponent num den + 1) := hhigh.le
      _ ≤ 2 ^ ((24 : ℤ) + q) := zpow_le_zpow_right₀ one_le_two (by omega)
      _ = 2 ^ 24 * 2 ^ q := by
            rw [zpow_add₀ two_ne_zero]
            norm_cast

/-- **The nearest pattern.** A quotient is rounded to the nearest pattern,
or to infinity if that pattern is no longer in the format. -/
theorem nearest_rounds (num : Nat) {den : Nat} (hden : 0 < den) :
    ∃ p, Rounds (num / den) p ∧ nearest num den = min infinity p := by
  by_cases hnum : num = 0
  · subst hnum
    refine ⟨0, ⟨fun r => ?_, fun _ _ _ => rfl⟩, rfl⟩
    simp
  have hpos : 0 < num := Nat.pos_of_ne_zero hnum
  obtain ⟨q, hq⟩ : ∃ q, q = max (-149) (binaryExponent num den - 23) := ⟨_, rfl⟩
  obtain ⟨hlow, hhigh⟩ := quotient_on_grid hpos hden hq
  have hstep : (0 : ℚ) < 2 ^ q := by positivity
  have hexponent : (((q + 149).toNat : Nat) : ℤ) - 149 = q := by omega
  have hnear := Rounding.roundDiv_nearest (scale num den q).1 (scale_pos num hden q)
  rw [scale_div] at hnear
  refine ⟨(q + 149).toNat * 2 ^ 23 + Rounding.roundDiv (scale num den q).1 (scale num den q).2,
    ?_, ?_⟩
  · have hrounds := rounds_of_grid (k := (q + 149).toNat) hnear hlow hhigh
    rw [hexponent, div_mul_cancel₀ _ hstep.ne'] at hrounds
    exact hrounds
  · rw [nearest, if_neg hnum, hq, ← Nat.shiftLeft_eq]

end Single

/-! ## Decimals -/

namespace Decimal

/-- The decimal without its sign. -/
def magnitude (value : Decimal) : ℚ :=
  value.digits * 10 ^ value.exponent

theorem magnitude_nonneg (value : Decimal) : 0 ≤ value.magnitude := by
  rw [magnitude]
  positivity

theorem magnitude_eq_zero_iff {value : Decimal} : value.magnitude = 0 ↔ value.digits = 0 := by
  have hpower : (10 : ℚ) ^ value.exponent ≠ 0 := zpow_ne_zero _ (by norm_num)
  rw [magnitude, mul_eq_zero, or_iff_left hpower, Nat.cast_eq_zero]

theorem magnitude_eq_div (value : Decimal) :
    value.magnitude = ((value.digits * Nat.pow 10 value.exponent.toNat : Nat) : ℚ)
      / (Nat.pow 10 (-value.exponent).toNat : Nat) := by
  obtain ⟨negative, digits, exponent⟩ := value
  show (digits : ℚ) * 10 ^ exponent = ((digits * 10 ^ exponent.toNat : Nat) : ℚ)
    / (10 ^ (-exponent).toNat : Nat)
  rcases Int.eq_nat_or_neg exponent with ⟨n, rfl | rfl⟩
  · simp
  · simp [div_eq_mul_inv]

end Decimal

namespace Single

/-- A decimal with such an exponent is beyond the range. -/
theorem le_magnitude_of_exponent {value : Decimal} (hdigits : value.digits ≠ 0)
    (hexponent : 38 < value.exponent) : 2 ^ 128 - 2 ^ 103 ≤ value.magnitude := by
  have hone : (1 : ℚ) ≤ value.digits := by exact_mod_cast Nat.pos_of_ne_zero hdigits
  have hpower : (10 : ℚ) ^ (39 : ℤ) ≤ 10 ^ value.exponent :=
    zpow_le_zpow_right₀ (by norm_num) (by omega)
  calc (2 : ℚ) ^ 128 - 2 ^ 103 ≤ 1 * 10 ^ (39 : ℤ) := by norm_num
    _ ≤ value.digits * 10 ^ value.exponent := by gcongr

/-- The length of the digits bounds them, and a power of ten below one is
at most the power of eight. -/
theorem magnitude_le_of_length {value : Decimal}
    (hlength : (value.digits.log2 : Int) + 1 + 3 * value.exponent < -160) :
    value.magnitude ≤ 2 ^ (-150 : ℤ) := by
  obtain ⟨n, hn⟩ : ∃ n : Nat, value.exponent = -n := ⟨value.exponent.natAbs, by omega⟩
  have hdigits : (value.digits : ℚ) ≤ 2 ^ ((value.digits.log2 : ℤ) + 1) := by
    exact_mod_cast Nat.lt_log2_self.le
  have hpower : (10 : ℚ) ^ (-n : ℤ) ≤ 2 ^ (3 * (-n : ℤ)) := by
    rw [zpow_mul, zpow_neg, zpow_neg, zpow_natCast, zpow_natCast]
    gcongr
    norm_num
  calc value.magnitude = value.digits * 10 ^ (-n : ℤ) := by rw [Decimal.magnitude, hn]
    _ ≤ 2 ^ ((value.digits.log2 : ℤ) + 1) * 2 ^ (3 * (-n : ℤ)) := by gcongr
    _ = 2 ^ ((value.digits.log2 : ℤ) + 1 + 3 * (-n : ℤ)) := (zpow_add₀ two_ne_zero _ _).symm
    _ ≤ 2 ^ (-150 : ℤ) := zpow_le_zpow_right₀ one_le_two (by omega)

/-- A decimal is rounded to the nearest pattern, or to infinity. Far from
the range this is so without a division. -/
theorem nearestDecimal_rounds (value : Decimal) :
    ∃ p, Rounds value.magnitude p ∧ nearestDecimal value = min infinity p := by
  have hden : 0 < Nat.pow 10 (-value.exponent).toNat := Nat.pow_pos (by norm_num)
  obtain ⟨p, hp, hnearest⟩ :=
    nearest_rounds (value.digits * Nat.pow 10 value.exponent.toNat) hden
  rw [← value.magnitude_eq_div] at hp
  refine ⟨p, hp, ?_⟩
  unfold nearestDecimal
  split
  · rename_i hzero
    have hvanish : p = 0 := by
      rw [hp.eq_zero_iff, Decimal.magnitude_eq_zero_iff.mpr hzero]
      positivity
    rw [hvanish, Nat.min_zero]
  split
  · rename_i hdigits hexponent
    rw [Nat.min_eq_left (hp.infinity_le_iff.mpr (le_magnitude_of_exponent hdigits hexponent))]
  split
  · rename_i hlength
    rw [hp.eq_zero_iff.mpr (magnitude_le_of_length hlength), Nat.min_zero]
  · exact hnearest

end Single

end LineAsm
