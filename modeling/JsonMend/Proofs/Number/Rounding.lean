import Mathlib.Algebra.Order.Field.Power
import Mathlib.Data.Rat.Floor
import Mathlib.Tactic.FieldSimp
import Mathlib.Tactic.Linarith
import Mathlib.Tactic.Positivity
import JsonMend.Number.Decimal
/-
  Rounding to the nearest double.

  1. **Binades** (`binade_spec`) — the exponent that is guessed from the lengths of numerator and denominator,
     and corrected once, is the one that is meant.
  2. **What rounds to a double** (`Binary64.nearest_of_close`) — everything within half a unit of it, except that
     below the least full mantissa the grid is twice as fine.
  3. **Far outside** (`Decimal.toBinary64_eq_nearest`) — where a numeral is settled by its order alone, rounding
     would have come to the same.
-/
namespace JsonMend

variable {q : ℚ} {k : ℤ}

/-! ## Integers -/

theorem floor_eq_of_bounds {n : ℤ} (h : (n : ℚ) ≤ q) (h' : q < n + 1) : q.floor = n := Int.floor_eq_iff.mpr ⟨h, h'⟩

/-- What is nearer to an integer than a half rounds to it. -/
theorem roundHalfEven_of_close {n : ℤ} (h : |q - n| < 1 / 2) : roundHalfEven q = n := by
  obtain ⟨hleft, hright⟩ := abs_lt.mp h
  rcases le_or_gt (n : ℚ) q with hle | hlt
  · rw [roundHalfEven, floor_eq_of_bounds hle (by linarith)]
    exact if_pos hright
  · have hbelow : q.floor = n - 1 := floor_eq_of_bounds (by push_cast; linarith) (by push_cast; linarith)
    have hrest : ¬q - ((n - 1 : ℤ) : ℚ) < 1 / 2 := by push_cast; linarith
    have hrest' : 1 / 2 < q - ((n - 1 : ℤ) : ℚ) := by push_cast; linarith
    rw [roundHalfEven, hbelow]
    simp only [if_neg hrest, if_pos hrest', sub_add_cancel]

/-! ## Binades -/

/-- A natural number between the powers of two that its length tells. -/
theorem log2_bounds {n : ℕ} (hn : 0 < n) : (2 : ℚ) ^ (n.log2 : ℤ) ≤ n ∧ (n : ℚ) < 2 ^ ((n.log2 : ℤ) + 1) := by
  have hle : 2 ^ n.log2 ≤ n := Nat.log2_self_le hn.ne'
  have hlt : n < 2 ^ (n.log2 + 1) := Nat.lt_log2_self
  constructor
  · rw [zpow_natCast]
    exact_mod_cast hle
  · rw [← Nat.cast_succ, zpow_natCast]
    exact_mod_cast hlt

/-- **The binade of a positive rational.** -/
theorem binade_spec (hq : 0 < q) : (2 : ℚ) ^ binade q ≤ q ∧ q < 2 ^ (binade q + 1) := by
  have hnum : 0 < q.num.natAbs := Int.natAbs_pos.mpr (Rat.num_pos.mpr hq).ne'
  have hcast : (q.num.natAbs : ℚ) = q.num := by
    rw [Nat.cast_natAbs, abs_of_pos (Rat.num_pos.mpr hq)]
  obtain ⟨hnumLeast, hnumGreatest⟩ := log2_bounds hnum
  obtain ⟨hdenLeast, hdenGreatest⟩ := log2_bounds q.den_pos
  have hquotient : (q.num.natAbs : ℚ) / q.den = q := by rw [hcast, Rat.num_div_den]
  have hden : (0 : ℚ) < q.den := by exact_mod_cast q.den_pos
  set numLength : ℤ := (q.num.natAbs.log2 : ℤ)
  set denLength : ℤ := (q.den.log2 : ℤ)
  have hpower : (0 : ℚ) < 2 ^ (numLength - denLength - 1) := by positivity
  -- the quotient lies within two neighbouring binades
  have hleast : (2 : ℚ) ^ (numLength - denLength - 1) < q := by
    rw [← hquotient, lt_div_iff₀ hden]
    calc (2 : ℚ) ^ (numLength - denLength - 1) * q.den
        < 2 ^ (numLength - denLength - 1) * 2 ^ (denLength + 1) := mul_lt_mul_of_pos_left hdenGreatest hpower
      _ = 2 ^ numLength := by rw [← zpow_add₀ two_ne_zero]; congr 1; ring
      _ ≤ q.num.natAbs := hnumLeast
  have hgreatest : q < (2 : ℚ) ^ (numLength - denLength + 1) := by
    rw [← hquotient, div_lt_iff₀ hden]
    calc (q.num.natAbs : ℚ) < 2 ^ (numLength + 1) := hnumGreatest
      _ = 2 ^ (numLength - denLength + 1) * 2 ^ denLength := by
        rw [← zpow_add₀ two_ne_zero]; congr 1; ring
      _ ≤ 2 ^ (numLength - denLength + 1) * q.den := by gcongr
  unfold binade
  dsimp only
  split
  · exact ⟨‹_›, hgreatest⟩
  · rw [sub_add_cancel]
    exact ⟨hleast.le, not_le.mp ‹_›⟩

theorem le_binade (hq : 0 < q) (h : (2 : ℚ) ^ k ≤ q) : k ≤ binade q := by
  have hlt := h.trans_lt (binade_spec hq).2
  have := (zpow_lt_zpow_iff_right₀ one_lt_two).mp hlt
  omega

theorem binade_lt (hq : 0 < q) (h : q < (2 : ℚ) ^ k) : binade q < k :=
  (zpow_lt_zpow_iff_right₀ one_lt_two).mp ((binade_spec hq).1.trans_lt h)

/-! ## What rounds to a double -/

namespace Binary64

variable {negative : Bool} {m : ℕ} {e : ℤ}

theorem nearest_eq (hq : q ≠ 0) (hgrid : gridExponent q = e) (hround : roundHalfEven (q / (2 : ℚ) ^ e) = m)
    (canonical : CanonicalForm m e) : nearest negative q = .finite ⟨negative, m, e, canonical⟩ := by
  subst hgrid
  have hmantissa : (roundHalfEven (q / (2 : ℚ) ^ gridExponent q)).toNat = m := by rw [hround, Int.toNat_natCast]
  unfold nearest
  simp only [if_neg hq, hmantissa, dif_pos canonical]

/-- What rounds up to a mantissa with one bit too many is held with the next exponent. -/
theorem nearest_carry (hq : q ≠ 0) (hgrid : gridExponent q = e)
    (hround : roundHalfEven (q / (2 : ℚ) ^ e) = (2 * leastFullMantissa : ℕ))
    (canonical : CanonicalForm leastFullMantissa (e + 1)) :
    nearest negative q = .finite ⟨negative, leastFullMantissa, e + 1, canonical⟩ := by
  subst hgrid
  have hmantissa : (roundHalfEven (q / (2 : ℚ) ^ gridExponent q)).toNat = 2 * leastFullMantissa := by
    rw [hround, Int.toNat_natCast]
  have hlong : ¬CanonicalForm (2 * leastFullMantissa) (gridExponent q) := fun h => lt_irrefl _ h.1
  unfold nearest
  simp only [if_neg hq, hmantissa, dif_neg hlong, canonical, true_and, dif_pos]

theorem nearest_huge (hq : 0 < q) (h : (2 : ℚ) ^ (1024 : ℤ) ≤ q) : nearest negative q = .infinite negative := by
  have hbinade := le_binade hq h
  have hgrid : 971 < gridExponent q := by
    unfold gridExponent
    omega
  have hnot : ∀ m e, 971 < e → ¬CanonicalForm m e := fun m e he hform => by
    have := hform.2.2.1
    omega
  unfold nearest
  simp only [if_neg hq.ne', dif_neg (hnot _ _ hgrid)]
  rw [dif_neg]
  exact fun hcarry => hnot _ _ (by omega) hcarry.2

theorem nearest_tiny (hq : 0 < q) (h : q < (2 : ℚ) ^ (-1076 : ℤ)) :
    nearest negative q = .finite (.zero negative) := by
  have hbinade := binade_lt hq h
  have hgrid : gridExponent q = -1074 := by
    unfold gridExponent
    omega
  have hquarter : q / (2 : ℚ) ^ (-1074 : ℤ) < 1 / 4 := by
    rw [div_lt_iff₀ (by positivity)]
    calc q < (2 : ℚ) ^ (-2 + -1074 : ℤ) := h
      _ = 1 / 4 * (2 : ℚ) ^ (-1074 : ℤ) := by
        rw [zpow_add₀ two_ne_zero]
        norm_num
  have hpos : 0 < q / (2 : ℚ) ^ (-1074 : ℤ) := by positivity
  refine nearest_eq hq.ne' hgrid (roundHalfEven_of_close ?_) _
  rw [Nat.cast_zero, Int.cast_zero, sub_zero, abs_of_pos hpos]
  linarith

theorem binade_lt_of_scaled (hq : 0 < q) (h : q / (2 : ℚ) ^ e < 2 ^ k) : binade q < k + e := by
  rw [div_lt_iff₀ (by positivity), ← zpow_add₀ two_ne_zero] at h
  exact binade_lt hq h

theorem le_binade_of_scaled (hq : 0 < q) (h : (2 : ℚ) ^ k ≤ q / (2 : ℚ) ^ e) : k + e ≤ binade q := by
  rw [le_div_iff₀ (by positivity), ← zpow_add₀ two_ne_zero] at h
  exact le_binade hq h

/-- **What rounds to a double**: everything within half a unit of it, and within a quarter below the least full
mantissa. -/
theorem nearest_of_close {x : Finite64} (hx : x.mantissa ≠ 0)
    (hclose : |q - x.magnitude| < (2 : ℚ) ^ x.exponent / 2)
    (hedge : x.mantissa = leastFullMantissa → x.magnitude - q < (2 : ℚ) ^ x.exponent / 4) :
    nearest x.negative q = .finite x := by
  obtain ⟨negative, m, e, canonical⟩ := x
  dsimp only [Finite64.magnitude] at hx hclose hedge ⊢
  obtain ⟨hshort, hleast, -, hfull⟩ := id canonical
  have hunit : (0 : ℚ) < 2 ^ e := by positivity
  obtain ⟨z, rfl⟩ : ∃ z, q = z * (2 : ℚ) ^ e := ⟨q / 2 ^ e, by field_simp⟩
  -- in units of the last place
  have hclose : |z - m| < 1 / 2 := by
    rw [← sub_mul, abs_mul, abs_of_pos hunit, div_eq_mul_one_div, mul_comm ((2 : ℚ) ^ e)] at hclose
    exact lt_of_mul_lt_mul_right hclose hunit.le
  have hedge : m = leastFullMantissa → m - z < 1 / 4 := fun h => by
    have hscaled := hedge h
    rw [← sub_mul, div_eq_mul_one_div, mul_comm ((2 : ℚ) ^ e)] at hscaled
    exact lt_of_mul_lt_mul_right hscaled hunit.le
  obtain ⟨hleft, hright⟩ := abs_lt.mp hclose
  have hone : (1 : ℚ) ≤ m := by exact_mod_cast Nat.one_le_iff_ne_zero.mpr hx
  have hq : 0 < z * (2 : ℚ) ^ e := mul_pos (by linarith) hunit
  have hscaled : z * (2 : ℚ) ^ e / 2 ^ e = z := by field_simp
  have htop : (2 : ℚ) ^ (53 : ℤ) = 2 * leastFullMantissa := by norm_num [leastFullMantissa]
  have hm : (m : ℚ) + 1 ≤ 2 * leastFullMantissa := by exact_mod_cast hshort
  have hbelow := binade_lt_of_scaled (k := 53) hq (by rw [hscaled, htop]; linarith)
  by_cases hgrid : gridExponent (z * (2 : ℚ) ^ e) = e
  · exact nearest_eq hq.ne' hgrid (roundHalfEven_of_close (by rw [hscaled]; exact_mod_cast hclose)) canonical
  · -- the grid is finer only where the least full mantissa is not reached
    obtain ⟨hnormal, hfine⟩ : -1074 < e ∧ binade (z * (2 : ℚ) ^ e) < 52 + e := by
      unfold gridExponent at hgrid
      omega
    have hlong : leastFullMantissa ≤ m := hfull.resolve_right (by omega)
    have hbottom : (2 : ℚ) ^ (52 : ℤ) = leastFullMantissa := by norm_num [leastFullMantissa]
    have hz : z < leastFullMantissa := by
      by_contra hz
      have := le_binade_of_scaled (k := 52) hq (by rw [hscaled, hbottom]; exact not_lt.mp hz)
      omega
    have hmax : m ≤ leastFullMantissa := by
      have hlt : (m : ℚ) < (leastFullMantissa + 1 : ℕ) := by push_cast; linarith
      exact Nat.lt_succ_iff.mp (by exact_mod_cast hlt)
    obtain rfl : m = leastFullMantissa := le_antisymm hmax hlong
    have hquarter := hedge rfl
    have hhalf : (2 : ℚ) ^ (51 : ℤ) ≤ leastFullMantissa - 1 / 4 := by norm_num [leastFullMantissa]
    have hfine' := le_binade_of_scaled (k := 51) hq (by rw [hscaled]; linarith)
    have hgrid' : gridExponent (z * (2 : ℚ) ^ e) = e - 1 := by
      unfold gridExponent
      omega
    have hdouble : z * (2 : ℚ) ^ e / 2 ^ (e - 1) = 2 * z := by
      rw [zpow_sub_one₀ two_ne_zero]
      field_simp
    have hcarry : nearest negative (z * (2 : ℚ) ^ e) = .finite _ := nearest_carry hq.ne' hgrid' (by
      refine roundHalfEven_of_close ?_
      rw [hdouble, abs_lt]
      push_cast
      constructor <;> linarith) (by rwa [sub_add_cancel])
    simpa only [sub_add_cancel] using hcarry

end Binary64

/-! ## Far outside -/

namespace Decimal

variable {d : Decimal}

theorem digitCount_bounds {n : ℕ} (hn : 0 < n) : 10 ^ (digitCount n - 1) ≤ n ∧ n < 10 ^ digitCount n := by
  have hle : ∀ k, 0 < k → (digitCount n ≤ k ↔ n < 10 ^ k) := fun k => Nat.length_toDigits_le_iff (by decide)
  have hpos : 0 < digitCount n := List.length_pos_iff.mpr Nat.toDigits_ne_nil
  refine ⟨?_, (hle _ hpos).mp le_rfl⟩
  rcases Nat.eq_zero_or_pos (digitCount n - 1) with hzero | hrest
  · rw [hzero]
    exact hn
  · by_contra h
    have := (hle _ hrest).mpr (not_le.mp h)
    omega

/-- A numeral lies between the powers of ten that its order tells. -/
theorem magnitude_bounds (hd : d.coefficient ≠ 0) :
    (10 : ℚ) ^ (d.order - 1) ≤ d.magnitude ∧ d.magnitude < (10 : ℚ) ^ d.order := by
  obtain ⟨hleast, hgreatest⟩ := digitCount_bounds (Nat.pos_of_ne_zero hd)
  have hpos : 0 < digitCount d.coefficient := List.length_pos_iff.mpr Nat.toDigits_ne_nil
  have hunit : (0 : ℚ) < 10 ^ d.exponent := by positivity
  have horder : d.order - 1 = ((digitCount d.coefficient - 1 : ℕ) : ℤ) + d.exponent := by
    unfold order
    omega
  have horder' : d.order = (digitCount d.coefficient : ℤ) + d.exponent := by
    unfold order
    omega
  constructor
  · rw [horder, zpow_add₀ (by norm_num), zpow_natCast]
    exact mul_le_mul_of_nonneg_right (by exact_mod_cast hleast) hunit.le
  · rw [horder', zpow_add₀ (by norm_num), zpow_natCast]
    exact mul_lt_mul_of_pos_right (by exact_mod_cast hgreatest) hunit

/-- The range of doubles is far inside the orders that are told apart. -/
theorem two_pow_le_ten_pow : (2 : ℚ) ^ (1280 : ℤ) ≤ 10 ^ (400 : ℤ) := by
  have hblock : (2 : ℚ) ^ (64 : ℤ) ≤ 10 ^ (20 : ℤ) := by norm_num
  rw [show (1280 : ℤ) = 64 * 20 by norm_num, show (400 : ℤ) = 20 * 20 by norm_num, zpow_mul, zpow_mul]
  exact zpow_le_zpow_left₀ (by norm_num) (by positivity) hblock

/-- **Where a numeral is settled by its order alone, rounding would have come to the same.** -/
theorem toBinary64_eq_nearest (d : Decimal) : d.toBinary64 = .nearest d.negative d.magnitude := by
  unfold toBinary64
  split
  · rename_i hzero
    rw [Binary64.nearest, if_pos (by rw [magnitude, hzero, Nat.cast_zero, zero_mul])]
  rename_i hd
  obtain ⟨hleast, hgreatest⟩ := magnitude_bounds hd
  have hpos : 0 < d.magnitude := lt_of_lt_of_le (by positivity) hleast
  split
  · refine (Binary64.nearest_huge hpos ?_).symm
    calc (2 : ℚ) ^ (1024 : ℤ) ≤ 2 ^ (1280 : ℤ) := zpow_le_zpow_right₀ one_le_two (by norm_num)
      _ ≤ 10 ^ (400 : ℤ) := two_pow_le_ten_pow
      _ ≤ 10 ^ (d.order - 1) := zpow_le_zpow_right₀ (by norm_num) (by omega)
      _ ≤ d.magnitude := hleast
  split
  · refine (Binary64.nearest_tiny hpos ?_).symm
    calc d.magnitude < 10 ^ d.order := hgreatest
      _ ≤ 10 ^ (-400 : ℤ) := zpow_le_zpow_right₀ (by norm_num) (by omega)
      _ ≤ 2 ^ (-1280 : ℤ) := by
        rw [zpow_neg, zpow_neg]
        exact inv_anti₀ (by positivity) two_pow_le_ten_pow
      _ ≤ 2 ^ (-1076 : ℤ) := zpow_le_zpow_right₀ one_le_two (by norm_num)
  · rfl

end Decimal

end JsonMend
