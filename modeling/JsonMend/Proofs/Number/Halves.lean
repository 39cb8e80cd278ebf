import JsonMend.Proofs.Number.Grid
/-
  A half added to a double.

  To round a numeral to an integer, a half is added to its double and the sum, a double again, is cut down.  Two
  roundings lie between the numeral and the integer.

  1. **Integers** (`floor_nearby_int_add_half`) — from `2 ^ 52` on the sum is a tie, which goes to the even neighbour,
     and that is one too many for an odd integer.
  2. **The sum** (`floor_nearby_add_half`) — below, the sum is cut down to the right integer, unless the double is the
     one just below `1 / 2`.
  3. **Few digits** (`AtMostDigits`) — a numeral of 16 digits is far enough from every half that its double stays on
     the same side of it, and so far from `1 / 2` that its double is not the one just below.
  4. **Both roundings** (`floor_nearby_nearby`) — so the outcome is right, but for odd integers beyond `2 ^ 52`.
-/
namespace JsonMend

open Binary64

variable {q x : ℚ} {m n k : ℤ} {f : ℕ}

namespace Binary64

/-! ## Integers -/

theorem nearby_int (hn : |n| ≤ 2 ^ 53) : nearby n = n := by
  have hcast : |(n : ℚ)| = (|n| : ℤ) := (Int.cast_abs ..).symm
  refine nearby_of_onGrid ?_
  rcases hn.lt_or_eq with hlt | heq
  · have hlt : |(n : ℚ)| < 2 ^ (53 : ℤ) := by
      rw [hcast]
      exact_mod_cast hlt
    exact onGrid_int n (by have := gridExponent_abs_le hlt (by decide); omega)
  · have hlt : |(n : ℚ)| < 2 ^ (54 : ℤ) := by
      rw [hcast, heq]
      norm_num
    have heven : OnGrid n 1 := by
      obtain ⟨k, hk⟩ : ∃ k, n = k * 2 := by
        rcases abs_eq_abs.mp (heq.trans (abs_of_pos (by norm_num)).symm) with h | h
        · exact ⟨2 ^ 52, by rw [h]; norm_num⟩
        · exact ⟨-2 ^ 52, by rw [h]; norm_num⟩
      exact ⟨k, by rw [hk, zpow_one]; push_cast; ring⟩
    exact heven.mono (by have := gridExponent_abs_le hlt (by decide); omega)

/-- In the last binade that has integers and no halves, rounding is to an integer. -/
theorem rounded_of_last (hle : (2 : ℚ) ^ (52 : ℤ) ≤ q) (hlt : q < (2 : ℚ) ^ (53 : ℤ)) : rounded q = roundHalfEven q := by
  have hpos : 0 < q := lt_of_lt_of_le (by positivity) hle
  have hgrid : gridExponent q = 0 := by
    have := le_binade hpos hle
    have := binade_lt hpos hlt
    unfold gridExponent
    omega
  rw [rounded, hgrid, zpow_zero, div_one, mul_one]

/-- **A half added to an integer** is lost from `2 ^ 52` on, and for an odd integer it becomes one. -/
theorem floor_nearby_int_add_half (hn : |n| ≤ 2 ^ 53) :
    ⌊nearby (n + 1 / 2)⌋ = n + if n % 2 = 1 ∧ 2 ^ 52 < |n| then 1 else 0 := by
  obtain ⟨hleast, hgreatest⟩ := abs_le.mp hn
  have hleast' : -(2 : ℚ) ^ 53 ≤ n := by exact_mod_cast hleast
  rcases lt_or_ge n (-2 ^ 52) with hlow | hlow
  · -- the sum is a tie of the last binade, on the negative side
    have hlow' : (n : ℚ) + 1 ≤ -2 ^ 52 := by exact_mod_cast hlow
    have hcase : n % 2 = 1 ∧ 2 ^ 52 < |n| ↔ (-n - 1) % 2 = 0 := by
      rw [abs_of_neg (by omega)]
      omega
    have hmirror : -((n : ℚ) + 1 / 2) = (-n - 1 : ℤ) + 1 / 2 := by push_cast; ring
    rw [nearby_of_neg (by linarith), rounded_of_last (by norm_num; linarith) (by norm_num; linarith), hmirror,
      roundHalfEven_add_half, ← Int.cast_neg, Int.floor_intCast]
    split_ifs with heven hodd hodd <;> omega
  rcases lt_or_ge n (2 ^ 52) with hmiddle | hhigh
  · -- halves are on the grid
    have hlow' : -(2 : ℚ) ^ 52 ≤ n := by exact_mod_cast hlow
    have hmiddle' : (n : ℚ) + 1 ≤ 2 ^ 52 := by exact_mod_cast hmiddle
    have hlt : |(n : ℚ) + 1 / 2| < 2 ^ (52 : ℤ) := abs_lt.mpr ⟨by norm_num; linarith, by norm_num; linarith⟩
    have hgrid := gridExponent_abs_le hlt (by decide)
    have hnot : ¬(n % 2 = 1 ∧ 2 ^ 52 < |n|) := fun h => absurd h.2 (not_lt.mpr (abs_le.mpr ⟨hlow, hmiddle.le⟩))
    rw [nearby_of_onGrid (onGrid_half n (by omega)), if_neg hnot, add_zero]
    exact Int.floor_eq_iff.mpr ⟨by linarith, by linarith⟩
  rcases hgreatest.lt_or_eq with hlast | rfl
  · -- the sum is a tie of the last binade
    have hhigh' : (2 : ℚ) ^ 52 ≤ n := by exact_mod_cast hhigh
    have hlast' : (n : ℚ) + 1 ≤ 2 ^ 53 := by exact_mod_cast hlast
    have hcase : n % 2 = 1 ∧ 2 ^ 52 < |n| ↔ ¬n % 2 = 0 := by
      rw [abs_of_pos (by omega)]
      omega
    rw [nearby_of_nonneg (by linarith), rounded_of_last (by norm_num; linarith) (by norm_num; linarith),
      roundHalfEven_add_half, Int.floor_intCast]
    split_ifs with heven hodd hodd <;> omega
  · decide +kernel

/-! ## The sum -/

/-- What lies between an integer and the next has the binade that the integer has. -/
theorem gridExponent_add_half_le (hn : 1 ≤ n) (hle : (n : ℚ) ≤ x) (hlt : x < n + 1 / 2) :
    gridExponent (x + 1 / 2) ≤ gridExponent x := by
  have hone : (1 : ℚ) ≤ n := by exact_mod_cast hn
  have hpos : 0 < x := by linarith
  have hbinade : 0 ≤ binade x := le_binade hpos (by rw [zpow_zero]; linarith)
  obtain ⟨b, hb⟩ := Int.eq_ofNat_of_zero_le hbinade
  have hpower : (2 : ℚ) ^ (binade x + 1) = ((2 ^ (b + 1) : ℤ) : ℚ) := by
    rw [hb]
    push_cast
    rfl
  have hnext : (n : ℚ) + 1 ≤ 2 ^ (binade x + 1) := by
    have hlt := hle.trans_lt (binade_spec hpos).2
    rw [hpower] at hlt ⊢
    exact_mod_cast hlt
  have := binade_lt (by linarith) (lt_of_lt_of_le (by linarith : x + 1 / 2 < n + 1) hnext)
  unfold gridExponent
  omega

/-- **A half added to a double** below `2 ^ 51`: the sum is cut down to the integer that the double is nearest to,
unless the double is the one just below `1 / 2`. -/
theorem floor_nearby_add_half (hx : OnGrid x (gridExponent |x|)) (hsmall : |x| ≤ 2 ^ 51) (hle : n - 1 / 2 ≤ x)
    (hlt : x < n + 1 / 2) (hedge : n = 0 → x < 1 / 2 - 1 / 2 ^ 54) : ⌊nearby (x + 1 / 2)⌋ = n := by
  obtain ⟨hleast, hgreatest⟩ := abs_le.mp hsmall
  have hfine : gridExponent |x| ≤ -1 := by
    have := gridExponent_abs_le (n := 52) (hsmall.trans_lt (by norm_num)) (by decide)
    omega
  have hsum : |x + 1 / 2| < (2 : ℚ) ^ (52 : ℤ) := abs_lt.mpr ⟨by norm_num; linarith, by norm_num; linarith⟩
  have hfine' : gridExponent |x + 1 / 2| ≤ -1 := by
    have := gridExponent_abs_le hsum (by decide)
    omega
  refine Int.floor_eq_iff.mpr ⟨le_nearby (onGrid_int n (by omega)) (by linarith), ?_⟩
  -- where the sum is no finer than the double, it is exact
  have hexact (h : gridExponent |x + 1 / 2| ≤ gridExponent |x|) : nearby (x + 1 / 2) = x + 1 / 2 := by
    have hhalf : OnGrid (1 / 2) (gridExponent |x|) := by simpa using onGrid_half 0 hfine
    exact nearby_of_onGrid ((hx.add hhalf).mono h)
  rcases lt_or_ge x n with hlow | hhigh
  · -- the next half is in between
    have := nearby_le (onGrid_half n hfine') (by linarith : x + 1 / 2 ≤ n + 1 / 2)
    linarith
  rcases lt_trichotomy n 0 with hneg | rfl | hpos
  · have hneg' : (n : ℚ) + 1 ≤ 0 := by exact_mod_cast hneg
    have hcloser : |x + 1 / 2| ≤ |x| := by
      rw [abs_of_neg (by linarith), abs_of_neg (by linarith)]
      linarith
    rw [hexact (gridExponent_mono (abs_pos.mpr (by linarith)) hcloser)]
    linarith
  · have hbelow := hedge rfl
    rw [Int.cast_zero] at hhigh ⊢
    have hgrid := gridExponent_abs_le (q := x + 1 / 2) (n := 0) (by rw [abs_of_pos (by linarith)]; linarith) le_rfl
    have hunit : (2 : ℚ) ^ gridExponent |x + 1 / 2| ≤ 1 / 2 ^ 53 :=
      (zpow_le_zpow_right₀ one_le_two hgrid).trans_eq (by norm_num)
    have hclose := (abs_le.mp (abs_nearby_sub_le (x + 1 / 2))).2
    linarith
  · have hone : (1 : ℚ) ≤ n := by exact_mod_cast hpos
    have hbinade := gridExponent_add_half_le hpos hhigh hlt
    rw [hexact (by rwa [abs_of_pos (by linarith), abs_of_pos (by linarith)])]
    linarith

end Binary64

/-! ## Few digits -/

/-- A number has so many digits from the first to the last that is no zero, or fewer. -/
def AtMostDigits (k : ℕ) (q : ℚ) : Prop := ∃ m e : ℤ, m.natAbs < 10 ^ k ∧ q = m * (10 : ℚ) ^ e

/-- A number of few digits that is no integer has some of them behind the point. -/
theorem AtMostDigits.behindPoint {digits : ℕ} (hq : AtMostDigits digits q) (hfraction : q.den ≠ 1) :
    ∃ (f : ℕ) (m : ℤ), q * 10 ^ (f + 1) = m ∧ |q| * 10 ^ (f + 1) < 10 ^ digits := by
  obtain ⟨m, e, hm, rfl⟩ := hq
  rcases lt_or_ge e 0 with hneg | hpos
  · obtain ⟨f, rfl⟩ : ∃ f : ℕ, e = -((f + 1 : ℕ) : ℤ) := ⟨(-e).toNat - 1, by omega⟩
    have hscaled : (m : ℚ) * 10 ^ (-((f + 1 : ℕ) : ℤ)) * 10 ^ (f + 1) = m := by
      rw [zpow_neg, zpow_natCast, mul_assoc, inv_mul_cancel₀ (by positivity), mul_one]
    refine ⟨f, m, hscaled, ?_⟩
    rw [← abs_of_pos (by positivity : (0 : ℚ) < 10 ^ (f + 1)), ← abs_mul, hscaled, ← Int.cast_abs, ← Nat.cast_natAbs]
    exact_mod_cast hm
  · obtain ⟨t, rfl⟩ := Int.eq_ofNat_of_zero_le hpos
    refine absurd ?_ hfraction
    rw [zpow_natCast]
    exact_mod_cast Rat.den_intCast (m * 10 ^ t)

/-- Below a half, it is at least a unit of its last digit below. -/
theorem one_le_below_half (hm : q * 10 ^ (f + 1) = m) (hlt : q < k + 1 / 2) : 1 ≤ (k + 1 / 2 - q) * 10 ^ (f + 1) := by
  have hscaled : (k + 1 / 2 - q) * 10 ^ (f + 1) = (((10 * k + 5) * 10 ^ f - m : ℤ) : ℚ) := by
    push_cast
    rw [sub_mul, hm]
    ring
  have hpos : 0 < (k + 1 / 2 - q) * 10 ^ (f + 1) := mul_pos (by linarith) (by positivity)
  rw [hscaled] at hpos ⊢
  exact_mod_cast hpos

/-- In every binade the numbers of 16 digits with a digit behind the point are further apart than doubles. -/
theorem two_pow_mul_ten_pow_lt : ∀ f < 16, ∀ b < 50, 2 ^ b * 10 ^ (f + 1) < 10 ^ 16 → 2 ^ b * 10 ^ (f + 1) < 2 ^ 53 := by
  decide +kernel

theorem half_unit_lt (hf : f < 16) (hpos : 0 < q) (hq : q * 10 ^ (f + 1) < 10 ^ 16) :
    (2 : ℚ) ^ gridExponent q / 2 * 10 ^ (f + 1) < 1 := by
  have hten : (0 : ℚ) < 10 ^ (f + 1) := by positivity
  rcases lt_or_ge (binade q) 0 with hneg | hnonneg
  · have hunit : (2 : ℚ) ^ gridExponent q ≤ 2 ^ (-53 : ℤ) := by
      refine zpow_le_zpow_right₀ one_le_two ?_
      unfold gridExponent
      omega
    have hten' : (10 : ℚ) ^ (f + 1) ≤ 10 ^ 16 := pow_le_pow_right₀ (by norm_num) hf
    calc (2 : ℚ) ^ gridExponent q / 2 * 10 ^ (f + 1) ≤ 2 ^ (-53 : ℤ) / 2 * 10 ^ 16 := by gcongr
      _ < 1 := by norm_num
  · obtain ⟨b, hb⟩ := Int.eq_ofNat_of_zero_le hnonneg
    have hpower : (2 : ℚ) ^ b ≤ q := by
      have := (binade_spec hpos).1
      rwa [hb, zpow_natCast] at this
    have hshort : 2 ^ b * 10 ^ (f + 1) < 10 ^ 16 := by
      have : (2 : ℚ) ^ b * 10 ^ (f + 1) < 10 ^ 16 := (mul_le_mul_of_nonneg_right hpower hten.le).trans_lt hq
      exact_mod_cast this
    have hlow : b < 50 := by
      by_contra h
      have hle : 2 ^ 50 * 10 ≤ 2 ^ b * 10 ^ (f + 1) :=
        Nat.mul_le_mul (Nat.pow_le_pow_right (by decide) (not_lt.mp h)) (Nat.le_self_pow (Nat.succ_ne_zero f) 10)
      omega
    have htable : (2 : ℚ) ^ b * 10 ^ (f + 1) < 2 ^ 53 := by exact_mod_cast two_pow_mul_ten_pow_lt f hf b hlow hshort
    have hgrid : gridExponent q = (b : ℤ) - 52 := by
      unfold gridExponent
      omega
    rw [hgrid, zpow_sub₀ two_ne_zero, zpow_natCast]
    norm_num
    linarith

/-- A number with its last digit so far behind the point is a small one. -/
theorem abs_lt_tenth (hf : 16 ≤ f) (hq : |q| * 10 ^ (f + 1) < 10 ^ 16) : |q| < 1 / 10 := by
  have hten : (10 : ℚ) ^ 16 * 10 ≤ 10 ^ (f + 1) := by
    rw [← pow_succ]
    exact pow_le_pow_right₀ (by norm_num) (by omega)
  by_contra h
  have hle : 1 / 10 * (10 ^ 16 * 10) ≤ |q| * 10 ^ (f + 1) :=
    mul_le_mul (not_lt.mp h) hten (by positivity) (abs_nonneg q)
  linarith

/-- What is below a tenth stays below a quarter. -/
theorem nearby_le_quarter (hq : |q| < 1 / 10) : nearby q ≤ 1 / 4 := by
  have hgrid := gridExponent_abs_le (n := 0) (hq.trans (by norm_num)) le_rfl
  have hquarter : OnGrid (1 / 4) (-2) := ⟨1, by norm_num⟩
  exact nearby_le (hquarter.mono (by omega)) (by linarith [(abs_lt.mp hq).2])

section

variable (hfew : AtMostDigits 16 q) (hfraction : q.den ≠ 1)
include hfew hfraction

theorem abs_lt_of_few : |q| < 10 ^ 15 := by
  obtain ⟨f, m, -, hshort⟩ := hfew.behindPoint hfraction
  have hten : (10 : ℚ) ≤ 10 ^ (f + 1) := le_self_pow₀ (by norm_num) (Nat.succ_ne_zero f)
  have := mul_le_mul_of_nonneg_left hten (abs_nonneg q)
  linarith

/-- **A numeral of 16 digits that is below a half has a double below that half.** -/
theorem nearby_lt_half (hlt : q < k + 1 / 2) : nearby q < k + 1 / 2 := by
  obtain ⟨f, m, hm, hshort⟩ := hfew.behindPoint hfraction
  rcases lt_or_ge f 16 with hf | hf
  · have hten : (0 : ℚ) < 10 ^ (f + 1) := by positivity
    have hpos : 0 < |q| := abs_pos.mpr fun h => hfraction (by rw [h]; rfl)
    have hclose := (abs_le.mp (abs_nearby_sub_le q)).2
    have hscaled : (nearby q - q) * 10 ^ (f + 1) < (k + 1 / 2 - q) * 10 ^ (f + 1) :=
      calc (nearby q - q) * 10 ^ (f + 1) ≤ 2 ^ gridExponent |q| / 2 * 10 ^ (f + 1) := by gcongr
        _ < 1 := half_unit_lt hf hpos hshort
        _ ≤ (k + 1 / 2 - q) * 10 ^ (f + 1) := one_le_below_half hm hlt
    linarith [lt_of_mul_lt_mul_right hscaled hten.le]
  · have hsmall := abs_lt_tenth hf hshort
    have hk : (-1 : ℚ) < k := by linarith [(abs_lt.mp hsmall).1]
    have hk' : (0 : ℚ) ≤ k := by
      have : (-1 : ℤ) < k := by exact_mod_cast hk
      exact_mod_cast (show (0 : ℤ) ≤ k by omega)
    linarith [nearby_le_quarter hsmall]

/-- A numeral of 16 digits that is below `1 / 2` has a double below the one just below `1 / 2`. -/
theorem nearby_lt_below_half (hlt : q < 1 / 2) : nearby q < 1 / 2 - 1 / 2 ^ 54 := by
  obtain ⟨f, m, hm, hshort⟩ := hfew.behindPoint hfraction
  rcases lt_or_ge f 16 with hf | hf
  · rcases lt_or_ge q 0 with hneg | hpos
    · exact (nearby_nonpos hneg).trans_lt (by norm_num)
    have hpos' : 0 < |q| := abs_pos.mpr fun h => hfraction (by rw [h]; rfl)
    have hbelow : 1 / 10 ^ 16 ≤ 1 / 2 - q := by
      rw [div_le_iff₀ (by positivity)]
      calc 1 ≤ (1 / 2 - q) * 10 ^ (f + 1) := by simpa using one_le_below_half (k := 0) hm (by simpa using hlt)
        _ ≤ (1 / 2 - q) * 10 ^ 16 :=
          mul_le_mul_of_nonneg_left (pow_le_pow_right₀ (by norm_num) hf) (by linarith)
    have hgrid := gridExponent_le (n := -1) hpos' (by rw [abs_of_nonneg hpos]; norm_num; linarith) (by decide)
    have hunit : (2 : ℚ) ^ gridExponent |q| ≤ 1 / 2 ^ 54 :=
      (zpow_le_zpow_right₀ one_le_two hgrid).trans_eq (by norm_num)
    have hclose := (abs_le.mp (abs_nearby_sub_le q)).2
    linarith
  · exact (nearby_le_quarter (abs_lt_tenth hf hshort)).trans_lt (by norm_num)

end

/-! ## Both roundings -/

/-- What the sum with a half comes out too great by. -/
def overshoot (q : ℚ) : ℤ := if q.den = 1 ∧ q.num % 2 = 1 ∧ 2 ^ 52 < |q.num| then 1 else 0

theorem overshoot_int (n : ℤ) : overshoot n = if n % 2 = 1 ∧ 2 ^ 52 < |n| then 1 else 0 := by
  simp [overshoot]

theorem roundHalfUp_eq_iff : roundHalfUp q = n ↔ (n : ℚ) ≤ q + 1 / 2 ∧ q + 1 / 2 < n + 1 :=
  Int.floor_eq_iff (a := q + 1 / 2)

theorem roundHalfUp_int (n : ℤ) : roundHalfUp n = n := roundHalfUp_eq_iff.mpr ⟨by linarith, by linarith⟩

theorem floor_nearby_of_fraction (hfew : AtMostDigits 16 q) (hfraction : q.den ≠ 1) :
    ⌊nearby (nearby q + 1 / 2)⌋ = roundHalfUp q := by
  have hsmall := (abs_lt_of_few hfew hfraction).le
  have hfine : gridExponent |q| ≤ -1 := by
    have := gridExponent_abs_le (n := 52) (hsmall.trans_lt (by norm_num)) (by decide)
    omega
  obtain ⟨n, hn⟩ : ∃ n, roundHalfUp q = n := ⟨_, rfl⟩
  obtain ⟨hle, hlt⟩ := roundHalfUp_eq_iff.mp hn
  have hhalf : OnGrid (n - 1 / 2) (gridExponent |q|) := by
    have := onGrid_half (n - 1) hfine
    rwa [show ((n - 1 : ℤ) : ℚ) + 1 / 2 = n - 1 / 2 by push_cast; ring] at this
  rw [hn]
  refine floor_nearby_add_half (onGrid_nearby (lt_greatest_binade (hsmall.trans (by norm_num))))
    (abs_nearby_le (hsmall.trans (by norm_num))) (le_nearby hhalf (by linarith))
    (nearby_lt_half hfew hfraction (by linarith)) ?_
  rintro rfl
  rw [Int.cast_zero] at hlt
  exact nearby_lt_below_half hfew hfraction (by linarith)

/-- **A numeral of 16 digits, taken to a double, a half added and the sum cut down**: the nearest integer, a half
going up, and one more for an odd integer beyond `2 ^ 52`. -/
theorem floor_nearby_nearby (hfew : AtMostDigits 16 q) (hrange : |q| ≤ 2 ^ 53) :
    ⌊nearby (nearby q + 1 / 2)⌋ = roundHalfUp q + overshoot q := by
  by_cases hint : q.den = 1
  · obtain ⟨n, rfl⟩ : ∃ n : ℤ, q = n := ⟨q.num, ((Rat.den_eq_one_iff q).mp hint).symm⟩
    have hn : |n| ≤ 2 ^ 53 := by exact_mod_cast hrange
    rw [nearby_int hn, floor_nearby_int_add_half hn, roundHalfUp_int, overshoot_int]
  · rw [floor_nearby_of_fraction hfew hint, overshoot, if_neg fun h => hint h.1, add_zero]

theorem Decimal.addHalfFloor_toBinary64 {d : Decimal} (hfew : AtMostDigits 16 d.toRat) (hrange : |d.toRat| ≤ 2 ^ 53) :
    ∃ x : Finite64, d.toBinary64 = .finite x ∧ x.addHalfFloor = roundHalfUp d.toRat + overshoot d.toRat := by
  obtain ⟨x, hx, hrat⟩ := toBinary64_nearby (lt_greatest_binade (hrange.trans (by norm_num)))
  have hsum : |nearby d.toRat + 1 / 2| ≤ 2 ^ 54 := by
    obtain ⟨hleast, hgreatest⟩ := abs_le.mp (abs_nearby_le hrange)
    exact abs_le.mpr ⟨by linarith, by linarith⟩
  refine ⟨x, hx, ?_⟩
  rw [Finite64.addHalfFloor_eq (by rw [hrat]; exact lt_greatest_binade hsum), hrat, floor_nearby_nearby hfew hrange]

end JsonMend
