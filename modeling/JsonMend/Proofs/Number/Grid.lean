import JsonMend.Proofs.Number.Rounding
/-
  Rounding on the grid of doubles.

  A magnitude is rounded to a multiple of a power of two, which its binade tells.  So where a double comes from can be
  said without its mantissa and exponent.

  1. **Integers** — rounding crosses no integer (`le_roundHalfEven`, `roundHalfEven_le`) and goes half a unit at most.
  2. **Grids** (`OnGrid`) — a finer grid has all points of a coarser one, and a smaller magnitude the finer grid.
  3. **Magnitudes** (`rounded`) — rounding crosses no point of the grid, goes half a unit of it at most, and leaves its
     points where they are.
  4. **Doubles** (`nearest_rounded`) — the nearest double has the rounded magnitude; it is a point of its own grid.
  5. **Either sign** (`nearby`) — what a rational or a numeral becomes as a double.  Rounding crosses no point of the
     grid here either (`le_nearby`, `nearby_le`), and no power of two (`abs_nearby_le`).
-/
namespace JsonMend

variable {q r : ℚ} {n g h : ℤ}

/-! ## Integers -/

theorem roundHalfEven_cases (q : ℚ) : (roundHalfEven q = q.floor ∧ q - q.floor ≤ 1 / 2) ∨
    (roundHalfEven q = q.floor + 1 ∧ 1 / 2 ≤ q - q.floor) := by
  unfold roundHalfEven
  dsimp only
  split_ifs with hlow hhigh heven
  · exact .inl ⟨rfl, hlow.le⟩
  · exact .inr ⟨rfl, hhigh.le⟩
  · exact .inl ⟨rfl, not_lt.mp hhigh⟩
  · exact .inr ⟨rfl, not_lt.mp hlow⟩

theorem le_roundHalfEven (hn : (n : ℚ) ≤ q) : n ≤ roundHalfEven q := by
  have hfloor : n ≤ q.floor := Rat.le_floor_iff.mpr hn
  rcases roundHalfEven_cases q with ⟨hround, -⟩ | ⟨hround, -⟩ <;> omega

theorem roundHalfEven_le (hn : q ≤ n) : roundHalfEven q ≤ n := by
  rcases roundHalfEven_cases q with ⟨hround, -⟩ | ⟨hround, hrest⟩
  · have hfloor : (q.floor : ℚ) ≤ n := (Rat.floor_le q).trans hn
    rw [hround]
    exact_mod_cast hfloor
  · have hfloor : (q.floor : ℚ) < n := by linarith
    rw [hround]
    exact_mod_cast hfloor

theorem abs_roundHalfEven_sub_le (q : ℚ) : |(roundHalfEven q : ℚ) - q| ≤ 1 / 2 := by
  have hle := Rat.floor_le q
  have hlt := Rat.lt_floor_add_one q
  push_cast at hlt
  rw [abs_le]
  rcases roundHalfEven_cases q with ⟨hround, hrest⟩ | ⟨hround, hrest⟩
  · rw [hround]
    constructor <;> linarith
  · rw [hround]
    push_cast
    constructor <;> linarith

/-- A half goes to the even neighbour. -/
theorem roundHalfEven_add_half (n : ℤ) : roundHalfEven (n + 1 / 2) = if n % 2 = 0 then n else n + 1 := by
  have hfloor : (n + 1 / 2 : ℚ).floor = n := floor_eq_of_bounds (by linarith) (by linarith)
  have hrest : (n + 1 / 2 : ℚ) - n = 1 / 2 := by ring
  unfold roundHalfEven
  dsimp only
  rw [hfloor, hrest, if_neg (lt_irrefl _), if_neg (lt_irrefl _)]

/-! ## Grids -/

/-- A multiple of a power of two. -/
def OnGrid (q : ℚ) (g : ℤ) : Prop := ∃ k : ℤ, q = k * (2 : ℚ) ^ g

theorem OnGrid.mono (hq : OnGrid q g) (hle : h ≤ g) : OnGrid q h := by
  obtain ⟨k, rfl⟩ := hq
  obtain ⟨d, rfl⟩ : ∃ d : ℕ, g = h + d := ⟨(g - h).toNat, by omega⟩
  refine ⟨k * 2 ^ d, ?_⟩
  rw [zpow_add₀ two_ne_zero, zpow_natCast]
  push_cast
  ring

theorem OnGrid.add (hq : OnGrid q g) (hr : OnGrid r g) : OnGrid (q + r) g := by
  obtain ⟨k, rfl⟩ := hq
  obtain ⟨l, rfl⟩ := hr
  exact ⟨k + l, by push_cast; ring⟩

theorem OnGrid.neg (hq : OnGrid q g) : OnGrid (-q) g := by
  obtain ⟨k, rfl⟩ := hq
  exact ⟨-k, by push_cast; ring⟩

theorem onGrid_int (n : ℤ) (hg : g ≤ 0) : OnGrid n g :=
  OnGrid.mono ⟨n, by rw [zpow_zero, mul_one]⟩ hg

theorem onGrid_half (n : ℤ) (hg : g ≤ -1) : OnGrid (n + 1 / 2) g :=
  OnGrid.mono ⟨2 * n + 1, by push_cast; rw [zpow_neg_one]; ring⟩ hg

namespace Binary64

theorem gridExponent_mono (hq : 0 < q) (hle : q ≤ r) : gridExponent q ≤ gridExponent r := by
  have hbinade := le_binade (hq.trans_le hle) ((binade_spec hq).1.trans hle)
  unfold gridExponent
  omega

theorem gridExponent_le (hq : 0 < q) (hlt : q < (2 : ℚ) ^ n) (hn : -1021 ≤ n) : gridExponent q ≤ n - 53 := by
  have hbinade := binade_lt hq hlt
  unfold gridExponent
  omega

theorem gridExponent_abs_le (hlt : |q| < (2 : ℚ) ^ n) (hn : 0 ≤ n) : gridExponent |q| ≤ n - 53 := by
  rcases eq_or_ne q 0 with rfl | hq
  · have hzero : gridExponent |(0 : ℚ)| = -53 := by
      rw [abs_zero]
      decide +kernel
    omega
  · exact gridExponent_le (abs_pos.mpr hq) hlt (by omega)

/-! ## Magnitudes -/

/-- What a magnitude becomes on its grid. -/
def rounded (q : ℚ) : ℚ := roundHalfEven (q / (2 : ℚ) ^ gridExponent q) * (2 : ℚ) ^ gridExponent q

theorem le_rounded (hr : OnGrid r (gridExponent q)) (hle : r ≤ q) : r ≤ rounded q := by
  obtain ⟨k, rfl⟩ := hr
  have hunit : (0 : ℚ) < 2 ^ gridExponent q := by positivity
  rw [← le_div_iff₀ hunit] at hle
  have hround : (k : ℚ) ≤ roundHalfEven (q / 2 ^ gridExponent q) := by exact_mod_cast le_roundHalfEven hle
  exact mul_le_mul_of_nonneg_right hround hunit.le

theorem rounded_le (hr : OnGrid r (gridExponent q)) (hle : q ≤ r) : rounded q ≤ r := by
  obtain ⟨k, rfl⟩ := hr
  have hunit : (0 : ℚ) < 2 ^ gridExponent q := by positivity
  rw [← div_le_iff₀ hunit] at hle
  have hround : (roundHalfEven (q / 2 ^ gridExponent q) : ℚ) ≤ k := by exact_mod_cast roundHalfEven_le hle
  exact mul_le_mul_of_nonneg_right hround hunit.le

theorem rounded_of_onGrid (hq : OnGrid q (gridExponent q)) : rounded q = q :=
  le_antisymm (rounded_le hq le_rfl) (le_rounded hq le_rfl)

theorem rounded_zero : rounded 0 = 0 := rounded_of_onGrid ⟨0, by rw [Int.cast_zero, zero_mul]⟩

theorem rounded_nonneg (hq : 0 ≤ q) : 0 ≤ rounded q :=
  le_rounded ⟨0, by rw [Int.cast_zero, zero_mul]⟩ hq

theorem abs_rounded_sub_le (q : ℚ) : |rounded q - q| ≤ (2 : ℚ) ^ gridExponent q / 2 := by
  have hunit : (0 : ℚ) < 2 ^ gridExponent q := by positivity
  have hscaled : rounded q - q =
      (roundHalfEven (q / 2 ^ gridExponent q) - q / 2 ^ gridExponent q) * 2 ^ gridExponent q := by
    rw [rounded, sub_mul, div_mul_cancel₀ _ hunit.ne']
  rw [hscaled, abs_mul, abs_of_pos hunit]
  calc |(roundHalfEven (q / 2 ^ gridExponent q) : ℚ) - q / 2 ^ gridExponent q| * 2 ^ gridExponent q
      ≤ 1 / 2 * 2 ^ gridExponent q := mul_le_mul_of_nonneg_right (abs_roundHalfEven_sub_le _) hunit.le
    _ = 2 ^ gridExponent q / 2 := by ring

/-! ## Doubles -/

/-- In units of its grid, a magnitude has at most 53 bits, and as many unless the grid is the finest. -/
theorem scaled_bounds (hq : 0 < q) : q / (2 : ℚ) ^ gridExponent q ≤ (2 * leastFullMantissa : ℕ) ∧
    ((leastFullMantissa : ℚ) ≤ q / (2 : ℚ) ^ gridExponent q ∨ gridExponent q = -1074) := by
  obtain ⟨hle, hlt⟩ := binade_spec hq
  have hunit : (0 : ℚ) < 2 ^ gridExponent q := by positivity
  have htop : ((2 * leastFullMantissa : ℕ) : ℚ) = 2 ^ (53 : ℤ) := by norm_num [leastFullMantissa]
  have hbottom : (leastFullMantissa : ℚ) = 2 ^ (52 : ℤ) := by norm_num [leastFullMantissa]
  rw [htop, hbottom, div_le_iff₀ hunit, le_div_iff₀ hunit, ← zpow_add₀ two_ne_zero, ← zpow_add₀ two_ne_zero]
  have hgrid : gridExponent q = -1074 ∨ gridExponent q = binade q - 52 := by
    unfold gridExponent
    omega
  have hleast : binade q - 52 ≤ gridExponent q := le_max_right ..
  refine ⟨hlt.le.trans (zpow_le_zpow_right₀ one_le_two (by omega)), hgrid.symm.imp_left fun hfull => ?_⟩
  rwa [hfull, show 52 + (binade q - 52) = binade q by ring]

/-- **The nearest double has the rounded magnitude.** -/
theorem nearest_rounded (negative : Bool) (hq : 0 ≤ q) (hlt : q < (2 : ℚ) ^ (1023 : ℤ)) :
    ∃ x : Finite64, nearest negative q = .finite x ∧ x.negative = negative ∧ x.magnitude = rounded q := by
  rcases hq.eq_or_lt with rfl | hpos
  · refine ⟨.zero negative, if_pos rfl, rfl, ?_⟩
    rw [rounded_zero, Finite64.magnitude, Finite64.zero, Nat.cast_zero, zero_mul]
  obtain ⟨hle, hfull⟩ := scaled_bounds hpos
  have hround : roundHalfEven (q / (2 : ℚ) ^ gridExponent q) ≤ (2 * leastFullMantissa : ℕ) := roundHalfEven_le hle
  have hnonneg : 0 ≤ roundHalfEven (q / (2 : ℚ) ^ gridExponent q) := le_roundHalfEven (by push_cast; positivity)
  obtain ⟨m, hm⟩ := Int.eq_ofNat_of_zero_le hnonneg
  have hlong : leastFullMantissa ≤ m ∨ gridExponent q = -1074 := hfull.imp_left fun h => by
    have := le_roundHalfEven (n := leastFullMantissa) (by exact_mod_cast h)
    omega
  have hgrid : -1074 ≤ gridExponent q ∧ gridExponent q ≤ 970 :=
    ⟨le_max_left .., gridExponent_le hpos hlt (by norm_num)⟩
  rw [rounded, hm]
  rw [hm] at hround
  by_cases hcarry : m = 2 * leastFullMantissa
  · subst hcarry
    have hform : CanonicalForm leastFullMantissa (gridExponent q + 1) := ⟨by decide, by omega, by omega, .inl le_rfl⟩
    refine ⟨_, nearest_carry hpos.ne' rfl hm hform, rfl, ?_⟩
    rw [Finite64.magnitude, zpow_add_one₀ two_ne_zero]
    push_cast
    ring
  · have hform : CanonicalForm m (gridExponent q) := ⟨by omega, hgrid.1, by omega, hlong⟩
    exact ⟨_, nearest_eq hpos.ne' rfl hm hform, rfl, rfl⟩

/-- A double is a point of its own grid. -/
theorem onGrid_magnitude (x : Finite64) : OnGrid x.magnitude (gridExponent x.magnitude) := by
  rcases Nat.eq_zero_or_pos x.mantissa with hzero | hpos
  · exact ⟨0, by rw [Finite64.magnitude, hzero, Nat.cast_zero, zero_mul, Int.cast_zero, zero_mul]⟩
  · have hunit : (0 : ℚ) < 2 ^ x.exponent := by positivity
    have hmantissa : (0 : ℚ) < x.mantissa := by exact_mod_cast hpos
    have hshort : (x.mantissa : ℚ) < 2 ^ (53 : ℤ) := by
      have hlt : (x.mantissa : ℚ) < (2 * leastFullMantissa : ℕ) := by exact_mod_cast x.canonical.1
      exact hlt.trans_eq (by norm_num [leastFullMantissa])
    have hbinade : binade x.magnitude < 53 + x.exponent := by
      refine binade_lt (mul_pos hmantissa hunit) ?_
      rw [zpow_add₀ two_ne_zero]
      exact mul_lt_mul_of_pos_right hshort hunit
    have hgrid : gridExponent x.magnitude ≤ x.exponent := by
      have := x.canonical.2.1
      unfold gridExponent
      omega
    exact OnGrid.mono ⟨x.mantissa, by rw [Int.cast_natCast]; rfl⟩ hgrid

theorem onGrid_rounded (hq : 0 ≤ q) (hlt : q < (2 : ℚ) ^ (1023 : ℤ)) :
    OnGrid (rounded q) (gridExponent (rounded q)) := by
  obtain ⟨x, -, -, hx⟩ := nearest_rounded false hq hlt
  rw [← hx]
  exact onGrid_magnitude x

/-! ## Either sign -/

/-- What a rational becomes as a double. -/
def nearby (q : ℚ) : ℚ := if q < 0 then -rounded (-q) else rounded q

theorem nearby_of_nonneg (hq : 0 ≤ q) : nearby q = rounded q := if_neg hq.not_gt

theorem nearby_of_neg (hq : q < 0) : nearby q = -rounded (-q) := if_pos hq

theorem nearby_nonpos (hq : q < 0) : nearby q ≤ 0 := by
  rw [nearby_of_neg hq]
  exact neg_nonpos.mpr (rounded_nonneg (by linarith))

theorem le_nearby (hr : OnGrid r (gridExponent |q|)) (hle : r ≤ q) : r ≤ nearby q := by
  rcases lt_or_ge q 0 with hneg | hpos
  · rw [abs_of_neg hneg] at hr
    rw [nearby_of_neg hneg]
    exact le_neg_of_le_neg (rounded_le hr.neg (neg_le_neg hle))
  · rw [abs_of_nonneg hpos] at hr
    rw [nearby_of_nonneg hpos]
    exact le_rounded hr hle

theorem nearby_le (hr : OnGrid r (gridExponent |q|)) (hle : q ≤ r) : nearby q ≤ r := by
  rcases lt_or_ge q 0 with hneg | hpos
  · rw [abs_of_neg hneg] at hr
    rw [nearby_of_neg hneg]
    exact neg_le_of_neg_le (le_rounded hr.neg (neg_le_neg hle))
  · rw [abs_of_nonneg hpos] at hr
    rw [nearby_of_nonneg hpos]
    exact rounded_le hr hle

/-- On its grid, a rational stays. -/
theorem nearby_of_onGrid (hq : OnGrid q (gridExponent |q|)) : nearby q = q :=
  le_antisymm (nearby_le hq le_rfl) (le_nearby hq le_rfl)

/-- Rounding goes past no power of two. -/
theorem abs_nearby_le {t : ℕ} (hq : |q| ≤ 2 ^ t) : |nearby q| ≤ 2 ^ t := by
  have hnext : (2 : ℚ) ^ t < 2 ^ ((t : ℤ) + 1) := by
    rw [zpow_add_one₀ two_ne_zero, zpow_natCast]
    linarith [pow_pos (two_pos : (0 : ℚ) < 2) t]
  have hgrid := gridExponent_abs_le (hq.trans_lt hnext) (by omega)
  have hpower : OnGrid ((2 : ℚ) ^ t) t := ⟨1, by rw [Int.cast_one, one_mul, zpow_natCast]⟩
  have hpower : OnGrid ((2 : ℚ) ^ t) (gridExponent |q|) := hpower.mono (by omega)
  exact abs_le.mpr ⟨le_nearby hpower.neg (abs_le.mp hq).1, nearby_le hpower (abs_le.mp hq).2⟩

theorem abs_nearby_sub_le (q : ℚ) : |nearby q - q| ≤ (2 : ℚ) ^ gridExponent |q| / 2 := by
  rcases lt_or_ge q 0 with hneg | hpos
  · have hle := abs_rounded_sub_le (-q)
    rwa [nearby_of_neg hneg, abs_of_neg hneg, ← abs_neg, neg_sub, sub_neg_eq_add, add_comm, ← sub_neg_eq_add]
  · rw [nearby_of_nonneg hpos, abs_of_nonneg hpos]
    exact abs_rounded_sub_le q

theorem onGrid_nearby (hlt : |q| < (2 : ℚ) ^ (1023 : ℤ)) : OnGrid (nearby q) (gridExponent |nearby q|) := by
  rcases lt_or_ge q 0 with hneg | hpos
  · rw [abs_of_neg hneg] at hlt
    have hgrid := onGrid_rounded (neg_pos.mpr hneg).le hlt
    rw [nearby_of_neg hneg, abs_neg, abs_of_nonneg (rounded_nonneg (neg_pos.mpr hneg).le)]
    exact hgrid.neg
  · rw [abs_of_nonneg hpos] at hlt
    rw [nearby_of_nonneg hpos, abs_of_nonneg (rounded_nonneg hpos)]
    exact onGrid_rounded hpos hlt

theorem lt_greatest_binade (hq : q ≤ 2 ^ 54) : q < (2 : ℚ) ^ (1023 : ℤ) := by
  have hlt : (2 : ℚ) ^ (54 : ℤ) < 2 ^ (1023 : ℤ) := zpow_lt_zpow_right₀ one_lt_two (by decide)
  exact hq.trans_lt (by exact_mod_cast hlt)

theorem ofRat_nearby (hlt : |q| < (2 : ℚ) ^ (1023 : ℤ)) : ∃ x : Finite64, ofRat q = .finite x ∧ x.toRat = nearby q := by
  unfold ofRat
  rcases lt_or_ge q 0 with hneg | hpos
  · rw [abs_of_neg hneg] at hlt
    obtain ⟨x, hx, hnegative, hmagnitude⟩ := nearest_rounded true (neg_pos.mpr hneg).le hlt
    rw [if_pos hneg]
    exact ⟨x, hx, by rw [Finite64.toRat, hnegative, if_pos rfl, hmagnitude, nearby_of_neg hneg]⟩
  · rw [abs_of_nonneg hpos] at hlt
    obtain ⟨x, hx, hnegative, hmagnitude⟩ := nearest_rounded false hpos hlt
    rw [if_neg hpos.not_gt]
    exact ⟨x, hx, by rw [Finite64.toRat, hnegative, if_neg Bool.false_ne_true, hmagnitude, nearby_of_nonneg hpos]⟩

end Binary64

open Binary64

namespace Decimal

variable {d : Decimal}

theorem magnitude_nonneg (d : Decimal) : 0 ≤ d.magnitude := by
  unfold magnitude
  positivity

theorem abs_toRat (d : Decimal) : |d.toRat| = d.magnitude := by
  unfold toRat
  split
  · rw [abs_neg, abs_of_nonneg d.magnitude_nonneg]
  · exact abs_of_nonneg d.magnitude_nonneg

theorem toBinary64_nearby (hlt : |d.toRat| < (2 : ℚ) ^ (1023 : ℤ)) :
    ∃ x : Finite64, d.toBinary64 = .finite x ∧ x.toRat = nearby d.toRat := by
  have hnonneg := d.magnitude_nonneg
  rw [abs_toRat] at hlt
  obtain ⟨x, hx, hnegative, hrounded⟩ := nearest_rounded d.negative hnonneg hlt
  refine ⟨x, by rw [toBinary64_eq_nearest, hx], ?_⟩
  rw [Finite64.toRat, hnegative, hrounded, toRat]
  cases d.negative with
  | false => rw [if_neg Bool.false_ne_true, if_neg Bool.false_ne_true, nearby_of_nonneg hnonneg]
  | true =>
    rw [if_pos rfl, if_pos rfl]
    rcases hnonneg.eq_or_lt with hzero | hpos
    · rw [← hzero, neg_zero, nearby_of_nonneg le_rfl, rounded_zero, neg_zero]
    · rw [nearby_of_neg (neg_lt_zero.mpr hpos), neg_neg]

end Decimal

/-- Adding a half to a double rounds once more. -/
theorem Finite64.addHalfFloor_eq {x : Finite64} (hlt : |x.toRat + 1 / 2| < (2 : ℚ) ^ (1023 : ℤ)) :
    x.addHalfFloor = ⌊nearby (x.toRat + 1 / 2)⌋ := by
  obtain ⟨y, hy, hrat⟩ := ofRat_nearby hlt
  rw [addHalfFloor, hy, ← hrat]
  rfl

end JsonMend
