import Mathlib.Data.List.TakeWhile
import JsonMend.Proofs.Number.Rounding
import JsonMend.Proofs.Number.Text
/-
  The text of a double reads back as that double.

  The shortest digits are found by trial: for each count the two neighbours on the decimal grid are rounded, and one
  that gives the double is taken.  So all that needs an argument is that some count succeeds.

  1. **Decades** (`decade_le`) — the place of the first digit.
  2. **Seventeen digits** (`numeralOf?_seventeen`) — the unit of that grid is less than half a unit of the double
     (`unit_lt`), so its nearer neighbour rounds to the double.
  3. **The shortest** (`nearest_shortest`) — what is found rounds to the double, and without the zeros that end it
     it is the same number.
  4. **The text** (`Number.exists_numeral`) — reading a text that was written gives the number.
-/
namespace JsonMend

variable {q : ℚ}

/-! ## Decades -/

/-- The first digit of a positive rational stands no higher than its decade. -/
theorem decade_le (hq : 0 < q) : (10 : ℚ) ^ decade q ≤ q := by
  unfold decade
  split
  · rename_i hone
    have hfloor : 1 ≤ q.floor := Rat.le_floor_iff.mpr (by exact_mod_cast hone)
    obtain ⟨n, hn⟩ := Int.eq_ofNat_of_zero_le (show 0 ≤ q.floor by omega)
    have hcount := (Decimal.digitCount_bounds (show 0 < n by omega)).1
    have hpos : 0 < digitCount n := List.length_pos_iff.mpr Nat.toDigits_ne_nil
    rw [hn, Int.toNat_natCast, show (digitCount n : ℤ) - 1 = ((digitCount n - 1 : ℕ) : ℤ) by omega, zpow_natCast]
    calc (10 : ℚ) ^ (digitCount n - 1) ≤ n := by exact_mod_cast hcount
      _ = q.floor := by rw [hn, Int.cast_natCast]
      _ ≤ q := Rat.floor_le q
  · rename_i hsmall
    have hinv : 1 < q⁻¹ := (one_lt_inv₀ hq).mpr (not_le.mp hsmall)
    have hceil : 1 < q⁻¹.ceil := Rat.lt_ceil_iff.mpr (by exact_mod_cast hinv)
    obtain ⟨n, hn⟩ := Int.eq_ofNat_of_zero_le (show 0 ≤ q⁻¹.ceil - 1 by omega)
    have hcount := (Decimal.digitCount_bounds (show 0 < n by omega)).2
    rw [hn, Int.toNat_natCast, zpow_neg, zpow_natCast]
    refine inv_le_of_inv_le₀ hq ?_
    calc q⁻¹ ≤ q⁻¹.ceil := Rat.le_ceil
      _ = ((n + 1 : ℕ) : ℚ) := by
        rw [show q⁻¹.ceil = ((n + 1 : ℕ) : ℤ) by omega, Int.cast_natCast]
      _ ≤ 10 ^ digitCount n := by exact_mod_cast hcount

/-! ## Seventeen digits -/

namespace Finite64

variable {x : Finite64} {count : ℕ} {d : Decimal}

/-- The unit of the last of so many digits. -/
def unit (x : Finite64) (count : ℕ) : ℚ := (10 : ℚ) ^ (decade x.magnitude + 1 - count)

theorem magnitude_pos (hx : x.mantissa ≠ 0) : 0 < x.magnitude :=
  mul_pos (by exact_mod_cast Nat.pos_of_ne_zero hx) (by positivity)

/-- Among the neighbours on the grid one is within half a unit. -/
theorem exists_near (x : Finite64) {u : ℚ} (hu : 0 < u) :
    |((x.magnitude / u).floor : ℚ) * u - x.magnitude| ≤ u / 2 ∨
      |(((x.magnitude / u).floor + 1 : ℤ) : ℚ) * u - x.magnitude| ≤ u / 2 := by
  have hle := Rat.floor_le (x.magnitude / u)
  have hlt := Rat.lt_floor_add_one (x.magnitude / u)
  rw [le_div_iff₀ hu] at hle
  rw [div_lt_iff₀ hu] at hlt
  push_cast at hlt ⊢
  rcases le_or_gt (x.magnitude - (x.magnitude / u).floor * u) (u / 2) with h | h
  · left
    rw [abs_le]
    constructor <;> linarith
  · right
    rw [abs_le]
    constructor <;> linarith

/-- The unit of seventeen digits is less than a unit in the last place, and less than half of one at the least full
mantissa. -/
theorem unit_lt (hx : x.mantissa ≠ 0) : x.unit 17 < (2 : ℚ) ^ x.exponent ∧
    (x.mantissa = leastFullMantissa → x.unit 17 < (2 : ℚ) ^ x.exponent / 2) := by
  have hlast : (0 : ℚ) < 2 ^ x.exponent := by positivity
  have hunit : x.unit 17 ≤ x.mantissa * 2 ^ x.exponent * (1 / 10 ^ 16) := by
    have hdecade := decade_le (magnitude_pos hx)
    calc x.unit 17 = (10 : ℚ) ^ decade x.magnitude * (1 / 10 ^ 16) := by
          rw [unit, show decade x.magnitude + 1 - ((17 : ℕ) : ℤ) = decade x.magnitude + -16 by push_cast; ring,
            zpow_add₀ (by norm_num)]
          norm_num
      _ ≤ x.mantissa * 2 ^ x.exponent * (1 / 10 ^ 16) := by
          exact mul_le_mul_of_nonneg_right hdecade (by norm_num)
  have hshort : (x.mantissa : ℚ) < 2 * leastFullMantissa := by exact_mod_cast x.canonical.1
  have hconst : (leastFullMantissa : ℚ) = 4503599627370496 := by norm_num [leastFullMantissa]
  rw [hconst] at hshort
  constructor
  · calc x.unit 17 ≤ x.mantissa * 2 ^ x.exponent * (1 / 10 ^ 16) := hunit
      _ = x.mantissa * (1 / 10 ^ 16) * 2 ^ x.exponent := by ring
      _ < 1 * 2 ^ x.exponent := mul_lt_mul_of_pos_right (by linarith) hlast
      _ = 2 ^ x.exponent := one_mul _
  · intro hfull
    calc x.unit 17 ≤ x.mantissa * 2 ^ x.exponent * (1 / 10 ^ 16) := hunit
      _ = leastFullMantissa * (1 / 10 ^ 16) * 2 ^ x.exponent := by rw [hfull]; ring
      _ < 1 / 2 * 2 ^ x.exponent := mul_lt_mul_of_pos_right (by rw [hconst]; norm_num) hlast
      _ = 2 ^ x.exponent / 2 := by ring

/-- What is within half a unit of seventeen digits reads back. -/
theorem readsBack_of_near (hx : x.mantissa ≠ 0) (h : |q - x.magnitude| ≤ x.unit 17 / 2) : x.readsBack q = true := by
  obtain ⟨hunit, hedge⟩ := unit_lt hx
  rw [readsBack, beq_iff_eq]
  refine Binary64.nearest_of_close hx (by linarith) fun hfull => ?_
  have hhalf := hedge hfull
  have hleft := (abs_le.mp h).1
  linarith

/-- A numeral that is found has the sign of the double and reads back. -/
theorem numeralOf?_reads (hx : x.mantissa ≠ 0) (h : x.numeralOf? count = some d) :
    d.negative = x.negative ∧ x.readsBack d.magnitude = true := by
  have hunit : (0 : ℚ) < x.unit count := by unfold unit; positivity
  have hfloor : 0 ≤ (x.magnitude / x.unit count).floor := by
    refine Rat.le_floor_iff.mpr ?_
    have := magnitude_pos hx
    rw [Int.cast_zero]
    positivity
  have hnumeral : ∀ n : ℤ, 0 ≤ n →
      (Decimal.mk x.negative n.toNat (decade x.magnitude + 1 - count)).magnitude = n * x.unit count := by
    intro n hn
    obtain ⟨k, rfl⟩ := Int.eq_ofNat_of_zero_le hn
    rfl
  unfold unit at hfloor hnumeral
  unfold numeralOf? at h
  dsimp only at h
  split at h
  · rename_i hbelow habove
    cases h
    refine ⟨rfl, ?_⟩
    split_ifs <;> rw [hnumeral _ (by omega)] <;> assumption
  · rename_i hbelow _
    cases h
    exact ⟨rfl, by rw [hnumeral _ hfloor]; exact hbelow⟩
  · rename_i _ habove
    cases h
    exact ⟨rfl, by rw [hnumeral _ (by omega)]; exact habove⟩
  · cases h

/-- **Seventeen digits always read back.** -/
theorem numeralOf?_seventeen (hx : x.mantissa ≠ 0) : x.numeralOf? 17 ≠ none := by
  have hunit : (0 : ℚ) < x.unit 17 := by unfold unit; positivity
  have hnear := (x.exists_near hunit).imp (readsBack_of_near hx) (readsBack_of_near hx)
  unfold numeralOf?
  dsimp only
  split
  · exact Option.some_ne_none _
  · exact Option.some_ne_none _
  · exact Option.some_ne_none _
  · rename_i hbelow habove
    rcases hnear with h | h
    · exact absurd (hbelow.symm.trans h) Bool.false_ne_true
    · exact absurd (habove.symm.trans h) Bool.false_ne_true

end Finite64

/-! ## The shortest -/

/-- The zeros that end a coefficient move into the exponent. -/
theorem Decimal.stripZeros_magnitude (d : Decimal) : d.stripZeros.magnitude = d.magnitude := by
  unfold stripZeros
  dsimp only
  split
  · rfl
  · set digits := (writeDigits d.coefficient).reverse
    set zeros := digits.takeWhile (· == '0')
    set others := digits.dropWhile (· == '0')
    have hzero : ∀ c ∈ zeros, c = '0' := fun c hc =>
      beq_iff_eq.mp (List.mem_takeWhile_imp (p := (· == '0')) hc)
    have hzeros : zeros = List.replicate zeros.length '0' := List.eq_replicate_iff.mpr ⟨rfl, hzero⟩
    have hdigits : writeDigits d.coefficient = others.reverse ++ List.replicate zeros.length '0' := by
      rw [← List.reverse_replicate, ← hzeros, ← List.reverse_append, List.takeWhile_append_dropWhile,
        List.reverse_reverse]
    have hcoefficient : d.coefficient = readDigits others.reverse * 10 ^ zeros.length := by
      rw [← readDigits_writeDigits d.coefficient, hdigits, readDigits_append, readDigits_replicate_zero,
        List.length_replicate, Nat.add_zero]
    rw [magnitude, magnitude, hcoefficient, zpow_add₀ (by norm_num), zpow_natCast, Nat.cast_mul, Nat.cast_pow,
      mul_comm ((10 : ℚ) ^ d.exponent), mul_assoc]
    rfl

theorem Decimal.stripZeros_negative (d : Decimal) : d.stripZeros.negative = d.negative := by
  unfold stripZeros
  dsimp only
  split <;> rfl

namespace Finite64

theorem eq_zero {x : Finite64} (hx : x.mantissa = 0) : x = .zero x.negative := by
  obtain ⟨negative, m, e, canonical⟩ := x
  dsimp only at hx
  subst hx
  have hexponent : e = -1074 := canonical.2.2.2.resolve_left (by decide)
  subst hexponent
  rfl

/-- **The shortest numeral rounds to the double.** -/
theorem nearest_shortest (x : Finite64) : x.shortest.negative = x.negative ∧
    Binary64.nearest x.negative x.shortest.magnitude = .finite x := by
  unfold shortest
  split
  · rename_i hx
    refine ⟨rfl, ?_⟩
    rw [Binary64.nearest, if_pos (by rw [Decimal.magnitude, Nat.cast_zero, zero_mul]), ← eq_zero hx]
  · rename_i hx
    cases hfound : (List.range 17).findSome? fun n => x.numeralOf? (n + 1) with
    | none => exact absurd (List.findSome?_eq_none_iff.mp hfound 16 (by decide)) (numeralOf?_seventeen hx)
    | some d =>
      obtain ⟨n, -, hd⟩ := List.exists_of_findSome?_eq_some hfound
      obtain ⟨hnegative, hreads⟩ := numeralOf?_reads hx hd
      dsimp only
      rw [d.stripZeros_negative, d.stripZeros_magnitude]
      exact ⟨hnegative, beq_iff_eq.mp hreads⟩

end Finite64

/-! ## The text -/

/-- The text of a finite double is a numeral of JSON text that stands for it. -/
theorem Finite64.exists_numeral_number (x : Finite64) :
    ∃ t : JsonNumeral, t.chars = x.write ∧ t.number = .real (.finite x) := by
  obtain ⟨hnegative, hnearest⟩ := x.nearest_shortest
  obtain ⟨t, lays⟩ := DigitLayout.exists_numeral .standard x.shortest
  refine ⟨t, lays.chars_eq, ?_⟩
  have hsign : t.decimal.negative = x.negative := lays.negative_eq.trans hnegative
  rw [JsonNumeral.number, if_neg lays.not_integer, Decimal.toBinary64_eq_nearest, hsign, lays.magnitude_eq, hnearest]

/-- Whether a number is finite. -/
def Number.isFinite : Number → Bool
  | .real (.infinite _) => false
  | _ => true

/-- **The text of a finite number is a numeral of JSON text that stands for it.** -/
theorem Number.exists_numeral {n : Number} (finite : n.isFinite = true) (infinity : List Char) :
    ∃ t : JsonNumeral, t.chars = n.write infinity ∧ t.number = n := by
  cases n with
  | int i => exact ⟨intNumeral i, intNumeral_chars i, intNumeral_number i⟩
  | real x =>
    cases x with
    | finite x => exact x.exists_numeral_number
    | infinite negative => cases finite

end JsonMend
