import JsonMend.Proofs.Number.Halves
import JsonMend.Proofs.Number.Text
import JsonMend.Proofs.Repair.Representable
/-
  Turning a text into an integer.

  1. **Exact** (`toDecimal_toRat_of_isInteger`) — a numeral without a point and an exponent is taken as it is, if it has
     not too many digits.
  2. **Through a double** (`numeralNumber_rounded`) — any other of at most 16 digits and at most `2 ^ 53` is rounded to
     the nearest integer, a half going up, but an odd integer beyond `2 ^ 52` becomes the next.
  3. **With a zero behind the point** (`toDecimal_pointZero`) — an integer so written is such a numeral.
-/
namespace JsonMend

variable {n : Numeral} {k : ℤ} {digits : List Char}

/-! ## Exact -/

namespace Numeral

theorem toDecimal_toRat_of_isInteger (h : n.isInteger = true) : n.toDecimal.toRat = n.toInt := by
  obtain ⟨negative, whole, fraction, exponent⟩ := n
  simp only [isInteger, Bool.and_eq_true, Option.isNone_iff_eq_none] at h
  obtain ⟨rfl, rfl⟩ := h
  cases negative <;> simp [toDecimal, toInt, Decimal.toRat, Decimal.magnitude]

end Numeral

namespace Coerce

/-! ## Through a double -/

theorem numeralNumber_rounded (hfew : AtMostDigits 16 n.toDecimal.toRat) (hrange : |n.toDecimal.toRat| ≤ 2 ^ 53) :
    numeralNumber true n =
      if n.isInteger = true ∧ digitLimit < n.whole.length then .error (.tooManyDigits n.whole.length)
      else .ok (some (.num (.int
        (roundHalfUp n.toDecimal.toRat + if n.isInteger = true then 0 else overshoot n.toDecimal.toRat)))) := by
  unfold numeralNumber
  cases hinteger : n.isInteger with
  | true => simp [Numeral.toDecimal_toRat_of_isInteger hinteger, roundHalfUp_int]
  | false =>
    obtain ⟨x, hx, hfloor⟩ := Decimal.addHalfFloor_toBinary64 hfew hrange
    simp [hx, hfloor]

end Coerce

/-! ## With a zero behind the point -/

theorem of_isAsciiDigit {c : Char} (h : isAsciiDigit c = true) :
    isDecimalDigit c = true ∧ isBlank c = false ∧ ((digitValue? c).map Nat.digitChar).getD c = c := by
  obtain ⟨d, hd, rfl⟩ := exists_digitChar h
  revert d
  decide +kernel

namespace Numeral

theorem digitsValue_of_ascii (ascii : ∀ c ∈ digits, isAsciiDigit c = true) : digitsValue digits = readDigits digits := by
  have hsame : toAsciiDigits digits = digits :=
    (List.map_congr_left fun c hc => (of_isAsciiDigit (ascii c hc)).2.2).trans (List.map_id' _)
  rw [digitsValue, hsame]

/-- A digit is no sign. -/
theorem splitSign_cons {c : Char} {rest : List Char} (h : isDecimalDigit c = true) :
    splitSign (c :: rest) = (false, c :: rest) := by
  unfold splitSign
  split
  · rename_i heq
    cases heq
    exact absurd h (by decide +kernel)
  · rename_i heq
    cases heq
    exact absurd h (by decide +kernel)
  · rfl

/-- The sign of a written integer, whatever follows its digits. -/
theorem splitSign_writeInt (k : ℤ) (rest : List Char) :
    splitSign (writeInt k ++ rest) = (decide (k < 0), writeDigits k.natAbs ++ rest) := by
  unfold writeInt
  split
  · rename_i hneg
    rw [decide_eq_true hneg]
    rfl
  · rename_i hpos
    obtain ⟨c, cs, hdigits⟩ := List.exists_cons_of_ne_nil (writeDigits_ne_nil k.natAbs)
    have ascii : isAsciiDigit c = true := isAsciiDigit_of_mem_writeDigits (hdigits ▸ List.mem_cons_self)
    rw [decide_eq_false hpos, hdigits]
    exact splitSign_cons (of_isAsciiDigit ascii).1

/-- The digits of a natural number end where no digit follows them. -/
theorem splitDigits_writeDigits (n : ℕ) (rest : List Char)
    (stops : ∀ c, rest.head? = some c → isDecimalDigit c = false) :
    splitDigits (writeDigits n ++ rest) = (writeDigits n, rest) := by
  have hdigits : ∀ c ∈ writeDigits n, isDecimalDigit c = true :=
    fun c hc => (of_isAsciiDigit (isAsciiDigit_of_mem_writeDigits hc)).1
  obtain ⟨htake, hdrop⟩ := span_append hdigits stops
  rw [splitDigits, htake, hdrop]

/-- A written integer has no blanks. -/
theorem unblank_writeInt (k : ℤ) : ∀ c ∈ writeInt k, isBlank c = false := by
  have hdigits : ∀ c ∈ writeDigits k.natAbs, isBlank c = false :=
    fun c hc => (of_isAsciiDigit (isAsciiDigit_of_mem_writeDigits hc)).2.1
  unfold writeInt
  split
  · exact List.forall_mem_cons.mpr ⟨by decide +kernel, hdigits⟩
  · exact hdigits

/-- An integer with a point and a zero behind it. -/
def pointZero (k : ℤ) : Numeral := ⟨decide (k < 0), writeDigits k.natAbs, some ['0'], none⟩

theorem ofChars?_pointZero (k : ℤ) : ofChars? (writeInt k ++ ['.', '0']) = some (pointZero k) := by
  have hpoint : ∀ c, ['.', '0'].head? = some c → isDecimalDigit c = false := by
    rintro _ ⟨⟩
    decide +kernel
  have hzero : splitDigits ['0'] = (['0'], []) := by decide +kernel
  unfold ofChars?
  simp [splitSign_writeInt, splitDigits_writeDigits _ _ hpoint, hzero, exponentOf?, pointZero]

theorem unblank_pointZero (k : ℤ) : ∀ c ∈ writeInt k ++ ['.', '0'], isBlank c = false := by
  have hpoint : ∀ c ∈ ['.', '0'], isBlank c = false :=
    List.forall_mem_cons.mpr ⟨by decide +kernel, List.forall_mem_singleton.mpr (by decide +kernel)⟩
  exact fun c hc => (List.mem_append.mp hc).elim (unblank_writeInt k c) (hpoint c)

theorem toDecimal_pointZero (k : ℤ) : (pointZero k).toDecimal.toRat = k := by
  have ascii : ∀ c ∈ writeDigits k.natAbs ++ ['0'], isAsciiDigit c = true := by
    intro c hc
    rcases List.mem_append.mp hc with hc | hc
    · exact isAsciiDigit_of_mem_writeDigits hc
    · rw [List.mem_singleton.mp hc]
      rfl
  have hvalue : digitsValue (writeDigits k.natAbs ++ ['0']) = k.natAbs * 10 := by
    rw [digitsValue_of_ascii ascii, readDigits_append, readDigits_writeDigits]
    rfl
  have hmagnitude : (pointZero k).toDecimal.magnitude = |k| := by
    simp [pointZero, toDecimal, Decimal.magnitude, hvalue]
  have hnegative : (pointZero k).toDecimal.negative = decide (k < 0) := rfl
  rw [Decimal.toRat, hmagnitude, hnegative]
  rcases lt_or_ge k 0 with hneg | hpos
  · rw [if_pos (decide_eq_true hneg), abs_of_neg hneg, Int.cast_neg, neg_neg]
  · rw [if_neg (by rw [decide_eq_true_eq]; exact hpos.not_gt), abs_of_nonneg hpos]

end Numeral

namespace Coerce

/-! ## The conversion -/

theorem toNumber_of_reads {whole : Bool} {s : String} (hreads : Numeral.ofChars? (trimBlanks s.toList) = some n) :
    toNumber whole (.str s) = numeralNumber whole n := by
  simp only [toNumber, hreads]

theorem toTypeNamed_integer {s : String} (hreads : Numeral.ofChars? (trimBlanks s.toList) = some n) :
    toTypeNamed "integer" (.str s) = numeralNumber true n := by
  rw [show "integer" = JsonType.integer.name from rfl, toTypeNamed_name, toType, if_neg (by simp [Json.isScalar])]
  exact toNumber_of_reads hreads

theorem toTypeNamed_number {s : String} (hreads : Numeral.ofChars? (trimBlanks s.toList) = some n) :
    toTypeNamed "number" (.str s) = numeralNumber false n := by
  rw [show "number" = JsonType.number.name from rfl, toTypeNamed_name, toType, if_neg (by simp [Json.isScalar])]
  exact toNumber_of_reads hreads

/-- **A text as an integer.**  A numeral of at most 16 digits and at most `2 ^ 53` becomes the nearest integer, a half
going up.  An integer in digits alone is refused if it has too many, leading zeros included, and an odd integer beyond
`2 ^ 52` that is written with a point or an exponent becomes the next one.  An integer with a point and a zero behind it
is such a numeral. -/
theorem toTypeNamed_integer_nearest (s : String) :
    (∀ n : Numeral, Numeral.ofChars? (trimBlanks s.toList) = some n →
      AtMostDigits 16 n.toDecimal.toRat → |n.toDecimal.toRat| ≤ 2 ^ 53 →
      toTypeNamed "integer" (.str s) =
        if n.isInteger = true ∧ digitLimit < n.whole.length then .error (.tooManyDigits n.whole.length)
        else .ok (some (.num (.int
          (roundHalfUp n.toDecimal.toRat + if n.isInteger = true then 0 else overshoot n.toDecimal.toRat))))) ∧
    ∀ k : ℤ, s = String.ofList (writeInt k ++ ['.', '0']) → |k| ≤ 2 ^ 53 →
      toTypeNamed "integer" (.str s) = .ok (some (.num (.int (k + if k % 2 = 1 ∧ 2 ^ 52 < |k| then 1 else 0)))) := by
  refine ⟨fun n hreads hfew hrange => (toTypeNamed_integer hreads).trans (numeralNumber_rounded hfew hrange), ?_⟩
  rintro k rfl hk
  have hreads : Numeral.ofChars? (trimBlanks (String.ofList (writeInt k ++ ['.', '0'])).toList) = some (.pointZero k) := by
    rw [String.toList_ofList, trimBlanks_of_unblank (Numeral.unblank_pointZero k), Numeral.ofChars?_pointZero]
  have hfew : AtMostDigits 16 k := ⟨k, 0, by rw [abs_le] at hk; omega, by rw [zpow_zero, mul_one]⟩
  have hrange : |(k : ℚ)| ≤ 2 ^ 53 := by exact_mod_cast hk
  rw [← Numeral.toDecimal_pointZero k] at hfew hrange
  rw [toTypeNamed_integer hreads, numeralNumber_rounded hfew hrange, Numeral.toDecimal_pointZero, roundHalfUp_int,
    overshoot_int]
  rfl

/-- A half goes up, just below a half is below, and the double of an odd integer may have no half behind it. -/
theorem toTypeNamed_integer_nearest_of_three :
    toTypeNamed "integer" (.str " -2.5 ") = .ok (some (.num (.int (-2)))) ∧
      toTypeNamed "integer" (.str "0.4999999999999999") = .ok (some (.num (.int 0))) ∧
      toTypeNamed "integer" (.str "4503599627370497.0") = .ok (some (.num (.int 4503599627370498))) := by
  refine ⟨?_, ?_, ?_⟩
  · have hread : Numeral.ofChars? (trimBlanks " -2.5 ".toList) = some ⟨true, ['2'], some ['5'], none⟩ := by decide +kernel
    exact ((toTypeNamed_integer_nearest " -2.5 ").1 _ hread ⟨-25, -1, by decide, by decide +kernel⟩
      (by decide +kernel)).trans (by decide +kernel)
  · have hread : Numeral.ofChars? (trimBlanks "0.4999999999999999".toList) =
        some ⟨false, ['0'], some "4999999999999999".toList, none⟩ := by decide +kernel
    exact ((toTypeNamed_integer_nearest "0.4999999999999999").1 _ hread
      ⟨4999999999999999, -16, by decide, by decide +kernel⟩ (by decide +kernel)).trans (by decide +kernel)
  · exact (toTypeNamed_integer_nearest "4503599627370497.0").2 4503599627370497 rfl (by decide +kernel)

end Coerce

end JsonMend
