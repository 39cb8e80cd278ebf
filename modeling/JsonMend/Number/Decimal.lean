import JsonMend.Number.Binary64
/-
  Decimal numerals: a sign, a whole coefficient and a power of ten.

  Reading goes from characters to the coefficient (`readDigits`), from there to the exact rational
  (`Decimal.toRat`) and, where a double is wanted, to the nearest one (`Decimal.toBinary64`).
  A numeral of more than `digitLimit` digits is refused where an integer is read, whatever its value.
-/
namespace JsonMend

/-! ## Digits -/

/-- The digits of a natural number, most significant first. -/
def writeDigits (n : Nat) : List Char := Nat.toDigits 10 n

/-- The number whose digits are given, most significant first. -/
def readDigits (digits : List Char) : Nat := Nat.ofDigitChars 10 digits 0

theorem readDigits_writeDigits (n : Nat) : readDigits (writeDigits n) = n :=
  Nat.ofDigitChars_ten_toDigits

/-- How many digits a natural number has; zero has one. -/
def digitCount (n : Nat) : Nat := (writeDigits n).length

/-- The digits of an integer behind its sign. -/
def writeInt (n : Int) : List Char :=
  if n < 0 then '-' :: writeDigits n.natAbs else writeDigits n.natAbs

/-- The greatest number of digits that an integer numeral may have. -/
def digitLimit : Nat := 4300

/-! ## Numerals -/

/-- A numeral as written: `± coefficient · 10 ^ exponent`. -/
structure Decimal where
  negative : Bool
  coefficient : Nat
  exponent : Int
  deriving DecidableEq

namespace Decimal

def magnitude (d : Decimal) : Rat := d.coefficient * (10 : Rat) ^ d.exponent

/-- The exact value. -/
def toRat (d : Decimal) : Rat := if d.negative then -d.magnitude else d.magnitude

/-- The exponent that the leading digit would have, plus one. -/
def order (d : Decimal) : Int := d.exponent + digitCount d.coefficient

/-- The nearest double.  A numeral far outside the range of doubles is settled by its order alone,
so that no enormous power of ten is ever computed. -/
def toBinary64 (d : Decimal) : Binary64 :=
  if d.coefficient = 0 then .finite (.zero d.negative)
  else if 400 < d.order then .infinite d.negative
  else if d.order < -400 then .finite (.zero d.negative)
  else .nearest d.negative d.magnitude

/-- The numeral without the zeros that end its coefficient. -/
def stripZeros (d : Decimal) : Decimal :=
  let digits := (writeDigits d.coefficient).reverse
  if d.coefficient = 0 then d
  else
    { d with
      coefficient := readDigits (digits.dropWhile (· == '0')).reverse
      exponent := d.exponent + (digits.takeWhile (· == '0')).length }

end Decimal

/-! ## Running it -/

example : (Decimal.mk true 25 (-1)).toRat = -5 / 2 := by decide +kernel
example : Decimal.toBinary64 ⟨false, 1, 999999999⟩ = .infinite false := by decide +kernel

end JsonMend
