import JsonMend.Number.Basic
import JsonMend.Text.Digit
/-
  Numerals in running text.

  A numeral is a sign, digits of any script with an optional point among, before or behind them, and
  an optional exponent.  Without a point and an exponent it is an integer.
-/
namespace JsonMend

/-- A numeral in its parts; there is no point where `fraction` is absent. -/
structure Numeral where
  negative : Bool
  whole : List Char
  fraction : Option (List Char)
  exponent : Option (Bool × List Char)
  deriving DecidableEq

namespace Numeral

/-- A sign, if there is one, and the rest. -/
def splitSign : List Char → Bool × List Char
  | '-' :: rest => (true, rest)
  | '+' :: rest => (false, rest)
  | text => (false, text)

/-- The digits at the front of a text, and the rest. -/
def splitDigits (text : List Char) : List Char × List Char :=
  (text.takeWhile isDecimalDigit, text.dropWhile isDecimalDigit)

/-- An exponent that takes up all of a text; the empty text is no exponent. -/
def exponentOf? : List Char → Option (Option (Bool × List Char))
  | [] => some none
  | e :: rest =>
    if e = 'e' ∨ e = 'E' then
      let (negative, digits) := splitSign rest
      if digits.isEmpty || !digits.all isDecimalDigit then none
      else some (some (negative, digits))
    else none

/-- The parts of a text that is a numeral throughout. -/
def ofChars? (text : List Char) : Option Numeral := do
  let (negative, unsigned) := splitSign text
  let (whole, behindWhole) := splitDigits unsigned
  let (fraction, behindFraction) := match behindWhole with
    | '.' :: rest =>
      let (digits, behind) := splitDigits rest
      (some digits, behind)
    | _ => (none, behindWhole)
  if whole.isEmpty && (fraction.getD []).isEmpty then none
  else return ⟨negative, whole, fraction, ← exponentOf? behindFraction⟩

/-- Whether a numeral is an integer. -/
def isInteger (n : Numeral) : Bool := n.fraction.isNone && n.exponent.isNone

/-- The number that digits of any script stand for. -/
def digitsValue (digits : List Char) : Nat := readDigits (toAsciiDigits digits)

/-- The exact value. -/
def toDecimal (n : Numeral) : Decimal :=
  let fraction := n.fraction.getD []
  let exponent : Int := match n.exponent with
    | none => 0
    | some (negative, digits) => if negative then -(digitsValue digits : Int) else digitsValue digits
  ⟨n.negative, digitsValue (n.whole ++ fraction), exponent - fraction.length⟩

/-- The value of an integer numeral. -/
def toInt (n : Numeral) : Int :=
  if n.negative then -(digitsValue n.whole : Int) else digitsValue n.whole

end Numeral

/-! ## Running it -/

example : (Numeral.ofChars? ['-', '.', '5', 'e', '1']).map Numeral.toDecimal =
    some ⟨true, 5, 0⟩ := by decide +kernel
example : Numeral.ofChars? ['.'] = none ∧ Numeral.ofChars? ['1', 'e'] = none := by decide +kernel

end JsonMend
