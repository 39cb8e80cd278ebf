import JsonMend.Number.Decimal
/-
  The shortest decimal text of a double.

  Of all decimal numerals that read back as the given double, the one with the fewest digits is
  written, and of several with that many digits the one nearest to the exact value, a tie going to
  the even last digit.  On the grid of `n`-digit numerals only the two neighbours of the exact value
  need to be tried: if any point of the grid reads back, so does one of them.

  How the digits are laid out (where positional notation ends, how an exponent looks) is one record.
-/
namespace JsonMend

/-! ## The digits -/

/-- The exponent `k` with `10 ^ k ≤ q < 10 ^ (k + 1)`, for a positive `q`. -/
def decade (q : Rat) : Int :=
  if 1 ≤ q then (digitCount q.floor.toNat : Int) - 1
  else -(digitCount (q⁻¹.ceil - 1).toNat : Int)

namespace Finite64

/-- Whether a magnitude reads back as the magnitude of `x`. -/
def readsBack (x : Finite64) (q : Rat) : Bool := Binary64.nearest x.negative q == .finite x

/-- The numeral of `count` digits that reads back as `x`, the nearer one if there are two. -/
def numeralOf? (x : Finite64) (count : Nat) : Option Decimal :=
  let exponent := decade x.magnitude + 1 - count
  let unit := (10 : Rat) ^ exponent
  let below := (x.magnitude / unit).floor
  let above := below + 1
  let numeral (n : Int) : Decimal := ⟨x.negative, n.toNat, exponent⟩
  let rest := x.magnitude / unit - below
  let nearer := if rest < 1 / 2 then below else if 1 / 2 < rest then above
    else if below % 2 = 0 then below else above
  match x.readsBack (below * unit), x.readsBack (above * unit) with
  | true, true => some (numeral nearer)
  | true, false => some (numeral below)
  | false, true => some (numeral above)
  | false, false => none

/-- The shortest numeral that reads back as `x`.  Seventeen digits always do. -/
def shortest (x : Finite64) : Decimal :=
  if x.mantissa = 0 then ⟨x.negative, 0, 0⟩
  else
    match (List.range 17).findSome? (fun n => x.numeralOf? (n + 1)) with
    | some d => d.stripZeros
    | none => ⟨x.negative, x.magnitude.floor.toNat, 0⟩

end Finite64

/-! ## The layout -/

/-- How the digits of a double are laid out. -/
structure DigitLayout where
  /-- The least exponent of the leading digit that is still written positionally. -/
  leastPositional : Int
  /-- The least exponent of the leading digit that is written with an exponent again. -/
  leastScientific : Int
  /-- The least number of digits in a written exponent. -/
  exponentWidth : Nat

/-- Positional from `0.0001` up to sixteen digits, otherwise an exponent of two digits or more. -/
def DigitLayout.standard : DigitLayout := ⟨-4, 16, 2⟩

namespace DigitLayout

/-- The text of a numeral whose coefficient does not end in a zero.  A positional text always has a
point with a digit on each side. -/
def write (layout : DigitLayout) (d : Decimal) : List Char :=
  let sign := if d.negative then ['-'] else []
  let digits := writeDigits d.coefficient
  let leading := d.exponent + digits.length - 1
  if d.coefficient = 0 then sign ++ ['0', '.', '0']
  else if leading < layout.leastPositional ∨ layout.leastScientific ≤ leading then
    let fraction := match digits.drop 1 with
      | [] => []
      | rest => '.' :: rest
    let exponent := writeDigits leading.natAbs
    sign ++ digits.take 1 ++ fraction ++ ['e', if leading < 0 then '-' else '+'] ++
      List.replicate (layout.exponentWidth - exponent.length) '0' ++ exponent
  else if leading < 0 then
    sign ++ ['0', '.'] ++ List.replicate (leading.natAbs - 1) '0' ++ digits
  else
    let whole := leading.toNat + 1
    let fraction := match digits.drop whole with
      | [] => ['0']
      | rest => rest
    sign ++ digits.take whole ++ List.replicate (whole - digits.length) '0' ++ '.' :: fraction

end DigitLayout

/-- The text of a finite double. -/
def Finite64.write (x : Finite64) : List Char := DigitLayout.standard.write x.shortest

/-! ## Running it -/

example : DigitLayout.standard.write ⟨false, 15, -1⟩ = ['1', '.', '5'] := by decide +kernel
example : DigitLayout.standard.write ⟨true, 1, 16⟩ = ['-', '1', 'e', '+', '1', '6'] := by
  decide +kernel
example : DigitLayout.standard.write ⟨false, 25, -6⟩ = ['2', '.', '5', 'e', '-', '0', '5'] := by
  decide +kernel

end JsonMend
