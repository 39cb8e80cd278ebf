/-
  Binary64: the double-precision numbers, held exactly.

  A finite double is `± mantissa · 2 ^ exponent` in the one form that has a 53-bit mantissa (or the
  least exponent), so two doubles are the same number with the same sign of zero exactly when they
  are equal as data.  Every operation is the same two steps: compute the exact rational, then round
  it once to the nearest double, a half going to the even mantissa (`nearest`).  Nothing here uses
  machine floating point, so each operation can be reasoned about over the rationals.
-/
namespace JsonMend

/-! ## Rounding a rational to an integer -/

/-- The nearest integer, a half going to the even neighbour. -/
def roundHalfEven (q : Rat) : Int :=
  let below := q.floor
  let rest := q - below
  if rest < 1 / 2 then below
  else if 1 / 2 < rest then below + 1
  else if below % 2 = 0 then below
  else below + 1

/-- The nearest integer, a half going up: the floor of `q + 1/2`. -/
def roundHalfUp (q : Rat) : Int := (q + 1 / 2).floor

/-- The exponent `k` with `2 ^ k ≤ q < 2 ^ (k + 1)`, for a positive `q`. -/
def binade (q : Rat) : Int :=
  let guess : Int := (Nat.log2 q.num.natAbs : Int) - (Nat.log2 q.den : Int)
  if (2 : Rat) ^ guess ≤ q then guess else guess - 1

/-! ## The numbers -/

/-- The least mantissa that has 53 bits: `2 ^ 52`. -/
def leastFullMantissa : Nat := 4503599627370496

/-- When a mantissa and an exponent are the form that a finite double is held in: 53 bits at most,
an exponent in range, and no smaller exponent possible. -/
def CanonicalForm (mantissa : Nat) (exponent : Int) : Prop :=
  mantissa < 2 * leastFullMantissa ∧ -1074 ≤ exponent ∧ exponent ≤ 971 ∧
    (leastFullMantissa ≤ mantissa ∨ exponent = -1074)

instance (mantissa : Nat) (exponent : Int) : Decidable (CanonicalForm mantissa exponent) :=
  inferInstanceAs (Decidable (_ ∧ _ ∧ _ ∧ _))

/-- A finite double, zero of either sign included. -/
structure Finite64 where
  negative : Bool
  mantissa : Nat
  exponent : Int
  canonical : CanonicalForm mantissa exponent
  deriving DecidableEq

/-- A double that is a number: finite, or an infinity of either sign. -/
inductive Binary64 where
  | finite (x : Finite64)
  | infinite (negative : Bool)
  deriving DecidableEq

namespace Finite64

/-- Zero, of the given sign. -/
def zero (negative : Bool) : Finite64 := ⟨negative, 0, -1074, by decide⟩

/-- The distance from zero. -/
def magnitude (x : Finite64) : Rat := x.mantissa * (2 : Rat) ^ x.exponent

/-- The exact value. -/
def toRat (x : Finite64) : Rat := if x.negative then -x.magnitude else x.magnitude

/-- Whether the value is a whole number. -/
def isWhole (x : Finite64) : Bool := x.toRat.den = 1

/-- The greatest integer that is not above the value. -/
def floor (x : Finite64) : Int := x.toRat.floor

end Finite64

instance : Inhabited Finite64 := ⟨Finite64.zero false⟩
instance : Inhabited Binary64 := ⟨.finite default⟩

namespace Binary64

/-! ## Rounding -/

/-- The exponent of the grid on which a positive rational is rounded: 53 bits, but never finer than
the least exponent. -/
def gridExponent (q : Rat) : Int := max (-1074) (binade q - 52)

/-- The double nearest to a rational of the given sign and magnitude, a half going to the even
mantissa; a magnitude past the largest finite double becomes infinite. -/
def nearest (negative : Bool) (magnitude : Rat) : Binary64 :=
  if magnitude = 0 then .finite (.zero negative)
  else
    let exponent := gridExponent magnitude
    let mantissa := (roundHalfEven (magnitude / (2 : Rat) ^ exponent)).toNat
    if h : CanonicalForm mantissa exponent then .finite ⟨negative, mantissa, exponent, h⟩
    else if h : mantissa = 2 * leastFullMantissa ∧ CanonicalForm leastFullMantissa (exponent + 1) then
      .finite ⟨negative, leastFullMantissa, exponent + 1, h.2⟩
    else .infinite negative

/-- The double nearest to a rational; zero is positive. -/
def ofRat (q : Rat) : Binary64 := if q < 0 then nearest true (-q) else nearest false q

/-- The double nearest to an integer, or `none` when that is not finite. -/
def ofInt? (n : Int) : Option Finite64 :=
  match ofRat n with
  | .finite x => some x
  | .infinite _ => none

/-! ## Views -/

/-- The exact value of a finite double. -/
def toRat? : Binary64 → Option Rat
  | .finite x => some x.toRat
  | .infinite _ => none

/-- Whether the double is a finite whole number. -/
def isWhole : Binary64 → Bool
  | .finite x => x.isWhole
  | .infinite _ => false

end Binary64

/-! ## Arithmetic -/

namespace Finite64

/-- The sum of a double and a half, rounded to a double, then cut down to an integer.  A half goes
up, except where adding the half is itself inexact. -/
def addHalfFloor (x : Finite64) : Int :=
  match Binary64.ofRat (x.toRat + 1 / 2) with
  | .finite y => y.floor
  | .infinite _ => x.floor

/-- The quotient of two finite doubles, the divisor being nonzero. -/
def div (x y : Finite64) : Binary64 :=
  Binary64.nearest (x.negative != y.negative) (x.magnitude / y.magnitude)

end Finite64

/-! ## Running it -/

example : leastFullMantissa = 2 ^ 52 := rfl
example : Binary64.ofRat (1 / 10) = .finite ⟨false, 7205759403792794, -56, by decide⟩ := by
  decide +kernel
example : Binary64.ofRat (2 ^ 53 + 1) = Binary64.ofRat (2 ^ 53) := by decide +kernel
example : Binary64.ofRat (2 ^ 1024) = .infinite false := by decide +kernel

end JsonMend
