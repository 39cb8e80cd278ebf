import JsonMend.Number.Shortest
/-
  Numbers as a document holds them: unbounded integers and doubles.

  `1` and `1.0` are different numbers of one value.  Values are compared exactly, an integer with a
  double included: both are placed on the extended rational line (`place`), so no comparison rounds.
-/
namespace JsonMend

inductive Number where
  | int (n : Int)
  | real (x : Binary64)
  deriving DecidableEq

instance : Inhabited Number := ⟨.int 0⟩

/-- Why arithmetic on two numbers has no result. -/
inductive ArithmeticFault where
  /-- An integer beyond the range of doubles meets a double. -/
  | tooLargeForDouble
  /-- An infinity has no numerator and denominator. -/
  | infinityRatio
  /-- Infinity over infinity is no number. -/
  | undefinedQuotient
  | integerByZero
  | doubleByZero
  | doubleRemainderByZero
  deriving DecidableEq

def ArithmeticFault.message : ArithmeticFault → String
  | .tooLargeForDouble => "int too large to convert to float"
  | .infinityRatio => "cannot convert Infinity to integer ratio"
  | .undefinedQuotient => "cannot convert float NaN to integer"
  | .integerByZero => "integer modulo by zero"
  | .doubleByZero => "float division by zero"
  | .doubleRemainderByZero => "float modulo"

namespace Number

/-! ## Order and value -/

/-- Where a number lies on the rational line extended by its two ends: the first component orders
the ends around the rationals, the second orders the rationals. -/
def place : Number → Int × Rat
  | .int n => (0, n)
  | .real (.finite x) => (0, x.toRat)
  | .real (.infinite negative) => (if negative then -1 else 1, 0)

/-- Whether two numbers have one value. -/
def sameValue (a b : Number) : Bool := a.place = b.place

/-- Whether the first number is less. -/
def less (a b : Number) : Bool :=
  a.place.1 < b.place.1 || (a.place.1 = b.place.1 && a.place.2 < b.place.2)

/-- Whether the first number is less or has the same value. -/
def atMost (a b : Number) : Bool := !(b.less a)

/-- Whether a number is whole: every integer, and every finite double without a fraction. -/
def isWhole : Number → Bool
  | .int _ => true
  | .real x => x.isWhole

def isZero (a : Number) : Bool := a.sameValue (.int 0)

/-! ## Multiples -/

/-- The double with the value nearest to a number's; an integer must be in range. -/
def toBinary64 : Number → Except ArithmeticFault Binary64
  | .real x => .ok x
  | .int n =>
    match Binary64.ofInt? n with
    | some x => .ok (.finite x)
    | none => .error .tooLargeForDouble

/-- Whether the exact quotient of two numbers is whole. -/
def exactQuotientIsWhole (a : Number) (d : Finite64) : Except ArithmeticFault Bool :=
  match a with
  | .int n => .ok (((n : Rat) / d.toRat).den = 1)
  | .real (.finite x) => .ok ((x.toRat / d.toRat).den = 1)
  | .real (.infinite _) => .error .infinityRatio

/-- Whether `a` is a multiple of the double `d`: whether the quotient, rounded to a double, is whole.
Where that quotient is too large for a double, the exact quotient decides. -/
def isMultipleOfReal (a : Number) (d : Binary64) : Except ArithmeticFault Bool := do
  match ← a.toBinary64, d with
  | .finite x, .finite y =>
    if y.mantissa = 0 then throw .doubleByZero
    match x.div y with
    | .finite q => return q.isWhole
    | .infinite _ => a.exactQuotientIsWhole y
  | .infinite _, .finite y =>
    if y.mantissa = 0 then throw .doubleByZero
    a.exactQuotientIsWhole y
  | .finite _, .infinite _ => return true
  | .infinite _, .infinite _ => throw .undefinedQuotient

/-- Whether `a` is a multiple of `d`.  Two integers are compared exactly; a double and an integer by
the remainder of the double and the double nearest to the integer. -/
def isMultipleOf (a d : Number) : Except ArithmeticFault Bool :=
  match a, d with
  | a, .real d => a.isMultipleOfReal d
  | .int n, .int d => if d = 0 then .error .integerByZero else .ok (n % d = 0)
  | .real x, .int d => do
    match x, Binary64.ofInt? d with
    | _, none => throw .tooLargeForDouble
    | .finite x, some y =>
      if y.mantissa = 0 then throw .doubleRemainderByZero
      return (x.toRat / y.toRat).den = 1
    | .infinite _, some y =>
      if y.mantissa = 0 then throw .doubleRemainderByZero
      return false

/-! ## Text -/

/-- The text of a number, given the word for infinity. -/
def write (infinity : List Char) : Number → List Char
  | .int n => writeInt n
  | .real (.finite x) => x.write
  | .real (.infinite negative) => if negative then '-' :: infinity else infinity

/-! ## Laws -/

@[simp] theorem sameValue_refl (a : Number) : a.sameValue a = true := by simp [sameValue]

theorem sameValue_symm (a b : Number) : a.sameValue b = b.sameValue a := by
  simp [sameValue, eq_comm]

theorem sameValue_trans {a b c : Number} (hab : a.sameValue b = true) (hbc : b.sameValue c = true) :
    a.sameValue c = true := by
  simp_all [sameValue]

@[simp] theorem sameValue_int (m n : Int) : (Number.int m).sameValue (.int n) = decide (m = n) := by
  simp [sameValue, place]

end Number

/-! ## Running it -/

example : (Number.int 1).sameValue (.real (.ofRat 1)) = true := by decide +kernel
example : (Number.int (2 ^ 53 + 1)).less (.real (.ofRat (2 ^ 53))) = false := by decide +kernel
example : ((Number.real (.ofRat (3 / 10))).isMultipleOf (.real (.ofRat (1 / 10)))).toOption =
    some false := by decide +kernel

end JsonMend
