import JsonMend.Json.Basic
import JsonMend.Json.Escape
/-
  Reading JSON text, strictly.

  Every step consumes a character before it goes on, so the length of the text bounds the steps, and
  that bound is the fuel of the three mutual readers; `Json.parse?` supplies it.  Infinities and
  not-a-number have no spelling here, but a numeral past the largest double reads as an infinity.
  An integer numeral of more than `digitLimit` digits is refused.
-/
namespace JsonMend

/-! ## Blanks and numerals -/

/-- White space between the tokens of a JSON text. -/
def isJsonSpace (c : Char) : Bool := c = ' ' || c = '\t' || c = '\n' || c = '\r'

def skipSpaces (text : List Char) : List Char := text.dropWhile isJsonSpace

/-- An ASCII digit. -/
def isAsciiDigit (c : Char) : Bool := '0' ≤ c && c ≤ '9'

/-- The digits at the front of a text, and the rest. -/
def spanDigits (text : List Char) : List Char × List Char :=
  (text.takeWhile isAsciiDigit, text.dropWhile isAsciiDigit)

/-- The whole part of a numeral: a lone zero, or digits that do not start with one. -/
def readWhole? (text : List Char) : Option (List Char × List Char) :=
  match text with
  | '0' :: rest => some (['0'], rest)
  | _ =>
    match spanDigits text with
    | ([], _) => none
    | split => some split

/-- The digits of a fraction; without a point, or a digit behind it, there is none. -/
def readFraction (text : List Char) : List Char × List Char :=
  match text with
  | '.' :: after =>
    match spanDigits after with
    | ([], _) => ([], text)
    | split => split
  | _ => ([], text)

/-- The exponent part of a numeral, if there is one. -/
def readExponent (text : List Char) : Option Int × List Char :=
  match text with
  | e :: after =>
    if e = 'e' ∨ e = 'E' then
      let (negative, digits) := match after with
        | '-' :: rest => (true, rest)
        | '+' :: rest => (false, rest)
        | _ => (false, after)
      match spanDigits digits with
      | ([], _) => (none, text)
      | (digits, rest) =>
        (some (if negative then -(readDigits digits : Int) else readDigits digits), rest)
    else (none, text)
  | [] => (none, text)

/-- A numeral: an integer when it has neither fraction nor exponent, otherwise a double. -/
def readNumber? (text : List Char) : Option (Number × List Char) := do
  let (negative, unsigned) := match text with
    | '-' :: rest => (true, rest)
    | _ => (false, text)
  let (whole, afterWhole) ← readWhole? unsigned
  let (fraction, afterFraction) := readFraction afterWhole
  let (exponent?, rest) := readExponent afterFraction
  if fraction.isEmpty && exponent?.isNone then
    if digitLimit < whole.length then none
    else
      let n : Int := readDigits whole
      return (.int (if negative then -n else n), rest)
  else
    let numeral : Decimal :=
      ⟨negative, readDigits (whole ++ fraction), exponent?.getD 0 - fraction.length⟩
    return (.real numeral.toBinary64, rest)

/-! ## Values -/

mutual
/-- Reads a value at the front of a text. -/
def readValue : Nat → List Char → Option (Json × List Char)
  | 0, _ => none
  | fuel + 1, text =>
    match text with
    | 'n' :: 'u' :: 'l' :: 'l' :: rest => some (.null, rest)
    | 't' :: 'r' :: 'u' :: 'e' :: rest => some (.bool true, rest)
    | 'f' :: 'a' :: 'l' :: 's' :: 'e' :: rest => some (.bool false, rest)
    | '"' :: rest => (readString rest).map fun (s, after) => (.str (String.ofList s), after)
    | '[' :: rest =>
      match skipSpaces rest with
      | ']' :: after => some (.arr [], after)
      | inside => (readItems fuel inside).map fun (items, after) => (.arr items, after)
    | '{' :: rest =>
      match skipSpaces rest with
      | '}' :: after => some (.obj [], after)
      | inside =>
        (readMembers fuel inside).map fun (pairs, after) => (.obj (collectMembers pairs), after)
    | _ => (readNumber? text).map fun (n, after) => (.num n, after)
/-- Reads the items of an array, at least one, and its closing bracket. -/
def readItems : Nat → List Char → Option (List Json × List Char)
  | 0, _ => none
  | fuel + 1, text => do
    let (item, after) ← readValue fuel text
    match skipSpaces after with
    | ']' :: rest => return ([item], rest)
    | ',' :: rest =>
      let (items, final) ← readItems fuel (skipSpaces rest)
      return (item :: items, final)
    | _ => none
/-- Reads the members of an object, at least one, and its closing brace. -/
def readMembers : Nat → List Char → Option (List (String × Json) × List Char)
  | 0, _ => none
  | fuel + 1, text => do
    match text with
    | '"' :: quotedKey =>
      let (key, afterKey) ← readString quotedKey
      match skipSpaces afterKey with
      | ':' :: afterColon =>
        let (value, after) ← readValue fuel (skipSpaces afterColon)
        let member := (String.ofList key, value)
        match skipSpaces after with
        | '}' :: rest => return ([member], rest)
        | ',' :: rest =>
          let (members, final) ← readMembers fuel (skipSpaces rest)
          return (member :: members, final)
        | _ => none
      | _ => none
    | _ => none
end

namespace Json

/-- The value of a JSON text, given as characters. -/
def parseChars? (text : List Char) : Option Json := do
  let (value, rest) ← readValue (text.length + 1) (skipSpaces text)
  if (skipSpaces rest).isEmpty then some value else none

/-- The value of a JSON text. -/
def parse? (text : String) : Option Json := parseChars? text.toList

end Json

/-! ## Running it -/

example : Json.parse? "[1, 1.50, -0]" =
    some (.arr [.num (.int 1), .num (.real (.ofRat (3 / 2))), .num (.int 0)]) := by decide +kernel
example : Json.parse? "[1,]" = none ∧ Json.parse? "NaN" = none ∧ Json.parse? "01" = none := by
  decide +kernel
example : Json.parse? "\x7b\"a\":1,\"b\":2,\"a\":3\x7d" =
    some (.obj [("a", .num (.int 3)), ("b", .num (.int 2))]) := by decide +kernel

end JsonMend
