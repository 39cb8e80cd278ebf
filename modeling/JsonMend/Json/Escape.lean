import JsonMend.Text.Quoted
/-
  Strings of a JSON text: how a character is escaped, and how a quoted string is read.

  An escape by number names a UTF-16 unit, so two adjacent escapes can name one character.  Reading
  therefore has two steps: `readUnits` reads up to the closing quote and gives code points and units
  alike as numbers, `joinUnits` then puts the two halves of a pair together.
-/
namespace JsonMend

/-! ## Writing -/

/-- The escape of one UTF-16 unit by number. -/
def escapeUnit (n : Nat) : List Char := '\\' :: 'u' :: hexDigits 4 n

/-- The escape by number of a character: one unit, or the two halves of a pair. -/
def escapeByNumber (c : Char) : List Char :=
  let n := c.toNat
  if n < 0x10000 then escapeUnit n
  else escapeUnit (0xD800 + (n - 0x10000) / 0x400) ++ escapeUnit (0xDC00 + (n - 0x10000) % 0x400)

/-- How a character is written inside a string; `asciiOnly` escapes all but printable ASCII. -/
def escapeChar (asciiOnly : Bool) (c : Char) : List Char :=
  match c with
  | '"' => ['\\', '"']
  | '\\' => ['\\', '\\']
  | '\n' => ['\\', 'n']
  | '\r' => ['\\', 'r']
  | '\t' => ['\\', 't']
  | '\x0c' => ['\\', 'f']
  | '\x08' => ['\\', 'b']
  | c =>
    if c.toNat < 0x20 then escapeByNumber c
    else if asciiOnly && 0x7e < c.toNat then escapeByNumber c
    else [c]

/-- A string between its quotes. -/
def writeString (asciiOnly : Bool) (text : List Char) : List Char :=
  '"' :: (text.flatMap (escapeChar asciiOnly) ++ ['"'])

/-! ## Reading -/

/-- The value of a hexadecimal digit. -/
def hexValue? (c : Char) : Option Nat :=
  if '0' ≤ c ∧ c ≤ '9' then some (c.toNat - 48)
  else if 'a' ≤ c ∧ c ≤ 'f' then some (c.toNat - 87)
  else if 'A' ≤ c ∧ c ≤ 'F' then some (c.toNat - 55)
  else none

/-- The unit named by four hexadecimal digits. -/
def hexUnit? (a b c d : Char) : Option Nat := do
  return (((← hexValue? a) * 16 + (← hexValue? b)) * 16 + (← hexValue? c)) * 16 + (← hexValue? d)

/-- The character that a one-letter escape stands for. -/
def simpleEscape? : Char → Option Char
  | '"' => some '"'
  | '\\' => some '\\'
  | '/' => some '/'
  | 'b' => some '\x08'
  | 'f' => some '\x0c'
  | 'n' => some '\n'
  | 'r' => some '\r'
  | 't' => some '\t'
  | _ => none

/-- Reads up to the closing quote: what the string holds, as numbers, and what follows the quote. -/
def readUnits : List Char → Option (List Nat × List Char)
  | [] => none
  | '"' :: rest => some ([], rest)
  | '\\' :: 'u' :: a :: b :: c :: d :: rest => do
    let unit ← hexUnit? a b c d
    let (units, after) ← readUnits rest
    return (unit :: units, after)
  | '\\' :: e :: rest => do
    let c ← simpleEscape? e
    let (units, after) ← readUnits rest
    return (c.toNat :: units, after)
  | c :: rest =>
    if c = '\\' ∨ c.toNat < 0x20 then none
    else do
      let (units, after) ← readUnits rest
      return (c.toNat :: units, after)

def isHighHalf (n : Nat) : Bool := 0xD800 ≤ n && n < 0xDC00
def isLowHalf (n : Nat) : Bool := 0xDC00 ≤ n && n < 0xE000

/-- The character of a unit; half a pair on its own is no character and is replaced, so texts that differ only in such
halves are read as the same. -/
def unitChar (n : Nat) : Char := if n.isValidChar then Char.ofNat n else '\uFFFD'

/-- The characters of a sequence of code points and units. -/
def joinUnits : List Nat → List Char
  | [] => []
  | [n] => [unitChar n]
  | high :: low :: rest =>
    if isHighHalf high && isLowHalf low then
      unitChar (0x10000 + (high - 0xD800) * 0x400 + (low - 0xDC00)) :: joinUnits rest
    else unitChar high :: joinUnits (low :: rest)

/-- Reads a string whose opening quote has been read. -/
def readString (text : List Char) : Option (List Char × List Char) :=
  (readUnits text).map fun (units, rest) => (joinUnits units, rest)

/-! ## Running it -/

example : readString ['\\', 'n', 'a', '"', '!'] = some (['\n', 'a'], ['!']) := by decide +kernel
example : readString (writeString true ['😀', 'é', '"']).tail = some (['😀', 'é', '"'], []) := by
  decide +kernel

end JsonMend
