import JsonMend.Text.Printable
/-
  Quoted literals: a text between quotes, every character that cannot be shown written as an escape.

  The quote is the apostrophe unless the text holds an apostrophe and no double quote.
-/
namespace JsonMend

/-- The hexadecimal digits of a number, padded with zeros to a width. -/
def hexDigits (width n : Nat) : List Char :=
  let digits := Nat.toDigits 16 n
  List.replicate (width - digits.length) '0' ++ digits

/-- The quote that a text is put in. -/
def quoteFor (text : List Char) : Char :=
  if text.contains '\x27' && !text.contains '"' then '"' else '\x27'

/-- How a character is written between the given quotes. -/
def quotedChar (quote c : Char) : List Char :=
  if c = quote ∨ c = '\\' then ['\\', c]
  else if c = '\n' then ['\\', 'n']
  else if c = '\r' then ['\\', 'r']
  else if c = '\t' then ['\\', 't']
  else if isPrintable c then [c]
  else if c.toNat < 0x100 then '\\' :: 'x' :: hexDigits 2 c.toNat
  else if c.toNat < 0x10000 then '\\' :: 'u' :: hexDigits 4 c.toNat
  else '\\' :: 'U' :: hexDigits 8 c.toNat

/-- A text as a quoted literal. -/
def quoted (text : List Char) : List Char :=
  let quote := quoteFor text
  quote :: (text.flatMap (quotedChar quote) ++ [quote])

/-! ## Running it -/

example : quoted ['a', '\n'] = ['\x27', 'a', '\\', 'n', '\x27'] := by decide +kernel
example : quoted ['\x27'] = ['"', '\x27', '"'] := by decide +kernel
example : quoted ['\u200b'] = ['\x27', '\\', 'u', '2', '0', '0', 'b', '\x27'] := by decide +kernel

end JsonMend
