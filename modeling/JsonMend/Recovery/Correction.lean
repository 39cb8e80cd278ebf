import JsonMend.Text.Blank
import JsonMend.Text.Word
/-
  The corrections that turn relaxed JSON text into strict JSON text.

  Each correction reads a text once from left to right and knows nothing of the others.  Only the last
  one, which replaces bare tokens by `null`, heeds string literals; the others act on any characters.
  They are applied once each, in the order of `Correction.all`.
-/
namespace JsonMend

namespace Correction

/-! ## Commas in front of a closing bracket -/

/-- Whether the first character that is not blank closes an array or an object. -/
def closesNext (text : List Char) : Bool :=
  match text.dropWhile isBlank with
  | c :: _ => c = ']' || c = '}'
  | [] => false

/-- Drops each comma with nothing but blanks between it and a closing bracket. -/
def dropTrailingCommas : List Char → List Char
  | [] => []
  | c :: rest =>
    if c = ',' && closesNext rest then dropTrailingCommas rest else c :: dropTrailingCommas rest

/-! ## Quotes -/

/-- Turns every apostrophe into a double quote. -/
def doubleQuotes (text : List Char) : List Char :=
  text.map fun c => if c = '\x27' then '"' else c

/-! ## Keys without quotes -/

/-- A character that a bare key can start with. -/
def isKeyStart (c : Char) : Bool := c.isAlpha || c = '_'

/-- A character that a bare key can go on with. -/
def isKeyChar (c : Char) : Bool := c.isAlphanum || c = '_'

/-- A bare key with its colon at the front of a text, blanks aside: the key, and the length of all
that was read. -/
def bareKeyLength? (text : List Char) : Option (List Char × Nat) :=
  let fromKey := text.dropWhile isBlank
  let key := fromKey.takeWhile isKeyChar
  let behindKey := (fromKey.dropWhile isKeyChar).dropWhile isBlank
  match key, behindKey with
  | first :: _, ':' :: after =>
    if isKeyStart first then some (key, text.length - after.length) else none
  | _, _ => none

/-- Puts bare keys in quotes, skipping the given number of characters first. -/
def quoteKeysFrom : Nat → List Char → List Char
  | _, [] => []
  | skip + 1, _ :: rest => quoteKeysFrom skip rest
  | 0, c :: rest =>
    if c = '{' || c = ',' then
      match bareKeyLength? rest with
      | some (key, length) => c :: '"' :: (key ++ '"' :: ':' :: quoteKeysFrom length rest)
      | none => c :: quoteKeysFrom 0 rest
    else c :: quoteKeysFrom 0 rest

/-- Puts each bare key behind a brace or a comma in quotes; the blanks around it go. -/
def quoteBareKeys (text : List Char) : List Char := quoteKeysFrom 0 text

/-! ## Comments -/

/-- Drops each comment that runs from two slashes to the end of its line. -/
def dropLineComments (text : List Char) : List Char := go false text
where
  /-- Reads on, inside a comment or not. -/
  go : Bool → List Char → List Char
  | _, [] => []
  | true, c :: rest => if c = '\n' then c :: go false rest else go true rest
  | false, c :: rest =>
    if c = '/' && rest.head? = some '/' then go true rest else c :: go false rest

section
variable (c : Char) (rest : List Char)

theorem dropLineComments.go_text :
    go false (c :: rest) = if c = '/' && rest.head? = some '/' then go true rest else c :: go false rest := rfl

theorem dropLineComments.go_comment :
    go true (c :: rest) = if c = '\n' then c :: go false rest else go true rest := rfl

end

/-- Whether a text holds the end of a block comment. -/
def closesBlock : List Char → Bool
  | [] => false
  | c :: rest => (c = '*' && rest.head? = some '/') || closesBlock rest

/-- Where the reading of block comments stands. -/
inductive BlockState where
  | outside
  /-- Behind the slash that opens a comment. -/
  | opening
  | inside
  /-- Behind the asterisk that closes a comment. -/
  | closing

/-- Drops each comment between `/*` and the next `*/`; one that is never closed stays. -/
def dropBlockComments (text : List Char) : List Char := go .outside text
where
  /-- Reads on in a state. -/
  go : BlockState → List Char → List Char
  | _, [] => []
  | .outside, c :: rest =>
    if c = '/' && rest.head? = some '*' && closesBlock (rest.drop 1) then go .opening rest
    else c :: go .outside rest
  | .opening, _ :: rest => go .inside rest
  | .inside, c :: rest =>
    if c = '*' && rest.head? = some '/' then go .closing rest else go .inside rest
  | .closing, _ :: rest => go .outside rest

section
variable (c : Char) (rest : List Char)

theorem dropBlockComments.go_outside : go .outside (c :: rest) =
    if c = '/' && rest.head? = some '*' && closesBlock (rest.drop 1) then go .opening rest
    else c :: go .outside rest := rfl

theorem dropBlockComments.go_opening : go .opening (c :: rest) = go .inside rest := rfl

theorem dropBlockComments.go_inside : go .inside (c :: rest) =
    if c = '*' && rest.head? = some '/' then go .closing rest else go .inside rest := rfl

theorem dropBlockComments.go_closing : go .closing (c :: rest) = go .outside rest := rfl

end

/-- Drops all comments, those to the end of a line first. -/
def dropComments (text : List Char) : List Char := dropBlockComments (dropLineComments text)

/-! ## Bare tokens -/

/-- The length of the rest of a string literal behind its opening quote, up to and with the closing
one; a backslash takes the next character along, which must not be a line break. -/
def literalLength? : List Char → Option Nat
  | [] => none
  | '"' :: _ => some 1
  | '\\' :: c :: rest => if c = '\n' then none else (literalLength? rest).map (· + 2)
  | c :: rest => if c = '\\' then none else (literalLength? rest).map (· + 1)

/-- Whether a text does not go on with a word character. -/
def endsWord : List Char → Bool
  | [] => true
  | c :: _ => !isWordChar c

/-- The tokens that stand for null. -/
def bareTokens : List (List Char) := ["undefined".toList, "NaN".toList]

/-- A bare token at the front of a text, blanks aside: the blanks, and the length of all that was
read. -/
def bareToken? (text : List Char) : Option (List Char × Nat) :=
  let blanks := text.takeWhile isBlank
  let behind := text.dropWhile isBlank
  (bareTokens.find? fun token => token.isPrefixOf behind && endsWord (behind.drop token.length)).map
    fun token => (blanks, blanks.length + token.length)

/-- Replaces bare tokens, after copying some characters as they are and skipping some more. -/
def nullTokensFrom : Nat → Nat → List Char → List Char
  | _, _, [] => []
  | copy + 1, skip, c :: rest => c :: nullTokensFrom copy skip rest
  | 0, skip + 1, _ :: rest => nullTokensFrom 0 skip rest
  | 0, 0, c :: rest =>
    if c = '"' then c :: nullTokensFrom ((literalLength? rest).getD 0) 0 rest
    else if c = ':' || c = '[' || c = ',' then
      match bareToken? rest with
      | some (blanks, length) =>
        c :: (blanks ++ ['n', 'u', 'l', 'l'] ++ nullTokensFrom 0 length rest)
      | none => c :: nullTokensFrom 0 0 rest
    else c :: nullTokensFrom 0 0 rest

section
variable (c : Char) (rest : List Char) (n skip : Nat)

theorem nullTokensFrom_copying :
    nullTokensFrom (n + 1) skip (c :: rest) = c :: nullTokensFrom n skip rest := rfl

theorem nullTokensFrom_skipping : nullTokensFrom 0 (n + 1) (c :: rest) = nullTokensFrom 0 n rest := rfl

theorem nullTokensFrom_cons : nullTokensFrom 0 0 (c :: rest) =
    if c = '"' then c :: nullTokensFrom ((literalLength? rest).getD 0) 0 rest
    else if c = ':' || c = '[' || c = ',' then
      match bareToken? rest with
      | some (blanks, length) =>
        c :: (blanks ++ ['n', 'u', 'l', 'l'] ++ nullTokensFrom 0 length rest)
      | none => c :: nullTokensFrom 0 0 rest
    else c :: nullTokensFrom 0 0 rest := rfl

end

/-- Replaces each bare token behind a colon, a comma or an opening bracket by `null`, leaving string
literals alone. -/
def nullBareTokens (text : List Char) : List Char := nullTokensFrom 0 0 text

/-! ## All of them -/

/-- The corrections with their names, in the order in which they are applied. -/
def all : List (String × (List Char → List Char)) :=
  [("trailing_commas", dropTrailingCommas), ("single_quotes", doubleQuotes),
   ("bare_keys", quoteBareKeys), ("comments", dropComments), ("undefined_nan", nullBareTokens)]

/-- A text after all corrections. -/
def applyAll (text : List Char) : List Char := all.foldl (fun text correction => correction.2 text) text

/-- The text after each correction, each applied to the result of the one before. -/
def trace (text : List Char) : List (String × List Char) :=
  (all.foldl (fun (text, seen) (name, correction) =>
    (correction text, seen ++ [(name, correction text)])) (text, [])).2

/-! ## Running it -/

example : dropTrailingCommas "[1, 2 , ]".toList = "[1, 2  ]".toList := by decide +kernel
example : quoteBareKeys "\x7b a : 1, b:2\x7d".toList = "\x7b\"a\": 1,\"b\":2\x7d".toList := by
  decide +kernel
example : dropComments "[1 /* x */, 2] // y".toList = "[1 , 2] ".toList := by decide +kernel
example : nullBareTokens "[NaN, \", NaN\", undefined1]".toList =
    "[null, \", NaN\", undefined1]".toList := by decide +kernel

end Correction

end JsonMend
