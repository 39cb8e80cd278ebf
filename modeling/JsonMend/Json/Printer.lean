import JsonMend.Json.Equality
import JsonMend.Json.Escape
import JsonMend.Text.Quoted
/-
  The texts of a value.

  `Json.write` is JSON text in a given style.  `Json.literal` is the form in which messages show a
  value: quoted literals, the words `True`, `False` and `None`, and `inf` for infinity; `Json.plain`
  is that form with a string left bare.
-/
namespace JsonMend

/-! ## JSON text -/

/-- The decisions of a JSON text. -/
structure JsonStyle where
  itemSeparator : List Char
  keySeparator : List Char
  asciiOnly : Bool

/-- No spaces, every character as itself. -/
def JsonStyle.compact : JsonStyle := ⟨[','], [':'], false⟩

/-- A space behind each separator, every character as itself. -/
def JsonStyle.spaced : JsonStyle := ⟨[',', ' '], [':', ' '], false⟩

/-- A space behind each separator, ASCII only. -/
def JsonStyle.ascii : JsonStyle := ⟨[',', ' '], [':', ' '], true⟩

/-- The word for infinity in JSON text. -/
def infinityWord : List Char := ['I', 'n', 'f', 'i', 'n', 'i', 't', 'y']

mutual
/-- The characters of a value in a style. -/
def Json.writeChars (style : JsonStyle) : Json → List Char
  | .null => ['n', 'u', 'l', 'l']
  | .bool true => ['t', 'r', 'u', 'e']
  | .bool false => ['f', 'a', 'l', 's', 'e']
  | .num n => n.write infinityWord
  | .str s => writeString style.asciiOnly s.toList
  | .arr [] => ['[', ']']
  | .arr (x :: xs) => '[' :: (x.writeChars style ++ (writeItems style xs ++ [']']))
  | .obj [] => ['{', '}']
  | .obj ((k, v) :: ms) =>
    '{' :: (writeString style.asciiOnly k.toList ++ style.keySeparator ++ v.writeChars style ++
      (writeMembers style ms ++ ['}']))
/-- The items behind the first, each with its separator. -/
def writeItems (style : JsonStyle) : List Json → List Char
  | [] => []
  | x :: xs => style.itemSeparator ++ x.writeChars style ++ writeItems style xs
/-- The members behind the first, each with its separator. -/
def writeMembers (style : JsonStyle) : List (String × Json) → List Char
  | [] => []
  | (k, v) :: ms =>
    style.itemSeparator ++ writeString style.asciiOnly k.toList ++ style.keySeparator ++
      v.writeChars style ++ writeMembers style ms
end

namespace Json

/-- The text of a value in a style. -/
def write (style : JsonStyle) (v : Json) : String := String.ofList (v.writeChars style)

/-- The one text that all values share which agree up to the order of members.  Integers are written out, whatever
their length: none that was read from a text has more than `digitLimit` digits. -/
def canonicalText (v : Json) : String := v.sortKeys.write .ascii

/-! ## The form in messages -/

/-- The word for infinity in messages. -/
def shortInfinityWord : List Char := ['i', 'n', 'f']

mutual
/-- The characters of a value as messages show it. -/
def literalChars : Json → List Char
  | .null => ['N', 'o', 'n', 'e']
  | .bool true => ['T', 'r', 'u', 'e']
  | .bool false => ['F', 'a', 'l', 's', 'e']
  | .num n => n.write shortInfinityWord
  | .str s => quoted s.toList
  | .arr [] => ['[', ']']
  | .arr (x :: xs) => '[' :: (literalChars x ++ (literalItems xs ++ [']']))
  | .obj [] => ['{', '}']
  | .obj ((k, v) :: ms) =>
    '{' :: (quoted k.toList ++ [':', ' '] ++ literalChars v ++ (literalMembers ms ++ ['}']))
def literalItems : List Json → List Char
  | [] => []
  | x :: xs => ',' :: ' ' :: (literalChars x ++ literalItems xs)
def literalMembers : List (String × Json) → List Char
  | [] => []
  | (k, v) :: ms =>
    ',' :: ' ' :: (quoted k.toList ++ [':', ' '] ++ literalChars v ++ literalMembers ms)
end

/-- A value as messages show it. -/
def literal (v : Json) : String := String.ofList v.literalChars

/-- A value as running text shows it: a string is left bare. -/
def plain : Json → String
  | .str s => s
  | v => v.literal

end Json

/-- A string as messages show it. -/
def quote (s : String) : String := String.ofList (quoted s.toList)

/-! ## Running it -/

example : Json.write .compact (.obj [("a", .arr [.num (.int 1), .null])]) =
    "\x7b\"a\":[1,null]\x7d" := by decide +kernel
example : Json.canonicalText (.obj [("b", .null), ("a", .bool true)]) =
    "\x7b\"a\": true, \"b\": null\x7d" := by cbv
example : Json.literal (.arr [.str "it's", .bool true]) = "[\"it's\", True]" := by decide +kernel

end JsonMend
