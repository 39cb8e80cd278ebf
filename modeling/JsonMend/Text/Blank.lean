import JsonMend.Text.CharRange
/-
  Blank characters: the spaces, tabs and line or paragraph separators of Unicode, together with the
  four information separators.
-/
namespace JsonMend

/-- The blanks. -/
def blankTable : RangeTable :=
  [(9, 13), (28, 32), (133, 133), (160, 160), (5760, 5760), (8192, 8202), (8232, 8233),
   (8239, 8239), (8287, 8287), (12288, 12288)]

/-- Whether a character is blank. -/
def isBlank (c : Char) : Bool := inTable blankTable c.toNat

/-- A text without the blanks at both ends. -/
def trimBlanks (text : List Char) : List Char :=
  ((text.dropWhile isBlank).reverse.dropWhile isBlank).reverse

theorem blankTable_ascending : ascendingFrom 0 blankTable = true := by decide +kernel

/-- Everything that is white space in ASCII is blank. -/
theorem isBlank_of_isWhitespace {c : Char} (h : c.isWhitespace = true) : isBlank c = true := by
  simp only [Char.isWhitespace, Bool.or_eq_true, decide_eq_true_eq] at h
  rcases h with ((h | h) | h) | h <;> subst h <;> decide +kernel

example : tableSize blankTable = 29 := by decide +kernel
example : trimBlanks [' ', 'a', ' ', 'b', '\n'] = ['a', ' ', 'b'] := by decide +kernel

end JsonMend
