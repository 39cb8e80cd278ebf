/-
  Sets of characters given by their code points.

  A property of characters that a standard lists (letters, digits, blanks, …) is a table of disjoint
  ranges in ascending order.  `inTable` walks the table and stops at the first range that ends at or
  after the character, so the early characters are settled at once.
-/
namespace JsonMend

/-- Ranges of code points, both ends included, disjoint and ascending. -/
abbrev RangeTable := List (Nat × Nat)

/-- Whether a code point lies in one of the ranges. -/
def inTable : RangeTable → Nat → Bool
  | [], _ => false
  | (first, last) :: rest, n =>
    if n < first then false else if n ≤ last then true else inTable rest n

/-- Whether a table is well formed: each range is nonempty and starts after the one before it. -/
def ascendingFrom : Nat → RangeTable → Bool
  | _, [] => true
  | least, (first, last) :: rest => least ≤ first && first ≤ last && ascendingFrom (last + 1) rest

/-- How many code points a table holds. -/
def tableSize (table : RangeTable) : Nat :=
  table.foldr (fun (first, last) total => last + 1 - first + total) 0

/-- What lies below the first range is in none. -/
theorem inTable_of_lt {table : RangeTable} {least n : Nat} (ascending : ascendingFrom least table)
    (below : n < least) : inTable table n = false := by
  cases table with
  | nil => rfl
  | cons range rest =>
    obtain ⟨first, last⟩ := range
    simp only [ascendingFrom, Bool.and_eq_true, decide_eq_true_eq] at ascending
    simp only [inTable, if_pos (show n < first by omega)]

/-- In an ascending table the early exit loses nothing: membership is membership in some range. -/
theorem inTable_iff {table : RangeTable} {least : Nat} (ascending : ascendingFrom least table)
    (n : Nat) : inTable table n = true ↔ ∃ range ∈ table, range.1 ≤ n ∧ n ≤ range.2 := by
  induction table generalizing least with
  | nil => simp [inTable]
  | cons range rest ih =>
    obtain ⟨first, last⟩ := range
    simp only [ascendingFrom, Bool.and_eq_true, decide_eq_true_eq] at ascending
    obtain ⟨⟨_, ordered⟩, later⟩ := ascending
    simp only [inTable, List.mem_cons, exists_eq_or_imp]
    by_cases before : n < first
    · have none : inTable rest n = false := inTable_of_lt later (by omega)
      have := ih later
      simp only [none, Bool.false_eq_true, false_iff] at this
      simp only [before, if_true, Bool.false_eq_true, false_iff, not_or]
      exact ⟨by omega, this⟩
    · by_cases inside : n ≤ last
      · simp [before, inside, show first ≤ n by omega]
      · simp [before, inside, ih later]

end JsonMend
