import JsonMend.Json.Equality
/-
  Arrays without repeated items.

  Where every two items can be compared, the items are sorted and only neighbours are looked at;
  otherwise every two items are looked at.  The first way misses a repetition that the sorting does
  not bring together, which happens where items that are merely alike, such as `[1]` and `[true]`,
  stand between.  A boolean that is itself an item cannot be compared with anything.
-/
namespace JsonMend

namespace Unique

/-- Which of two items is less, where they can be compared. -/
def itemLess? (a b : Json) : Option Bool := if a.isBool || b.isBool then none else a.less? b

/-- Whether every two items can be compared. -/
def allComparable : List Json → Bool
  | [] => true
  | x :: xs => xs.all (fun y => (itemLess? x y).isSome) && allComparable xs

/-- The items in ascending order, those alike in the order given. -/
def sorted (items : List Json) : List Json := items.mergeSort fun a b => itemLess? b a != some true

/-- Whether no item is the same as its neighbour. -/
def neighboursDiffer : List Json → Bool
  | x :: y :: rest => !x.same y && neighboursDiffer (y :: rest)
  | _ => true

/-- Whether no two items are the same. -/
def allDiffer : List Json → Bool
  | [] => true
  | x :: xs => xs.all (fun y => !x.same y) && allDiffer xs

/-- Whether an array counts as one without repeated items. -/
def holds (items : List Json) : Bool :=
  if allComparable items then neighboursDiffer (sorted items) else allDiffer items

/-! ## Where an item is repeated -/

/-- Whether two items are taken to be one: they are alike, and both are booleans or neither is. -/
def repeats (a b : Json) : Bool := a.isBool == b.isBool && a.alike b

/-- The place of the first of the earlier items that an item repeats. -/
def firstRepeated? (earlier : List Json) (item : Json) : Option Nat :=
  earlier.findIdx? (repeats · item)

/-- The first item that repeats an earlier one, and the first that it repeats, as places behind the
earlier items. -/
def duplicateFrom? : List Json → List Json → Option (Nat × Nat)
  | _, [] => none
  | earlier, item :: rest =>
    match firstRepeated? earlier item with
    | some first => some (earlier.length, first)
    | none => duplicateFrom? (earlier ++ [item]) rest

/-- The place of the first item that repeats an earlier one, and the place of the first that it
repeats. -/
def duplicate? (items : List Json) : Option (Nat × Nat) := duplicateFrom? [] items

/-! ## Running it -/

example : holds [.num (.int 1), .bool true, .num (.int 0)] = true := by cbv
example : holds [.arr [.num (.int 1)], .arr [.bool true], .arr [.num (.int 1)]] = true := by cbv
example : duplicate? [.str "a", .num (.int 1), .num (.real (.ofRat 1))] = some (2, 1) := by
  decide +kernel

end Unique

end JsonMend
