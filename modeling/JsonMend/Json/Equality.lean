import JsonMend.Json.Basic
/-
  Three coarser readings of when two values are the same.

  `same`   — equal as JSON: numbers by value, objects by key, a boolean never equal to a number.
  `alike`  — the same, but a boolean counts as the number 0 or 1, at every depth.
  `sortKeys` — a representative of a value up to the order of object members: two values agree up
  to that order when it takes them to one value.
-/
namespace JsonMend

namespace Json

/-! ## Equal as JSON -/

/-- The number that a value stands for when booleans count as 0 and 1. -/
def asNumber? : Json → Option Number
  | .num n => some n
  | .bool b => some (.int (if b then 1 else 0))
  | _ => none

/-- Whether two values that are not both arrays or both objects are the same, a boolean being the
same only as itself. -/
def sameLeaf : Json → Json → Bool
  | .null, .null => true
  | .bool a, .bool b => a == b
  | .num a, .num b => a.sameValue b
  | .str a, .str b => a == b
  | _, _ => false

/-- As `sameLeaf`, but a boolean counts as a number. -/
def alikeLeaf (a b : Json) : Bool :=
  match a.asNumber?, b.asNumber? with
  | some m, some n => m.sameValue n
  | _, _ => sameLeaf a b

mutual
/-- Whether two values agree, arrays item by item and objects key by key, the rest by `leaf`. -/
def agree (leaf : Json → Json → Bool) : Json → Json → Bool
  | .arr xs, .arr ys => agreeItems leaf xs ys
  | .obj ms, .obj ns => ms.length == ns.length && agreeMembers leaf ms ns
  | a, b => leaf a b
def agreeItems (leaf : Json → Json → Bool) : List Json → List Json → Bool
  | [], [] => true
  | x :: xs, y :: ys => agree leaf x y && agreeItems leaf xs ys
  | _, _ => false
/-- Whether each of the first members has a partner among the second. -/
def agreeMembers (leaf : Json → Json → Bool) :
    List (String × Json) → List (String × Json) → Bool
  | [], _ => true
  | (k, v) :: ms, ns =>
    (match ns.lookup k with
      | some w => agree leaf v w
      | none => false) && agreeMembers leaf ms ns
end

/-- Equal as JSON values. -/
def same (a b : Json) : Bool := agree sameLeaf a b

/-- Equal when booleans count as the numbers 0 and 1. -/
def alike (a b : Json) : Bool := agree alikeLeaf a b

/-! ## Order -/

mutual
/-- Which of two values is less, where they can be compared: numbers (booleans counting as 0 and 1),
texts, and arrays by their first items that are not alike. -/
def less? : Json → Json → Option Bool
  | .arr xs, .arr ys => lessItems? xs ys
  | .str a, .str b => some (a < b)
  | a, b =>
    match a.asNumber?, b.asNumber? with
    | some m, some n => some (m.less n)
    | _, _ => none
def lessItems? : List Json → List Json → Option Bool
  | [], ys => some !ys.isEmpty
  | _ :: _, [] => some false
  | x :: xs, y :: ys => if alike x y then lessItems? xs ys else less? x y
end

/-! ## Up to the order of members -/

/-- Members in ascending order of their keys. -/
def sortMembers (members : Members) : Members := members.mergeSort fun a b => decide (a.1 ≤ b.1)

mutual
/-- A value with the members of every object in ascending order of their keys. -/
def sortKeys : Json → Json
  | .arr items => .arr (sortKeysItems items)
  | .obj members => .obj (sortMembers (sortKeysMembers members))
  | v => v
def sortKeysItems : List Json → List Json
  | [] => []
  | x :: xs => sortKeys x :: sortKeysItems xs
def sortKeysMembers : List (String × Json) → List (String × Json)
  | [] => []
  | (k, v) :: ms => (k, sortKeys v) :: sortKeysMembers ms
end

theorem sortKeysItems_eq_map (items : List Json) : sortKeysItems items = items.map sortKeys := by
  induction items with
  | nil => rfl
  | cons x xs ih => simp [sortKeysItems, ih]

theorem sortKeysMembers_eq_map (members : Members) :
    sortKeysMembers members = members.map fun (k, v) => (k, sortKeys v) := by
  induction members with
  | nil => rfl
  | cons m ms ih => simp [sortKeysMembers, ih]

end Json

/-! ## Running it -/

example : Json.same (.num (.int 1)) (.num (.real (.ofRat 1))) = true ∧
    Json.same (.num (.int 1)) (.bool true) = false ∧
    Json.alike (.arr [.num (.int 1)]) (.arr [.bool true]) = true := by decide +kernel
example : Json.same (.obj [("a", .null), ("b", .bool true)]) (.obj [("b", .bool true), ("a", .null)])
    = true := by decide +kernel

end JsonMend
