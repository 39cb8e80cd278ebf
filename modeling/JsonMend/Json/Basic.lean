import JsonMend.Number.Basic
/-
  JSON values.

  An object keeps its members in the order of their first appearance, each key once.  Two values are
  equal as data when they agree in everything, member order and the kind of each number included.
-/
namespace JsonMend

inductive Json where
  | null
  | bool (b : Bool)
  | num (n : Number)
  | str (s : String)
  | arr (items : List Json)
  | obj (members : List (String × Json))

/-- The members of an object, in order. -/
abbrev Members := List (String × Json)

namespace Json

instance : Inhabited Json := ⟨.null⟩

/-! ## Equality as data -/

mutual
/-- Whether two values agree in everything. -/
def beq : Json → Json → Bool
  | .null, .null => true
  | .bool a, .bool b => a == b
  | .num a, .num b => a == b
  | .str a, .str b => a == b
  | .arr xs, .arr ys => beqItems xs ys
  | .obj ms, .obj ns => beqMembers ms ns
  | _, _ => false
def beqItems : List Json → List Json → Bool
  | [], [] => true
  | x :: xs, y :: ys => beq x y && beqItems xs ys
  | _, _ => false
def beqMembers : List (String × Json) → List (String × Json) → Bool
  | [], [] => true
  | (k, v) :: ms, (l, w) :: ns => k == l && beq v w && beqMembers ms ns
  | _, _ => false
end

mutual
theorem beq_iff : ∀ {a b : Json}, beq a b = true ↔ a = b
  | .null, b => by cases b <;> simp [beq]
  | .bool _, b => by cases b <;> simp [beq]
  | .num _, b => by cases b <;> simp [beq]
  | .str _, b => by cases b <;> simp [beq]
  | .arr _, b => by cases b <;> simp [beq, beqItems_iff]
  | .obj _, b => by cases b <;> simp [beq, beqMembers_iff]
theorem beqItems_iff : ∀ {xs ys : List Json}, beqItems xs ys = true ↔ xs = ys
  | [], ys => by cases ys <;> simp [beqItems]
  | _ :: _, ys => by cases ys <;> simp [beqItems, beq_iff, beqItems_iff]
theorem beqMembers_iff : ∀ {ms ns : List (String × Json)}, beqMembers ms ns = true ↔ ms = ns
  | [], ns => by cases ns <;> simp [beqMembers]
  | (_, _) :: _, ns => by
    rcases ns with _ | ⟨⟨_, _⟩, _⟩ <;> simp [beqMembers, beq_iff, beqMembers_iff]
end

instance : DecidableEq Json := fun _ _ => decidable_of_iff _ beq_iff

/-! ## Views -/

/-- The value of a key of an object. -/
def get? (key : String) : Json → Option Json
  | .obj members => members.lookup key
  | _ => none

/-- The name of a value's kind. -/
def kindName : Json → String
  | .null => "null"
  | .bool _ => "boolean"
  | .num _ => "number"
  | .str _ => "string"
  | .arr _ => "array"
  | .obj _ => "object"

def isBool : Json → Bool
  | .bool _ => true
  | _ => false

def isObj : Json → Bool
  | .obj _ => true
  | _ => false

/-- Whether a value is neither null nor a container. -/
def isScalar : Json → Bool
  | .bool _ | .num _ | .str _ => true
  | _ => false

/-- Whether a value counts as something: not null, not false, not zero, not empty. -/
def isSubstantial : Json → Bool
  | .null => false
  | .bool b => b
  | .num n => !n.isZero
  | .str s => !s.isEmpty
  | .arr items => !items.isEmpty
  | .obj members => !members.isEmpty

mutual
/-- How deeply arrays and objects are nested. -/
def depth : Json → Nat
  | .arr items => itemsDepth items + 1
  | .obj members => membersDepth members + 1
  | _ => 0
def itemsDepth : List Json → Nat
  | [] => 0
  | x :: xs => max (depth x) (itemsDepth xs)
def membersDepth : List (String × Json) → Nat
  | [] => 0
  | (_, v) :: ms => max (depth v) (membersDepth ms)
end

mutual
/-- How many values a value is made of, itself included. -/
def size : Json → Nat
  | .arr items => itemsSize items + 1
  | .obj members => membersSize members + 1
  | _ => 1
def itemsSize : List Json → Nat
  | [] => 0
  | x :: xs => size x + itemsSize xs
def membersSize : List (String × Json) → Nat
  | [] => 0
  | (_, v) :: ms => size v + membersSize ms
end

end Json

/-! ## Members -/

/-- Gives a key a value: in its place when the key is there, otherwise at the end. -/
def assign {α : Type} (key : String) (value : α) : List (String × α) → List (String × α)
  | [] => [(key, value)]
  | (k, v) :: rest => if k = key then (k, value) :: rest else (k, v) :: assign key value rest

/-- The members that a sequence of pairs leaves: each key in its first place with its last value. -/
def collectMembers {α : Type} (pairs : List (String × α)) : List (String × α) :=
  pairs.foldl (fun members (key, value) => assign key value members) []

/-- Whether a key is among the members. -/
def hasKey {α : Type} (members : List (String × α)) (key : String) : Bool :=
  (members.lookup key).isSome

/-- The keys after an assignment: a new key comes last, a known one changes nothing. -/
theorem keys_assign {α : Type} (key : String) (value : α) (members : List (String × α)) :
    (assign key value members).map Prod.fst =
      if key ∈ members.map Prod.fst then members.map Prod.fst
      else members.map Prod.fst ++ [key] := by
  induction members with
  | nil => simp [assign]
  | cons head rest ih =>
    obtain ⟨k, v⟩ := head
    by_cases same : k = key
    · simp [assign, same]
    · have other : key ≠ k := fun h => same h.symm
      simp only [assign, same, if_false, List.map_cons, ih, List.mem_cons, other, false_or]
      split <;> simp

/-- Looking a key up, one member at a time. -/
theorem lookup_cons_if {α : Type} (key k : String) (v : α) (rest : List (String × α)) :
    ((k, v) :: rest).lookup key = if key = k then some v else rest.lookup key := by
  by_cases h : key = k
  · simp [h]
  · have apart : (key == k) = false := by simpa using h
    simp [List.lookup_cons, h, apart]

/-- What a key holds after an assignment. -/
theorem lookup_assign {α : Type} (key other : String) (value : α) (members : List (String × α)) :
    (assign key value members).lookup other =
      if other = key then some value else members.lookup other := by
  induction members with
  | nil => simp [assign, lookup_cons_if]
  | cons head rest ih =>
    obtain ⟨k, v⟩ := head
    by_cases same : k = key
    · subst same
      simp only [assign, if_true, lookup_cons_if]
      split <;> rfl
    · simp only [assign, if_neg same, lookup_cons_if, ih]
      by_cases h : other = k
      · simp [h, same]
      · simp [h]

end JsonMend
