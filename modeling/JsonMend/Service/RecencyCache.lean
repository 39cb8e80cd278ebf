import JsonMend.Json.Basic
/-
  A store of a limited number of values by key, which forgets the value used longest ago.

  The entries stand in the order of their last use, the oldest first.  Finding a value is a use of it
  (`touch`), and so is storing one under a new key (`insert`).  Storing forgets at most one entry, and
  a limit of zero or less keeps nothing.
-/
namespace JsonMend

structure RecencyCache (α : Type) where
  limit : Int
  entries : List (String × α)

namespace RecencyCache

variable {α : Type}

def empty (limit : Int) : RecencyCache α := ⟨limit, []⟩

/-- The keys, the one used longest ago first. -/
def keys (c : RecencyCache α) : List String := c.entries.map Prod.fst

/-- The value stored under a key. -/
def find? (c : RecencyCache α) (key : String) : Option α := c.entries.lookup key

/-- Makes the entry of a key the one used last. -/
def touch (c : RecencyCache α) (key : String) : RecencyCache α :=
  match c.find? key with
  | some v => { c with entries := c.entries.filter (·.1 != key) ++ [(key, v)] }
  | none => c

/-- Stores a value; the oldest entry is forgotten when there are too many.  A value stored under a key
that is already there takes the place of the value before it. -/
def insert (c : RecencyCache α) (key : String) (v : α) : RecencyCache α :=
  let entries := assign key v c.entries
  { c with entries := if c.limit < entries.length then entries.drop 1 else entries }

/-! ## Laws -/

theorem keys_touch (c : RecencyCache α) (key : String) :
    (c.touch key).keys =
      if key ∈ c.keys then c.keys.filter (· != key) ++ [key] else c.keys := by
  have isThere : key ∈ c.keys ↔ (c.find? key).isSome := by
    simp only [keys, find?]
    induction c.entries with
    | nil => simp
    | cons head rest ih =>
      obtain ⟨k, v⟩ := head
      by_cases same : key = k
      · simp [same]
      · simp only [List.map_cons, List.mem_cons, same, false_or, ih, lookup_cons_if, if_false]
  simp only [isThere]
  simp only [touch]
  cases found : c.find? key with
  | none => simp
  | some v => simp [keys, List.filter_map, Function.comp_def]

theorem keys_insert (c : RecencyCache α) (key : String) (v : α) :
    (c.insert key v).keys =
      let keys := if key ∈ c.keys then c.keys else c.keys ++ [key]
      if c.limit < keys.length then keys.drop 1 else keys := by
  have keysThen : (assign key v c.entries).map Prod.fst =
      if key ∈ c.keys then c.keys else c.keys ++ [key] := keys_assign key v c.entries
  have sameLength : (assign key v c.entries).length =
      (if key ∈ c.keys then c.keys else c.keys ++ [key]).length := by
    rw [← keysThen, List.length_map]
  show (if c.limit < ((assign key v c.entries).length : Int) then (assign key v c.entries).drop 1
    else assign key v c.entries).map Prod.fst = _
  rw [sameLength, apply_ite (List.map Prod.fst), List.map_drop, keysThen]

/-! ## Running it -/

example : (((empty 2).insert "a" 1).insert "b" 2).keys = ["a", "b"] := by decide +kernel
example : (((((empty 2).insert "a" 1).insert "b" 2).touch "a").insert "c" 3).keys = ["a", "c"] := by
  decide +kernel
example : ((empty 0).insert "a" 1).keys = [] := by decide +kernel

end RecencyCache

end JsonMend
