import JsonMend.Change
import JsonMend.Shape
/-
  Pruning: dropping the properties that a shape forbids.

  Only a shape that is closed and names some key forbids anything; without a named key there is
  nothing to compare with.
-/
namespace JsonMend

namespace Prune

def reason : String := "Property not allowed by schema (additionalProperties: false)"

/-- Whether a shape forbids the keys that it does not declare. -/
def isStrict (s : Shape) : Bool := s.closed && s.namesKeys

/-- Whether a key is forbidden. -/
def forbids (s : Shape) (key : String) : Except Fault Bool :=
  if isStrict s then (s.declares key).map (!·) else .ok false

end Prune

/-- Drops every forbidden property of a value, at any depth that the shape reaches. -/
def prune (s : Shape) (v : Json) : Changed Json :=
  match v with
  | .arr items =>
    match _h : s.items with
    | none => return v
    | some sub => return .arr (← Changed.items (fun item => prune sub item) 0 items)
  | .obj members =>
    if !s.isObject then return v
    else
      let step (key : String) (item : Json) : Changed (Option Json) := do
        if ← Prune.forbids s key then
          Changed.record (.removed item) Prune.reason
          return none
        match _h : s.child (.key key) with
        | .error fault => Changed.ofExcept (.error fault)
        | .ok none => return some item
        | .ok (some sub) => return some (← prune sub item)
      return .obj (← Changed.members step members)
  | _ => return v
termination_by sizeOf s
decreasing_by
  · exact Shape.items_lt _h
  · exact Shape.child_lt _h

/-! ## Running it -/

example : (prune (Shape.ofSchema (.obj [("properties", .obj [("a", .obj [])]),
      ("additionalProperties", .bool false)])) (.obj [("b", .null), ("a", .null)])).run.toOption =
    some (.obj [("a", .null)], [⟨[.key "b"], .removed .null, Prune.reason⟩]) := by decide +kernel

end JsonMend
