import JsonMend.Change
import JsonMend.Shape
/-
  Filling in defaults.

  A missing property takes its default; a missing required one without a default becomes an empty
  object or array if it may be one.  A value of a wrong type where an object or an array is expected
  gives way to the default, or to an empty object if the shape names keys.  Whatever was put in is
  filled in turn.

  Every value that is kept is entered (`fill`) after it was settled what stands there (`settle`), and
  entering a value that the shape does not expect does nothing.
-/
namespace JsonMend

namespace Defaults

def reason : String := "Applied schema default value"
def reasonForObject : String := "Applied schema default for non-object value"
def reasonForArray : String := "Applied schema default for non-array value"
def reasonEmptied : String := "Replaced non-object value with an empty object"
def reasonRequiredObject : String := "Added required object property"
def reasonRequiredArray : String := "Added required array property"

/-- Whether the parts of a value are looked at: an object under a shape for objects, an array under
one for arrays. -/
def enters (s : Shape) : Json → Bool
  | .obj _ => s.isObject
  | .arr _ => s.isArray
  | _ => false

/-- What stands in the place of a value, before its parts are looked at. -/
def settle (s : Shape) (v : Json) : Changed Json := do
  if enters s v || s.admits v then return v
  if s.isObject then
    match s.fallback with
    | some d =>
      Changed.record (.defaulted d (some v)) reasonForObject
      return d
    | none =>
      if s.namesKeys then
        Changed.record (.added (.obj []) (some v)) reasonEmptied
        return .obj []
      else return v
  else if s.isArray then
    match s.fallback with
    | some d =>
      Changed.record (.defaulted d (some v)) reasonForArray
      return d
    | none => return v
  else return v

/-- What is put where nothing stands: the default, if there is one. -/
def supply? (s : Shape) : Changed (Option Json) := do
  match s.fallback with
  | some d =>
    Changed.record (.defaulted d none) reason
    return some d
  | none => return none

/-- What is put where a property is missing, if anything is. -/
def gapFiller? (isRequired : Bool) (s : Shape) : Changed (Option Json) := do
  if s.fallback.isSome then supply? s
  else if !isRequired then return none
  else if s.types.contains "object" then
    Changed.record (.added (.obj []) none) reasonRequiredObject
    return some (.obj [])
  else if s.types.contains "array" then
    Changed.record (.added (.arr []) none) reasonRequiredArray
    return some (.arr [])
  else return none

/-- The declared properties that an object does not have, in the order of declaration. -/
def missing (s : Shape) (members : Members) : List (String × Shape) :=
  s.properties.filter fun (name, _) => !hasKey members name

theorem missing_lt {s : Shape} {members : Members} {entry : String × Shape}
    (mem : entry ∈ missing s members) : sizeOf entry.2 < sizeOf s :=
  Shape.property_lt (List.mem_filter.mp mem).1

end Defaults

/-- Fills the gaps in the parts of a value. -/
def fill (s : Shape) (v : Json) : Changed Json :=
  match v with
  | .obj members =>
    if !s.isObject then return v
    else do
      let step (key : String) (item : Json) : Changed (Option Json) :=
        match _h : s.child (.key key) with
        | .error fault => Changed.ofExcept (.error fault)
        | .ok none => return some item
        | .ok (some sub) => do
          let own ← Defaults.settle sub item
          return some (← fill sub own)
      let members' ← Changed.members step members
      let added ← (Defaults.missing s members).attach.filterMapM fun ⟨(name, sub), _h⟩ =>
        Changed.under (.key name) do
          match ← Defaults.gapFiller? (s.required.contains name) sub with
          | none => return none
          | some own => return some (name, ← fill sub own)
      return .obj (members' ++ added)
  | .arr items =>
    if !s.isArray then return v
    else
      match _h : s.items with
      | none => return v
      | some sub =>
        let step (item : Json) : Changed Json := do
          let own ← Defaults.settle sub item
          fill sub own
        return .arr (← Changed.items step 0 items)
  | _ => return v
termination_by sizeOf s
decreasing_by
  · exact Shape.child_lt _h
  · exact Defaults.missing_lt _h
  · exact Shape.items_lt _h

/-- Fills the gaps of a value, which may itself give way to a default. -/
def applyDefaults (s : Shape) (v : Json) : Changed Json := do
  let own ← Defaults.settle s v
  fill s own

/-- The default for a place where nothing stands, filled in turn; without a default, nothing. -/
def supplyDefault (s : Shape) : Changed (Option Json) := do
  match ← Defaults.supply? s with
  | none => return none
  | some own => return some (← fill s own)

/-! ## Running it -/

example : (applyDefaults (Shape.ofSchema (.obj [("properties", .obj [("a", .obj [("default", .null)]),
      ("b", .obj [("type", .str "array")])]), ("required", .arr [.str "b"])])) (.obj [])).run.toOption =
    some (.obj [("a", .null), ("b", .arr [])],
      [⟨[.key "a"], .defaulted .null none, Defaults.reason⟩,
       ⟨[.key "b"], .added (.arr []) none, Defaults.reasonRequiredArray⟩]) := by decide +kernel

end JsonMend
