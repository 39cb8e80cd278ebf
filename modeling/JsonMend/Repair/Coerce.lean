import JsonMend.Change
import JsonMend.Shape
import JsonMend.Number.Numeral
import JsonMend.Text.Blank
/-
  Coercing: turning a scalar of the wrong type into one of a type that the shape lists.

  The listed types are tried in order, and the first that the scalar can be turned into wins.  Null,
  arrays and objects are never turned into anything.  A scalar put into an array of its own is looked
  at again under the shape of the items.  The parts of a value of a wrong type that stays are left
  alone.
-/
namespace JsonMend

/-! ## One scalar -/

namespace Coerce

/-- A scalar as a string: a whole double is written as an integer.  An integer must not have too many
digits. -/
def toText : Json → Except Fault (Option Json)
  | .bool b => .ok (some (.str (if b then "true" else "false")))
  | .num (.int n) =>
    if digitLimit < digitCount n.natAbs then .error .integerTooLong
    else .ok (some (.str (String.ofList (writeInt n))))
  | .num (.real (.finite x)) =>
    .ok (some (.str (String.ofList (if x.isWhole then writeInt x.floor else x.write))))
  | .num (.real x) => .ok (some (.str (String.ofList ((Number.real x).write infinityWord))))
  | _ => .ok none

/-- The number that a numeral stands for.  An integer numeral is taken exactly, but must not have too
many digits; any other goes through a double, which must be finite. -/
def numeralNumber (whole : Bool) (n : Numeral) : Except Fault (Option Json) :=
  if n.isInteger then
    if digitLimit < n.whole.length then .error (.tooManyDigits n.whole.length)
    else .ok (some (.num (.int n.toInt)))
  else
    match n.toDecimal.toBinary64 with
    | .infinite _ => .ok none
    | .finite x => .ok (some (.num (if whole then .int x.addHalfFloor else .real (.finite x))))

/-- A boolean or a string as a number, or as an integer where a whole number is asked for. -/
def toNumber (whole : Bool) : Json → Except Fault (Option Json)
  | .bool b => .ok (some (.num (.int (if b then 1 else 0))))
  | .str s =>
    match Numeral.ofChars? (trimBlanks s.toList) with
    | some n => numeralNumber whole n
    | none => .ok none
  | _ => .ok none

/-- A string or a number as a boolean.  Letter case does not matter, and of the letters of all scripts
only those of ASCII have their lower case in one of the words. -/
def toBoolean : Json → Option Json
  | .str s =>
    let word := String.ofList (s.toList.map Char.toLower)
    if word = "true" ∨ word = "1" then some (.bool true)
    else if word = "false" ∨ word = "0" ∨ word = "" then some (.bool false)
    else none
  | .num n => some (.bool !n.isZero)
  | _ => none

/-- The strings that stand for null. -/
def toNull : Json → Option Json
  | .str s => if s = "" ∨ s = "null" then some .null else none
  | _ => none

/-- A scalar as a value of a type; nothing but a scalar is turned into anything. -/
def toType (t : JsonType) (v : Json) : Except Fault (Option Json) :=
  if !v.isScalar then .ok none
  else
    match t with
    | .string => toText v
    | .number => toNumber false v
    | .integer => toNumber true v
    | .boolean => .ok (toBoolean v)
    | .array => .ok (some (.arr [v]))
    | .null => .ok (toNull v)
    | .object => .ok none

/-- A scalar as a value of the type of a given name. -/
def toTypeNamed (name : String) (v : Json) : Except Fault (Option Json) :=
  match JsonType.ofName? name with
  | some t => toType t v
  | none => .ok none

/-- The first of the named types that a value can be turned into, with the result. -/
def firstSuccess (v : Json) : List String → Except Fault (Option (String × Json))
  | [] => .ok none
  | name :: rest => do
    match ← toTypeNamed name v with
    | some result => return some (name, result)
    | none => firstSuccess v rest

def reason (v : Json) (target : String) : String := "Coerced " ++ v.kindName ++ " to " ++ target

/-- The value made to be of a right type, or `none` where it has a wrong type and keeps it. -/
def ownType? (s : Shape) (v : Json) : Changed (Option Json) := do
  if s.admits v then return some v
  match ← Changed.ofExcept (firstSuccess v s.types) with
  | none => return none
  | some (target, result) =>
    Changed.record (.coerced v result) (reason v target)
    return some result

end Coerce

/-! ## The pass -/

/-- Gives every scalar that the shape reaches a right type, where it can have one. -/
def coerce (s : Shape) (v : Json) : Changed Json := do
  match ← Coerce.ownType? s v with
  | none => return v
  | some (.obj members) =>
    if !s.isObject then return .obj members
    else
      let step (key : String) (item : Json) : Changed (Option Json) :=
        match _h : s.child (.key key) with
        | .error fault => Changed.ofExcept (.error fault)
        | .ok none => return some item
        | .ok (some sub) => return some (← coerce sub item)
      return .obj (← Changed.members step members)
  | some (.arr items) =>
    match _h : s.items with
    | none => return .arr items
    | some sub => return .arr (← Changed.items (fun item => coerce sub item) 0 items)
  | some own => return own
termination_by sizeOf s
decreasing_by
  · exact Shape.child_lt _h
  · exact Shape.items_lt _h

/-! ## Running it -/

example : (Coerce.toTypeNamed "integer" (.str " 2.5 ")).toOption = some (some (.num (.int 3))) := by
  decide +kernel
example : (coerce (Shape.ofSchema (.obj [("type", .str "array"),
      ("items", .obj [("type", .str "integer")])])) (.str "7")).run.toOption =
    some (.arr [.num (.int 7)],
      [⟨[], .coerced (.str "7") (.arr [.str "7"]), "Coerced string to array"⟩,
       ⟨[.index 0], .coerced (.str "7") (.num (.int 7)), "Coerced string to integer"⟩]) := by
  decide +kernel

end JsonMend
