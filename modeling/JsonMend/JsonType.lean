import JsonMend.Json.Basic
/-
  The types that a schema can name.

  A whole number is of type `integer` whether it is written as an integer or as a double without a
  fraction; every number is of type `number`; a boolean is neither.
-/
namespace JsonMend

inductive JsonType where
  | null
  | boolean
  | string
  | array
  | object
  | number
  | integer
  deriving DecidableEq

namespace JsonType

def name : JsonType → String
  | .null => "null"
  | .boolean => "boolean"
  | .string => "string"
  | .array => "array"
  | .object => "object"
  | .number => "number"
  | .integer => "integer"

def ofName? (name : String) : Option JsonType :=
  [JsonType.null, .boolean, .string, .array, .object, .number, .integer].find? (·.name = name)

theorem ofName?_name (t : JsonType) : ofName? t.name = some t := by cases t <;> decide

end JsonType

namespace Json

/-- Whether a value is of a type. -/
def isOfType : Json → JsonType → Bool
  | .null, .null => true
  | .bool _, .boolean => true
  | .str _, .string => true
  | .arr _, .array => true
  | .obj _, .object => true
  | .num _, .number => true
  | .num n, .integer => n.isWhole
  | _, _ => false

/-- Whether a value is of the type of a given name; an unknown name is the type of nothing. -/
def isOfTypeNamed (v : Json) (name : String) : Bool :=
  match JsonType.ofName? name with
  | some t => v.isOfType t
  | none => false

end Json

/-! ## Running it -/

example : (Json.num (.real (.ofRat 2))).isOfTypeNamed "integer" = true ∧
    (Json.bool true).isOfTypeNamed "number" = false ∧ Json.null.isOfTypeNamed "any" = false := by
  decide +kernel

end JsonMend
