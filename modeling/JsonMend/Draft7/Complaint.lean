import JsonMend.Json.Printer
import JsonMend.Pointer
/-
  What a schema can find wrong with a value.

  A complaint is one keyword's finding about one value.  It keeps what the keyword asks for, so that
  the keyword's name, the wording and everything that a reader of the complaint may want to know
  follow from it.  A violation is a complaint together with the value and with where it stands in the
  instance and in the schema.
-/
namespace JsonMend

/-! ## Families of keywords -/

/-- On which side of a limit a number must lie, and whether the limit itself is allowed. -/
inductive Bound where
  | minimum
  | maximum
  | exclusiveMinimum
  | exclusiveMaximum
  deriving DecidableEq

namespace Bound

def name : Bound → String
  | .minimum => "minimum"
  | .maximum => "maximum"
  | .exclusiveMinimum => "exclusiveMinimum"
  | .exclusiveMaximum => "exclusiveMaximum"

@[simp] theorem name_eq_iff {side : Bound} {name : String} :
    side.name = name ↔ side = .minimum ∧ name = "minimum" ∨ side = .maximum ∧ name = "maximum" ∨
      side = .exclusiveMinimum ∧ name = "exclusiveMinimum" ∨
        side = .exclusiveMaximum ∧ name = "exclusiveMaximum" := by
  cases side <;> simp [Bound.name, eq_comm]

/-- The sign between a number that is allowed and the limit. -/
def sign : Bound → String
  | .minimum => ">="
  | .maximum => "<="
  | .exclusiveMinimum => ">"
  | .exclusiveMaximum => "<"

/-- Whether a number is on the right side of a limit. -/
def admits (side : Bound) (limit n : Number) : Bool :=
  match side with
  | .minimum => limit.atMost n
  | .maximum => n.atMost limit
  | .exclusiveMinimum => limit.less n
  | .exclusiveMaximum => n.less limit

/-- The bound on the same side that does not allow the limit itself. -/
def strict : Bound → Bound
  | .minimum | .exclusiveMinimum => .exclusiveMinimum
  | .maximum | .exclusiveMaximum => .exclusiveMaximum

/-- What is said of a number on the wrong side. -/
def excess : Bound → String
  | .minimum => " is less than the minimum of "
  | .maximum => " is greater than the maximum of "
  | .exclusiveMinimum => " is less than or equal to the minimum of "
  | .exclusiveMaximum => " is greater than or equal to the maximum of "

end Bound

/-- What is counted: the characters of a string, the items of an array, the members of an object. -/
inductive Countable where
  | characters
  | items
  | members
  deriving DecidableEq

/-- How many parts of a kind a value has; a value of another kind has no number of them. -/
def Json.count? (v : Json) (what : Countable) : Option Nat :=
  match what, v with
  | .characters, .str s => some s.length
  | .items, .arr items => some items.length
  | .members, .obj members => some members.length
  | _, _ => none

/-- Which side of a limit a count must not leave. -/
inductive CountLimit where
  | atLeast
  | atMost
  deriving DecidableEq

namespace CountLimit

def name (side : CountLimit) (what : Countable) : String :=
  match side, what with
  | .atLeast, .characters => "minLength"
  | .atLeast, .items => "minItems"
  | .atLeast, .members => "minProperties"
  | .atMost, .characters => "maxLength"
  | .atMost, .items => "maxItems"
  | .atMost, .members => "maxProperties"

@[simp] theorem name_eq_iff {side : CountLimit} {what : Countable} {name : String} :
    side.name what = name ↔
      side = .atLeast ∧ (what = .characters ∧ name = "minLength" ∨ what = .items ∧ name = "minItems" ∨
        what = .members ∧ name = "minProperties") ∨
      side = .atMost ∧ (what = .characters ∧ name = "maxLength" ∨ what = .items ∧ name = "maxItems" ∨
        what = .members ∧ name = "maxProperties") := by
  cases side <;> cases what <;> simp [CountLimit.name, eq_comm]

/-- Whether a count keeps to a limit. -/
def admits (side : CountLimit) (limit : Number) (count : Nat) : Bool :=
  match side with
  | .atLeast => limit.atMost (.int count)
  | .atMost => Number.atMost (.int count) limit

/-- What is said of a value whose count does not keep to a limit. -/
def excess (side : CountLimit) (what : Countable) (limit : Number) : String :=
  match side, what with
  | .atLeast, .members =>
    if limit.sameValue (.int 1) then " should be non-empty" else " does not have enough properties"
  | .atLeast, _ => if limit.sameValue (.int 1) then " should be non-empty" else " is too short"
  | .atMost, .members =>
    if limit.sameValue (.int 0) then " is expected to be empty" else " has too many properties"
  | .atMost, _ => if limit.sameValue (.int 0) then " is expected to be empty" else " is too long"

end CountLimit

/-! ## Complaints -/

inductive Complaint where
  /-- The schema allows nothing. -/
  | nothingAllowed
  | wrongType (names : List String)
  | notInEnum (values : List Json)
  | notConst (value : Json)
  | outOfBounds (side : Bound) (limit : Number)
  | notMultiple (divisor : Number)
  | wrongCount (side : CountLimit) (what : Countable) (limit : Number)
  | repeatedItems
  | patternUnmatched (pattern : String)
  | formatUnmet (name : String)
  /-- A property is missing, one of those that are asked for. -/
  | missingProperty (name : String) (asked : List String)
  /-- A property asks for others, and this one of them is missing; all that properties ask for. -/
  | missingDependency (property name : String) (asked : List (String × List String))
  /-- Properties that are neither declared by name nor match a declared pattern. -/
  | undeclared (extras declared patterns : List String)
  | surplusItems (items : List Json)
  | nothingContained
  | noneOfAny
  | noneOfOne
  /-- There is no branch that could accept the value. -/
  | noBranches
  /-- Several branches accept the value: the branches, and those that do, the first of them last. -/
  | severalOfOne (branches accepting : List Json)
  | forbidden (schema : Json)
  /-- A limit that an older draft does not allow is reached or passed. -/
  | notBeyond (side : Bound) (limit : Number)
  /-- The name that the oldest draft has for a multiple. -/
  | notDivisible (divisor : Number)
  /-- A type or a schema that the oldest draft refuses. -/
  | disallowed (refused : Json)
  deriving DecidableEq

namespace Complaint

/-- The keyword that complains. -/
def keyword : Complaint → String
  | .nothingAllowed => "false schema"
  | .wrongType _ => "type"
  | .notInEnum _ => "enum"
  | .notConst _ => "const"
  | .outOfBounds side _ => side.name
  | .notMultiple _ => "multipleOf"
  | .wrongCount side what _ => side.name what
  | .repeatedItems => "uniqueItems"
  | .patternUnmatched _ => "pattern"
  | .formatUnmet _ => "format"
  | .missingProperty _ _ => "required"
  | .missingDependency _ _ _ => "dependencies"
  | .undeclared _ _ _ => "additionalProperties"
  | .surplusItems _ => "additionalItems"
  | .nothingContained => "contains"
  | .noneOfAny => "anyOf"
  | .noneOfOne => "oneOf"
  | .noBranches => "oneOf"
  | .severalOfOne _ _ => "oneOf"
  | .forbidden _ => "not"
  | .notBeyond side _ => side.name
  | .notDivisible _ => "divisibleBy"
  | .disallowed _ => "disallow"

/-- Whether a complaint is about a property that is missing. -/
def isMissing : Complaint → Bool
  | .missingProperty _ _ | .missingDependency _ _ _ => true
  | _ => false

/-- Several texts with commas between. -/
def enumerate (texts : List String) : String := ", ".intercalate texts

/-- How several things are said to have been unexpected. -/
def unexpected (texts : List String) : String :=
  " (" ++ enumerate texts ++ (if texts.length = 1 then " was" else " were") ++ " unexpected)"

/-- The wording of a complaint about a value.  Its integers are written out, whatever their length: none that was read
from a text has more than `digitLimit` digits. -/
def message (value : Json) : Complaint → String
  | .nothingAllowed => "False schema does not allow " ++ value.literal
  | .wrongType names => value.literal ++ " is not of type " ++ enumerate (names.map quote)
  | .notInEnum values => value.literal ++ " is not one of " ++ (Json.arr values).literal
  | .notConst expected => expected.literal ++ " was expected"
  | .outOfBounds side limit => value.literal ++ side.excess ++ (Json.num limit).literal
  | .notBeyond side limit => value.literal ++ side.strict.excess ++ (Json.num limit).literal
  | .notMultiple divisor | .notDivisible divisor =>
    value.literal ++ " is not a multiple of " ++ (Json.num divisor).literal
  | .wrongCount side what limit => value.literal ++ side.excess what limit
  | .repeatedItems => value.literal ++ " has non-unique elements"
  | .patternUnmatched pattern => value.literal ++ " does not match " ++ quote pattern
  | .formatUnmet name => value.literal ++ " is not a " ++ quote name
  | .missingProperty name _ => quote name ++ " is a required property"
  | .missingDependency property name _ => quote name ++ " is a dependency of " ++ quote property
  | .undeclared extras _ _ =>
    "Additional properties are not allowed" ++ unexpected (extras.map quote)
  | .surplusItems items =>
    "Additional items are not allowed" ++ unexpected (items.map Json.literal)
  | .nothingContained => "None of " ++ value.literal ++ " are valid under the given schema"
  | .noneOfAny => value.literal ++ " is not valid under any of the given schemas"
  | .noneOfOne | .noBranches => value.literal ++ " is not valid under any of the given schemas"
  | .severalOfOne _ accepting =>
    value.literal ++ " is valid under each of " ++ enumerate (accepting.map Json.literal)
  | .forbidden schema => value.literal ++ " should not be valid under " ++ schema.literal
  | .disallowed refused => refused.literal ++ " is disallowed for " ++ value.literal

end Complaint

/-! ## Violations -/

structure Violation where
  complaint : Complaint
  /-- The value that is complained about. -/
  value : Json
  /-- Where that value stands. -/
  place : Position
  /-- Where the keyword stands in the schema; a reference that leads there adds nothing. -/
  schemaPlace : Position
  deriving DecidableEq

namespace Violation

/-- A complaint about the value at hand. -/
def here (complaint : Complaint) (value : Json) : Violation := ⟨complaint, value, [], []⟩

def message (v : Violation) : String := v.complaint.message v.value

def keyword (v : Violation) : String := v.complaint.keyword

/-- The same violation seen from above: the steps that lead down to it in the instance and in the
schema are put in front. -/
def under (steps schemaSteps : Position) (v : Violation) : Violation :=
  { v with place := steps ++ v.place, schemaPlace := schemaSteps ++ v.schemaPlace }

theorem under_under (outer outerSchema inner innerSchema : Position) (v : Violation) :
    (v.under inner innerSchema).under outer outerSchema =
      v.under (outer ++ inner) (outerSchema ++ innerSchema) := by
  simp [under]

end Violation

/-! ## Running it -/

example : Bound.admits .exclusiveMinimum (.int 1) (.int 1) = false ∧
    Bound.admits .minimum (.int 1) (.int 1) = true := by decide +kernel
example : (Violation.here (.wrongType ["string", "null"]) (.bool true)).message =
    "True is not of type 'string', 'null'" := by decide +kernel
example : Complaint.message .null (.surplusItems [.num (.int 1), .str "a"]) =
    "Additional items are not allowed (1, 'a' were unexpected)" := by decide +kernel

end JsonMend
