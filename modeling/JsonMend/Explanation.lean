import JsonMend.Report
import JsonMend.Service.EngineError
/-
  Explaining validation errors in prose.

  An error is a JSON object as a report shows it, or as another validator may show it: with
  `instancePath` in the place of `path`, and with parts missing.  What is said of it is settled by a
  template, which the error's keyword chooses and the error's parameters fill in.  A parameter that is
  missing is written as `null`.
-/
namespace JsonMend

/-! ## Words -/

/-- A value in running text: a string is left bare, the words `true`, `false` and `null` are JSON. -/
def Json.prose : Json → String
  | .bool b => (Json.bool b).write .spaced
  | .null => Json.null.write .spaced
  | v => v.plain

structure Explanation where
  explanation : String
  suggestion : String
  deriving DecidableEq

/-! ## Templates -/

/-- What can be said of an error. -/
inductive Template where
  | type
  | required
  | additionalProperties
  | enum
  | const
  | outOfBounds (side : Bound)
  | wrongCount (side : CountLimit) (what : Countable)
  | pattern
  | format
  | uniqueItems
  | propertyNames
  | dependencies
  /-- A consequence of a condition, named by the keyword. -/
  | conditional (clause : String)
  | oneOf
  | anyOf
  | allOf
  | forbidden
  | multipleOf
  deriving DecidableEq

namespace Template

/-- The keywords that have a template. -/
def table : List (String × Template) :=
  [("type", .type), ("required", .required), ("additionalProperties", .additionalProperties),
   ("enum", .enum), ("const", .const),
   ("minimum", .outOfBounds .minimum), ("maximum", .outOfBounds .maximum),
   ("exclusiveMinimum", .outOfBounds .exclusiveMinimum),
   ("exclusiveMaximum", .outOfBounds .exclusiveMaximum),
   ("minLength", .wrongCount .atLeast .characters), ("maxLength", .wrongCount .atMost .characters),
   ("pattern", .pattern), ("format", .format),
   ("minItems", .wrongCount .atLeast .items), ("maxItems", .wrongCount .atMost .items),
   ("uniqueItems", .uniqueItems),
   ("minProperties", .wrongCount .atLeast .members), ("maxProperties", .wrongCount .atMost .members),
   ("propertyNames", .propertyNames), ("dependencies", .dependencies),
   ("dependentRequired", .dependencies),
   ("if", .conditional "if"), ("then", .conditional "then"), ("else", .conditional "else"),
   ("oneOf", .oneOf), ("anyOf", .anyOf), ("allOf", .allOf), ("not", .forbidden),
   ("multipleOf", .multipleOf)]

/-- The template of a keyword. -/
def ofKeyword? (keyword : String) : Option Template := table.lookup keyword

/-- The parameters that a template is filled in with. -/
def parameters : Template → List String
  | .type => ["type"]
  | .required => ["missingProperty"]
  | .additionalProperties => ["additionalProperty"]
  | .enum => ["allowedValues"]
  | .const => ["allowedValue"]
  | .outOfBounds _ => ["limit"]
  | .wrongCount _ _ => ["limit"]
  | .pattern => ["pattern"]
  | .format => ["format"]
  | .uniqueItems => ["i", "j"]
  | .dependencies => ["deps", "missingProperty"]
  | .oneOf => ["passingSchemas"]
  | .multipleOf => ["multipleOf"]
  | .propertyNames | .conditional _ | .anyOf | .allOf | .forbidden => []

/-- What counts the parts of a value, with the value's own name. -/
def nouns : Countable → String × String
  | .characters => ("string", "characters")
  | .items => ("array", "items")
  | .members => ("object", "properties")

private def outOfBoundsText (side : Bound) (loc limit : String) : Explanation :=
  match side with
  | .minimum =>
    ⟨s!"The value at {loc} is less than the minimum allowed value of {limit}.",
      s!"Increase the value at {loc} to be at least {limit}."⟩
  | .maximum =>
    ⟨s!"The value at {loc} exceeds the maximum allowed value of {limit}.",
      s!"Decrease the value at {loc} to be at most {limit}."⟩
  | .exclusiveMinimum =>
    ⟨s!"The value at {loc} must be greater than {limit} (exclusive).",
      s!"Increase the value at {loc} to be strictly greater than {limit}."⟩
  | .exclusiveMaximum =>
    ⟨s!"The value at {loc} must be less than {limit} (exclusive).",
      s!"Decrease the value at {loc} to be strictly less than {limit}."⟩

private def wrongCountText (side : CountLimit) (what : Countable) (loc limit : String) : Explanation :=
  let (owner, parts) := nouns what
  match side, what with
  | .atLeast, .characters =>
    ⟨s!"The {owner} at {loc} is too short. Minimum length is {limit} {parts}.",
      s!"Add more {parts} to the {owner} at {loc} to reach at least {limit} {parts}."⟩
  | .atMost, .characters =>
    ⟨s!"The {owner} at {loc} is too long. Maximum length is {limit} {parts}.",
      s!"Shorten the {owner} at {loc} to at most {limit} {parts}."⟩
  | .atLeast, _ =>
    ⟨s!"The {owner} at {loc} has too few {parts}. Minimum is {limit} {parts}.",
      s!"Add more {parts} to the {owner} at {loc} to have at least {limit} {parts}."⟩
  | .atMost, _ =>
    ⟨s!"The {owner} at {loc} has too many {parts}. Maximum is {limit} {parts}.",
      s!"Remove {parts} from the {owner} at {loc} to have at most {limit} {parts}."⟩

/-- The values of an enumeration, or a stand-in where there are none. -/
def enumText : Json → String
  | .arr (v :: rest) => ", ".intercalate ((v :: rest).map (·.write .spaced))
  | _ => "specified values"

/-- The properties that a dependency asks for, or the one that is missing. -/
def dependenciesText (deps missing : Json) : String :=
  let listed : Json :=
    match deps with
    | .arr items => .str (", ".intercalate (items.map Json.plain))
    | v => v
  if listed.isSubstantial then listed.plain else missing.prose

/-- Fills a template in. -/
def fillIn (t : Template) (params : Members) (loc : String) : Explanation :=
  let param (name : String) : Json := (params.lookup name).getD .null
  match t with
  | .type =>
    let t := (param "type").prose
    ⟨s!"The value at {loc} has the wrong type. Expected \"{t}\" but got a different type.",
      s!"Change the value at {loc} to be of type \"{t}\"."⟩
  | .required =>
    let name := (param "missingProperty").prose
    ⟨s!"The required property \"{name}\" is missing at {loc}.",
      s!"Add the missing property \"{name}\" with an appropriate value."⟩
  | .additionalProperties =>
    let name := (param "additionalProperty").prose
    ⟨s!"The property \"{name}\" at {loc} is not allowed by the schema.",
      s!"Remove the unexpected property \"{name}\" or update the schema to allow it."⟩
  | .enum =>
    let values := enumText (param "allowedValues")
    ⟨s!"The value at {loc} must be one of the allowed enum values: {values}.",
      s!"Change the value at {loc} to one of: {values}."⟩
  | .const =>
    let v := (param "allowedValue").write .spaced
    ⟨s!"The value at {loc} must be exactly {v}.", s!"Set the value at {loc} to {v}."⟩
  | .outOfBounds side => outOfBoundsText side loc (param "limit").prose
  | .wrongCount side what => wrongCountText side what loc (param "limit").prose
  | .pattern =>
    let pattern := (param "pattern").prose
    ⟨s!"The string at {loc} does not match the required pattern: {pattern}.",
      s!"Modify the string at {loc} to match the pattern \"{pattern}\"."⟩
  | .format =>
    let format := (param "format").prose
    ⟨s!"The string at {loc} does not match the required format \"{format}\".",
      s!"Correct the string at {loc} to be a valid \"{format}\" format."⟩
  | .uniqueItems =>
    let i := (param "i").prose
    let j := (param "j").prose
    ⟨s!"The array at {loc} contains duplicate items at positions {i} and {j}.",
      s!"Remove duplicate items from the array at {loc}."⟩
  | .propertyNames =>
    ⟨s!"A property name at {loc} does not match the required pattern.",
      "Rename the invalid property to match the schema's property name requirements."⟩
  | .dependencies =>
    let needed := dependenciesText (param "deps") (param "missingProperty")
    ⟨s!"The property at {loc} requires additional properties: {needed}.",
      "Add the required dependent properties when using this field."⟩
  | .conditional clause =>
    ⟨s!"The value at {loc} does not satisfy the conditional schema ({clause} clause).",
      s!"Modify the value at {loc} to satisfy the conditional requirements."⟩
  | .oneOf =>
    let how := if (param "passingSchemas").isSubstantial then "matches multiple" else "matches none"
    ⟨s!"The value at {loc} must match exactly one of the allowed schemas, but it {how}.",
      s!"Modify the value at {loc} to match exactly one of the allowed alternatives."⟩
  | .anyOf =>
    ⟨s!"The value at {loc} must match at least one of the allowed schemas, but it matches none.",
      s!"Modify the value at {loc} to match at least one of the allowed alternatives."⟩
  | .allOf =>
    ⟨s!"The value at {loc} must match all of the required schemas, but it fails to match some.",
      s!"Modify the value at {loc} to satisfy all the required conditions."⟩
  | .forbidden =>
    ⟨s!"The value at {loc} matches a schema that it should NOT match.",
      s!"Modify the value at {loc} so it does not match the forbidden schema."⟩
  | .multipleOf =>
    let divisor := (param "multipleOf").prose
    ⟨s!"The number at {loc} must be a multiple of {divisor}.",
      s!"Change the value at {loc} to be a multiple of {divisor}."⟩

end Template

/-! ## Explaining -/

namespace Explanation

/-- How a place is referred to. -/
def location (path : Json) : String :=
  match path with
  | .str s => if Pointer.isRoot s then "root" else "\"" ++ s ++ "\""
  | v => "\"" ++ v.plain ++ "\""

/-- What is said of a keyword that has no template. -/
def fallback (keyword loc : String) : Explanation :=
  ⟨s!"Validation failed at {loc} due to \"{keyword}\" constraint.",
    s!"Review and fix the value at {loc} to satisfy the \"{keyword}\" constraint."⟩

/-- Explains a keyword's finding at a place. -/
def ofKeyword (keyword : String) (params : Members) (path : Json) : Explanation :=
  match Template.ofKeyword? keyword with
  | some t => t.fillIn params (location path)
  | none => fallback keyword (location path)

end Explanation

/-- An error with its explanation. -/
structure ExplainedError where
  path : Json
  error : Json
  explanation : Explanation
  deriving DecidableEq

namespace ExplainedError

/-- A value, or a stand-in if it is missing or counts as nothing. -/
def orElse (v : Option Json) (standIn : String) : Json :=
  match v with
  | some v => if v.isSubstantial then v else .str standIn
  | none => .str standIn

/-- Explains the members of an error. -/
def ofMembers (error : Members) : ExplainedError :=
  let pathKey := if hasKey error "instancePath" then "instancePath" else "path"
  let path := orElse (error.lookup pathKey) "/"
  let keyword := (orElse (error.lookup "keyword") "").plain
  let params :=
    match error.lookup "params" with
    | some (.obj params) => params
    | _ => []
  { path := path
    error := orElse (error.lookup "message") "Validation failed"
    explanation := Explanation.ofKeyword keyword params path }

/-- Explains an error, which must be an object. -/
def ofError : Json → Except EngineError ExplainedError
  | .obj error => .ok (ofMembers error)
  | v => .error ⟨.invalidInput, "Each error must be a validation error object",
      [("received", .str (Fault.kindWord v))]⟩

/-- Explains all errors in turn. -/
def ofErrors : List Json → Except EngineError (List ExplainedError)
  | [] => .ok []
  | error :: rest => do
    let own ← ofError error
    let others ← ofErrors rest
    return own :: others

/-- Explains the errors in an array. -/
def ofJson : Json → Except EngineError (List ExplainedError)
  | .arr errors => ofErrors errors
  | v => .error ⟨.invalidInput, "Errors must be an array of validation error objects",
      [("received", .str (Fault.kindWord v))]⟩

def toJson (e : ExplainedError) : Json :=
  .obj [("path", e.path), ("error", e.error), ("explanation", .str e.explanation.explanation),
    ("suggestion", .str e.explanation.suggestion)]

/-! ## Running it -/

example : Explanation.ofKeyword "minItems" [("limit", .num (.int 2))] (.str "/a") =
    ⟨"The array at \"/a\" has too few items. Minimum is 2 items.",
      "Add more items to the array at \"/a\" to have at least 2 items."⟩ := by decide +kernel
example : (ofMembers [("instancePath", .str "")]).path = .str "/" := by decide +kernel

end ExplainedError

end JsonMend
