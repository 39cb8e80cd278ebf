import JsonMend.Service.Engine
import JsonMend.Redaction
/-
  The services as tools that are called by name.

  A tool has parameters, each of a kind that arguments are checked against; arguments that no parameter
  names are passed over.  Every call is answered by an envelope that says whether it succeeded, and
  when.  Warnings stand beside the data, not in them.
-/
namespace JsonMend

/-! ## Parameters -/

/-- What an argument must be. -/
inductive ParameterKind where
  | anything
  | object
  | objects
  deriving DecidableEq

structure Parameter where
  name : String
  title : String
  kind : ParameterKind
  description : String

/-- What is wrong with an argument. -/
inductive ArgumentFlaw where
  | missing
  | notAnObject
  | notAnArray
  deriving DecidableEq

namespace ArgumentFlaw

def kind : ArgumentFlaw → String
  | .missing => "missing"
  | .notAnObject => "dict_type"
  | .notAnArray => "list_type"

def message : ArgumentFlaw → String
  | .missing => "Field required"
  | .notAnObject => "Input should be a valid dictionary"
  | .notAnArray => "Input should be a valid list"

end ArgumentFlaw

/-- A flaw with the place of the argument or of a part of it, and the value in question. -/
structure ArgumentProblem where
  place : Position
  flaw : ArgumentFlaw
  input : Json
  deriving DecidableEq

namespace ArgumentProblem

def stepJson : Segment → Json
  | .key name => .str name
  | .index i => .num (.int i)

def toJson (p : ArgumentProblem) : Json :=
  .obj [("type", .str p.flaw.kind), ("loc", .arr (p.place.map stepJson)),
    ("msg", .str p.flaw.message), ("input", p.input)]

end ArgumentProblem

namespace Parameter

/-- What is wrong with a value at a place where an object is expected. -/
def objectProblems (place : Position) (v : Json) : List ArgumentProblem :=
  if v.isObj then [] else [⟨place, .notAnObject, v⟩]

/-- What is wrong with a value as the argument of a parameter. -/
def valueProblems (p : Parameter) (v : Json) : List ArgumentProblem :=
  match p.kind, v with
  | .anything, _ => []
  | .object, v => objectProblems [.key p.name] v
  | .objects, .arr items =>
    items.zipIdx.flatMap fun (item, i) => objectProblems [.key p.name, .index i] item
  | .objects, v => [⟨[.key p.name], .notAnArray, v⟩]

/-- What is wrong with the arguments as far as a parameter is concerned. -/
def problems (arguments : Members) (p : Parameter) : List ArgumentProblem :=
  match arguments.lookup p.name with
  | some v => p.valueProblems v
  | none => [⟨[.key p.name], .missing, .obj arguments⟩]

/-- The members of a parameter's schema that depend on its kind. -/
def kindMembers : ParameterKind → Members
  | .anything => []
  | .object => [("additionalProperties", .bool true), ("type", .str "object")]
  | .objects =>
    [("items", .obj [("additionalProperties", .bool true), ("type", .str "object")]),
      ("type", .str "array")]

/-- The schema of a parameter. -/
def schema (p : Parameter) : Json :=
  .obj (kindMembers p.kind ++ [("description", .str p.description), ("title", .str p.title)])

end Parameter

/-! ## Tools -/

inductive Tool where
  | validateJson
  | explainValidation
  | repairJson
  deriving DecidableEq

namespace Tool

/-- All tools, in the order in which they are listed. -/
def all : List Tool := [.validateJson, .explainValidation, .repairJson]

def name : Tool → String
  | .validateJson => "validate_json"
  | .explainValidation => "explain_validation"
  | .repairJson => "repair_json"

def ofName? (name : String) : Option Tool := all.find? (·.name = name)

theorem ofName?_name (t : Tool) : ofName? t.name = some t := by cases t <;> decide

def description : Tool → String
  | .validateJson =>
    "Validate a JSON instance against a JSON Schema. Returns validation result with detailed " ++
      "errors including paths, keywords, and messages."
  | .explainValidation =>
    "Take validation errors from validate_json and provide human-readable explanations with fix " ++
      "suggestions for each error."
  | .repairJson =>
    "Attempt to repair invalid JSON to match a schema. Handles malformed JSON strings, applies " ++
      "schema defaults, removes unknown fields if additionalProperties is false, and coerces types " ++
      "when safe. Conservative: never invents unknown fields unless schema requires defaults."

/-- The title of the schema of a tool's arguments. -/
def inputTitle : Tool → String
  | .validateJson => "JsonValidateIn"
  | .explainValidation => "ExplainValidationIn"
  | .repairJson => "RepairJsonIn"

def parameters : Tool → List Parameter
  | .validateJson =>
    [⟨"schema", "Schema", .object, "The JSON Schema to validate against (draft-07 supported)"⟩,
      ⟨"instance", "Instance", .anything, "The JSON value to validate (can be any JSON type)"⟩]
  | .explainValidation =>
    [⟨"errors", "Errors", .objects, "Array of validation error objects from validate_json"⟩]
  | .repairJson =>
    [⟨"schema", "Schema", .object, "The JSON Schema the repaired JSON should conform to"⟩,
      ⟨"instance_or_text", "Instance Or Text", .anything,
        "The JSON value or malformed JSON string to repair"⟩]

/-- The schema of a tool's arguments. -/
def inputSchema (t : Tool) : Json :=
  .obj [("properties", .obj (t.parameters.map fun p => (p.name, p.schema))),
    ("required", .arr (t.parameters.map fun p => .str p.name)),
    ("title", .str t.inputTitle), ("type", .str "object")]

def toJson (t : Tool) : Json :=
  .obj [("name", .str t.name), ("description", .str t.description), ("inputSchema", t.inputSchema)]

/-- The list of all tools as an object. -/
def listJson : Json := .obj [("tools", .arr (all.map toJson))]

/-! ## Envelopes -/

/-- The envelope of a call that succeeded. -/
def success (time : String) (data : Members) (warnings : List String) : Json :=
  .obj [("ok", .bool true), ("data", .obj data),
    ("meta", .obj [("source", .str "json-validate"), ("retrieved_at", .str time),
      ("warnings", .arr (warnings.map .str))])]

/-- The envelope of a call that failed. -/
def failure (time : String) (error : EngineError) : Json :=
  .obj [("ok", .bool false), ("error", error.toJson), ("meta", .obj [("retrieved_at", .str time)])]

/-- The members of a result. -/
def dataOf : Json → Members
  | .obj members => members
  | _ => []

/-- The envelope of a result, shown as an object, with the warnings that go with it. -/
def envelope {α : Type} (time : String) (encode : α → Json) (warnings : α → List String) :
    Except EngineError α → Json
  | .ok result =>
    success time ((dataOf (encode result)).filter (·.1 != "warnings")) (warnings result)
  | .error error => failure time error

/-! ## Calls -/

/-- Calls a tool with arguments that were checked. -/
def run (t : Tool) (e : Engine) (time : String) (arguments : Members) : Json × Engine :=
  let argument (name : String) : Json := (arguments.lookup name).getD .null
  match t with
  | .validateJson =>
    let (result, e) := e.validate (argument "schema") (argument "instance")
    (envelope time Engine.validationJson (fun _ => []) result, e)
  | .explainValidation =>
    (envelope time Engine.explanationsJson (fun _ => []) (ExplainedError.ofJson (argument "errors")), e)
  | .repairJson =>
    let (result, e) := e.repair (argument "schema") (argument "instance_or_text")
    (envelope time Engine.Repaired.toJson Engine.Repaired.warnings result, e)

/-- The line that is logged for a call: the arguments that the tool has parameters for. -/
def logLine (t : Tool) (settings : Settings) (arguments : Members) : String :=
  Redaction.callLine settings.logPreviewChars t.name
    (t.parameters.filterMap fun p => (arguments.lookup p.name).map (p.name, ·))

/-- The error of a call whose arguments have problems. -/
def badArguments (t : Tool) (problems : List ArgumentProblem) : EngineError :=
  ⟨.invalidInput, "Invalid arguments for " ++ t.name,
    [("errors", .arr (problems.map ArgumentProblem.toJson))]⟩

/-- Checks the arguments of a call and carries it out. -/
def call (t : Tool) (e : Engine) (time : String) (arguments : Members) : Json × Engine :=
  match t.parameters.flatMap (Parameter.problems arguments) with
  | [] => t.run e time arguments
  | problems => (failure time (t.badArguments problems), e)

/-- The error of a call whose name is that of no tool. -/
def unknown (name : String) : EngineError :=
  ⟨.invalidInput, "Unknown tool: " ++ name, [("availableTools", .arr (all.map (.str ·.name)))]⟩

/-- Calls a tool by its name. -/
def dispatch (e : Engine) (time name : String) (arguments : Members) : Json × Engine :=
  match ofName? name with
  | some t => t.call e time arguments
  | none => (failure time (unknown name), e)

/-! ## Running it -/

example : (Parameter.problems [("errors", .arr [.null])] ⟨"errors", "Errors", .objects, ""⟩) =
    [⟨[.key "errors", .index 0], .notAnObject, .null⟩] := by decide +kernel
example : (unknown "x").message = "Unknown tool: x" := by decide +kernel

end Tool

end JsonMend
