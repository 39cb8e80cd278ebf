import JsonMend.Service.SchemaCache
import JsonMend.Service.Settings
import JsonMend.Recovery.Basic
import JsonMend.Repair.Mend
import JsonMend.Explanation
/-
  The three services: validating, repairing, explaining.

  Every call that takes a schema makes it ready first, by way of the cache, so it also gives the engine
  as it is after the call.  Violations are results; only a schema that is no schema, a text that cannot
  be read, and a fault make a call fail.
-/
namespace JsonMend

structure Engine where
  settings : Settings
  cache : SchemaCache

namespace Engine

/-- An engine that has not been used. -/
def fresh (settings : Settings) : Engine := ⟨settings, .empty settings.schemaCacheSize⟩

/-! ## Schemas -/

/-- The error of a call whose schema is not an object. -/
def schemaNotAnObject (schema : Json) : EngineError :=
  ⟨.invalidInput, "Schema must be a valid JSON Schema object",
    [("received", .str (Fault.kindWord schema))]⟩

/-- The error of a call whose schema was rejected. -/
def rejectedSchema (operation : String) : Validator.Rejection → EngineError
  | .malformed first =>
    ⟨.invalidInput, "Invalid JSON Schema: " ++ first.message, [("schemaError", .bool true)]⟩
  | .fault fault => .ofFault operation fault

/-- Makes the schema of a call ready. -/
def prepare (e : Engine) (operation : String) (schema : Json) :
    Except EngineError Validator × Engine :=
  if schema.isObj then
    let (result, cache) := e.cache.validatorFor e.settings.validateFormats schema
    (result.mapError (rejectedSchema operation), { e with cache := cache })
  else (.error (schemaNotAnObject schema), e)

/-- What a prepared call finds in a value. -/
def reportOn (operation : String) (validator : Validator) (v : Json) :
    Except EngineError (List Finding) :=
  (validator.report v).mapError (EngineError.ofFault operation)

/-! ## Validating -/

/-- Validates a value. -/
def validate (e : Engine) (schema v : Json) : Except EngineError (List Finding) × Engine :=
  let (prepared, e) := e.prepare "Validation" schema
  (prepared.bind (reportOn "Validation" · v), e)

/-- A validation as an object. -/
def validationJson (findings : List Finding) : Json :=
  .obj [("valid", .bool findings.isEmpty), ("errors", .arr (findings.map Finding.toJson))]

/-! ## Repairing -/

/-- The result of a repair.  That the value is still invalid is a warning, not an error. -/
structure Repaired where
  value : Json
  changes : List Change
  findings : List Finding
  /-- What was said about the text, if the value was read from a text that is not strict JSON. -/
  diagnostics : List String

namespace Repaired

def stillInvalid : String :=
  "Repaired JSON still has validation errors - some issues could not be automatically fixed"

def isValid (r : Repaired) : Bool := r.findings.isEmpty

def warnings (r : Repaired) : List String := if r.isValid then [] else [stillInvalid]

def toJson (r : Repaired) : Json :=
  .obj ([("repaired", r.value), ("changes", .arr (r.changes.map (·.toJson ""))),
      ("valid", .bool r.isValid), ("warnings", .arr (r.warnings.map .str))] ++
    if r.diagnostics.isEmpty then []
    else [("parseErrors", .arr (r.diagnostics.map .str))])

end Repaired

/-- The value that a repair starts from: a string is a text to be read. -/
def startingValue : Json → Except EngineError (Json × List String)
  | .str text =>
    let recovery := Recovery.ofText text
    match recovery.value? with
    | some v => .ok (v, recovery.diagnostics)
    | none => .error ⟨.parseError, "Could not parse or repair JSON string",
        [("parseErrors", .arr (recovery.diagnostics.map .str))]⟩
  | v => .ok (v, [])

/-- Repairs a value under a schema that is ready. -/
def repairWith (validator : Validator) (schema input : Json) : Except EngineError Repaired := do
  let (start, diagnostics) ← startingValue input
  let (value, changes) ←
    (mend (Shape.ofSchema schema) start).run.mapError (EngineError.ofFault "Repair")
  let findings ← reportOn "Repair" validator value
  return ⟨value, changes, findings, diagnostics⟩

/-- Repairs a value or a text. -/
def repair (e : Engine) (schema input : Json) : Except EngineError Repaired × Engine :=
  let (prepared, e) := e.prepare "Repair" schema
  (prepared.bind (repairWith · schema input), e)

/-! ## Explaining -/

/-- Explanations as an object. -/
def explanationsJson (explained : List ExplainedError) : Json :=
  .obj [("explanations", .arr (explained.map ExplainedError.toJson))]

/-- Validates a value and explains what was found. -/
def validateAndExplain (e : Engine) (schema v : Json) :
    Except EngineError (List ExplainedError) × Engine :=
  let operation := "Validate and explain"
  let (prepared, e) := e.prepare operation schema
  (prepared.bind fun validator => do
    let findings ← reportOn operation validator v
    ExplainedError.ofErrors (findings.map Finding.toJson), e)

/-! ## Running it -/

example : (startingValue (.str "[1,]")).toOption =
    some (.arr [.num (.int 1)], [Recovery.strictFailed, Recovery.repaired]) := by decide +kernel
example : (((fresh .standard).validate (.arr []) .null).1.toOption).isNone = true := by decide +kernel

end Engine

end JsonMend
