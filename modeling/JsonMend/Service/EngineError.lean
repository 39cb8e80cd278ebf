import JsonMend.Fault
/-
  How a service call fails: a stable code, a message, and details if there are any.
-/
namespace JsonMend

inductive ErrorCode where
  | invalidInput
  | parseError
  | internalError
  deriving DecidableEq

namespace ErrorCode

def name : ErrorCode → String
  | .invalidInput => "INVALID_INPUT"
  | .parseError => "PARSE_ERROR"
  | .internalError => "INTERNAL_ERROR"

def ofName? (name : String) : Option ErrorCode :=
  [ErrorCode.invalidInput, .parseError, .internalError].find? (·.name = name)

theorem ofName?_name (code : ErrorCode) : ofName? code.name = some code := by
  cases code <;> decide

end ErrorCode

structure EngineError where
  code : ErrorCode
  message : String
  details : Members
  deriving DecidableEq

namespace EngineError

/-- The error as an object; details are shown only if there are any. -/
def toJson (e : EngineError) : Json :=
  .obj ([("code", .str e.code.name), ("message", .str e.message)] ++
    if e.details.isEmpty then [] else [("details", .obj e.details)])

/-- The error of a call that ran into a fault.  The trace of the fault belongs to one run of one
program and is shown as a mark only. -/
def ofFault (operation : String) (fault : Fault) : EngineError :=
  ⟨.internalError, operation ++ " failed: " ++ fault.message, [("trace", .str "<trace>")]⟩

end EngineError

end JsonMend
