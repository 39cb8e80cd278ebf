import JsonMend.Service.Engine
/-
  Sessions: calls that build on one another.

  A session keeps the value that was repaired last and the errors that were found last, so that a
  later call can take them up.  A call that fails changes neither.
-/
namespace JsonMend

structure Session where
  engine : Engine
  lastValue : Json
  lastFindings : List Finding

namespace Session

/-- A session before its first call. -/
def start (settings : Settings) : Session := ⟨.fresh settings, .null, []⟩

/-- A call of a session. -/
inductive Request where
  | validate (schema v : Json)
  | repair (schema input : Json)
  /-- Validates the value repaired last. -/
  | validateLast (schema : Json)
  /-- Repairs the value repaired last. -/
  | repairLast (schema : Json)
  /-- Explains the errors found last. -/
  | explainLast

/-- What a call gives. -/
inductive Answer where
  | validated (findings : List Finding)
  | repaired (result : Engine.Repaired)
  | explained (errors : List ExplainedError)
  | failed (error : EngineError)

def validate (s : Session) (schema v : Json) : Answer × Session :=
  match s.engine.validate schema v with
  | (.ok findings, engine) => (.validated findings, { s with engine, lastFindings := findings })
  | (.error error, engine) => (.failed error, { s with engine })

def repair (s : Session) (schema input : Json) : Answer × Session :=
  match s.engine.repair schema input with
  | (.ok result, engine) => (.repaired result, { s with engine, lastValue := result.value })
  | (.error error, engine) => (.failed error, { s with engine })

/-- Answers one call. -/
def answer (s : Session) : Request → Answer × Session
  | .validate schema v => s.validate schema v
  | .repair schema input => s.repair schema input
  | .validateLast schema => s.validate schema s.lastValue
  | .repairLast schema => s.repair schema s.lastValue
  | .explainLast =>
    match ExplainedError.ofErrors (s.lastFindings.map Finding.toJson) with
    | .ok errors => (.explained errors, s)
    | .error error => (.failed error, s)

/-- Answers several calls in turn; each answer comes with the session as it is after the call. -/
def answers (s : Session) : List Request → List (Answer × Session)
  | [] => []
  | request :: rest =>
    let (answer, s) := s.answer request
    (answer, s) :: s.answers rest

end Session

end JsonMend
