import JsonMend.Draft7.Validator
/-
  Reports on a value.

  A report lists findings in the order in which the violations are found.  A finding shows one
  violation with pointers to the value and to the keyword, and with parameters from which it can be
  explained.  A violation about undeclared properties becomes one finding for each of them; which they
  are is decided by trying the patterns one by one.

  A violation about a missing property does not tell the report which one is missing.  At the first of
  them under a pair of pointers, all names that the keyword misses are queued under that pair
  (`Pending`), and each violation with the same pointers takes the next.
-/
namespace JsonMend

structure Finding where
  path : String
  keyword : String
  message : String
  params : Members
  schemaPath : String
  deriving DecidableEq

namespace Finding

def toJson (f : Finding) : Json :=
  .obj [("path", .str f.path), ("keyword", .str f.keyword), ("message", .str f.message),
    ("params", .obj f.params), ("schemaPath", .str f.schemaPath)]

end Finding

namespace Report

/-! ## Parameters -/

/-- The places of the schemas that accept a value, from a given place on. -/
def accepting (accepts : Json → Except Fault Bool) : Nat → List Json → Except Fault (List Nat)
  | _, [] => .ok []
  | i, schema :: rest => do
    let accepted ← accepts schema
    let others ← accepting accepts (i + 1) rest
    return if accepted then i :: others else others

/-- The parameters of a complaint about a value, given which schemas accept the value and, for a complaint
about something missing, which parameters are next in turn.

Where several branches accept, their places are found anew from the root of the schema. -/
def params (accepts : Json → Except Fault Bool) (value : Json) (next : Members) :
    Complaint → Except Fault Members
  | .wrongType names => .ok [("type", .str (",".intercalate names))]
  | .notInEnum values => .ok [("allowedValues", .arr values)]
  | .notConst expected => .ok [("allowedValue", expected)]
  | .outOfBounds side limit | .notBeyond side limit =>
    .ok [("comparison", .str side.sign), ("limit", .num limit)]
  | .notMultiple divisor => .ok [("multipleOf", .num divisor)]
  | .wrongCount _ _ limit => .ok [("limit", .num limit)]
  | .repeatedItems =>
    match value with
    | .arr items =>
      match Unique.duplicate? items with
      | some (i, j) => .ok [("i", .num (.int i)), ("j", .num (.int j))]
      | none => .ok []
    | _ => .ok []
  | .patternUnmatched regex => .ok [("pattern", .str regex)]
  | .formatUnmet name => .ok [("format", .str name)]
  | .missingProperty _ _ | .missingDependency _ _ _ => .ok next
  | .noneOfOne => .ok [("passingSchemas", .null)]
  | .noBranches => .ok [("passingSchemas", .arr [])]
  | .severalOfOne branches _ => do
    let places ← accepting accepts 0 branches
    return [("passingSchemas", .arr (places.map fun (i : Nat) => .num (.int i)))]
  | .nothingContained => .ok [("minContains", .num (.int 1))]
  | .nothingAllowed | .undeclared _ _ _ | .surplusItems _ | .noneOfAny | .forbidden _ => .ok []
  | .notDivisible _ | .disallowed _ => .ok []

/-! ## Missing names -/

/-- The parameters that name a missing property. -/
def requiredParams (name : String) : Members := [("missingProperty", .str name)]

/-- The parameters that name a property missing for another one, which lists several. -/
def dependencyParams (property name : String) (listed : List String) : Members :=
  [("property", .str property), ("missingProperty", .str name),
    ("depsCount", .num (.int listed.length)), ("deps", .str (", ".intercalate listed))]

/-- The parameters for all names that a keyword misses in a value, in the order of the keyword. -/
def missingNames (value : Json) (complaint : Complaint) : List Members :=
  let present := match value with
    | .obj members => members
    | _ => []
  match complaint with
  | .missingProperty _ asked => (asked.filter (!hasKey present ·)).map requiredParams
  | .missingDependency _ _ asked => asked.flatMap fun (property, listed) =>
      if hasKey present property then
        (listed.filter (!hasKey present ·)).map (dependencyParams property · listed)
      else []
  | _ => []

/-- What is still to be shown, by the pointers to a value and to a keyword; the newest entry counts. -/
abbrev Pending := List ((String × String) × List Members)

/-- The pointers of a violation. -/
def spot (v : Violation) : String × String :=
  (Pointer.ofPosition v.place, Pointer.schemaFragment v.schemaPlace)

/-- What is queued under the pointers of a violation: all that its keyword misses, where nothing was queued
before. -/
def queued (pending : Pending) (v : Violation) : List Members :=
  (pending.lookup (spot v)).getD (missingNames v.value v.complaint)

/-- What is pending behind a violation, which takes the first of its queue. -/
def advance (pending : Pending) (v : Violation) : Pending :=
  if v.complaint.isMissing then (spot v, (queued pending v).tail) :: pending else pending

/-! ## Undeclared properties -/

/-- Whether a key matches one of several patterns; the first that it matches settles it. -/
def matchesAny (key : String) : List String → Except Fault Bool
  | [] => .ok false
  | regex :: rest => do
    if ← Keyword.matchesPattern regex key then return true
    else matchesAny key rest

/-- The keys of a value that are neither declared nor match a declared pattern. -/
def undeclaredKeys (declared patterns : List String) (value : Json) : Except Fault (List String) :=
  match value with
  | .obj members =>
    Keyword.select (fun key =>
      if declared.contains key then .ok false else (matchesAny key patterns).map (!·))
      (members.map Prod.fst)
  | _ => .ok []

/-- What is said of one undeclared property. -/
def undeclaredMessage (key : String) : String :=
  "Additional property " ++ quote key ++ " is not allowed"

/-! ## Findings -/

/-- The findings that show a violation, given the parameters that are next in turn.  Branches are judged anew in a
bounded number of rounds. -/
def findings (validator : Validator) (rounds : Nat) (next : Members) (v : Violation) :
    Except Fault (List Finding) := do
  let finding (message : String) (params : Members) : Finding :=
    { path := Pointer.ofPosition v.place
      keyword := v.keyword
      message := message
      params := params
      schemaPath := Pointer.schemaFragment v.schemaPlace }
  match v.complaint with
  | .undeclared _ declared patterns =>
    let keys ← undeclaredKeys declared patterns v.value
    return keys.map fun key => finding (undeclaredMessage key) [("additionalProperty", .str key)]
  | complaint =>
    let accepts (schema : Json) := (validator.judgeInner rounds schema v.value).accepts
    return [finding v.message (← params accepts v.value next complaint)]

/-- The findings that show several violations, one after another. -/
def allFindings (validator : Validator) (rounds : Nat) : Pending → List Violation → Except Fault (List Finding)
  | _, [] => .ok []
  | pending, v :: rest => do
    let own ← findings validator rounds ((queued pending v).headD []) v
    let others ← allFindings validator rounds (advance pending v) rest
    return own ++ others

end Report

/-- The findings on a value, in the rounds that judging it has.  A fault in the judging comes behind the violations found
before it, so a fault in showing one of those is met first. -/
def Validator.report (validator : Validator) (v : Json) : Except Fault (List Finding) := do
  let outcome := validator.judge v
  let findings ← Report.allFindings validator (validator.fuelFor v) [] outcome.violations
  match outcome.fault? with
  | some fault => throw fault
  | none => return findings

/-! ## Running it -/

example : ((Validator.ofSchema true
      (.obj [("oneOf", .arr [.bool true, .bool false, .bool true])])).report .null).toOption.map (·.map Finding.params) =
    some [[("passingSchemas", .arr [.num (.int 0), .num (.int 2)])]] := by decide +kernel
example : ((Validator.ofSchema true (.obj [("additionalProperties", .bool false)])).report
      (.obj [("a", .null), ("b", .null)])).toOption.map (·.map Finding.message) =
    some ["Additional property 'a' is not allowed", "Additional property 'b' is not allowed"] := by
  decide +kernel

end JsonMend
