import JsonMend.Draft.Rule
import JsonMend.Draft7.Metaschema
/-
  Judging values by schemas.

  1. **One schema** (`Validator.judgeMembers`) — its rules in the order of the schema, each violation placed behind the
     rule's own step.
  2. **All of it** (`Validator.judgeBy`) — the draft goes along, and a schema inside another may name its own
     (`Validator.draftOf`).  References may lead back to where they come from, so the judging is bounded by fuel.  Each
     round either goes down in the value or moves on to another draft, schema and URI, of which there are no more than
     the drafts and the square of the documents' size allow; a judging that needs more rounds (`fuelFor`) never ends.
-/
namespace JsonMend

/-! ## Schemas -/

namespace Validator

/-- The draft by which a schema is judged inside one of a given draft: the one that it names, if that is known. -/
def draftOf (validator : Validator) (outer : Draft) (schema : Json) : Draft :=
  match schema.draft? with
  | some draft => if validator.drafts.contains draft then draft else outer
  | none => outer

/-- What the members of a schema find, one after another. -/
def judgeMembers (validator : Validator) (draft : Draft) (sub : Judge) (base : String) (schema : Members) (v : Json)
    (members : Members) : Outcome :=
  .concat (members.map fun (name, value) =>
    .ofExcept (Rule.ofMember draft schema name value) fun
      | some rule => (rule.judge validator sub base v).under [] rule.step
      | none => .clean)

/-- What a schema of a draft finds wrong with a value, in a bounded number of rounds. -/
def judgeBy (validator : Validator) : Nat → Draft → Judge
  | 0, _, _, _, _ => .ofFault .endlessReference
  | rounds + 1, draft, base, schema, v =>
    match schema with
    | .bool true => .clean
    | .bool false => .complain v .nothingAllowed
    | .obj members =>
      let inside : Judge := fun base schema v => validator.judgeBy rounds (validator.draftOf draft schema) base schema v
      validator.judgeMembers draft inside base members v (Keyword.applicable members)
    | other => .ofFault (.notASchema other)

/-- How schemas judge inside one of a given draft. -/
def inside (validator : Validator) (rounds : Nat) (outer : Draft) : Judge :=
  fun base schema v => validator.judgeBy rounds (validator.draftOf outer schema) base schema v

/-- What a schema finds wrong with a value by draft-07. -/
def judgeWith (validator : Validator) (rounds : Nat) : Judge := validator.judgeBy rounds .draft7

/-- How schemas judge inside one of draft-07. -/
def inner (validator : Validator) (rounds : Nat) : Judge := validator.inside rounds .draft7

/-- Rounds enough for every judging that ends. -/
def fuelFor (validator : Validator) (v : Json) : Nat :=
  let documents := validator.registry.size + 2
  (v.depth + 2) * (Draft.all.length * (documents * documents))

/-- How an inner schema judges a value, seen from the root of the schema, in a bounded number of rounds. -/
def judgeInner (validator : Validator) (rounds : Nat) (schema v : Json) : Outcome :=
  validator.inner rounds validator.registry.rootUri schema v

/-- What the schema finds wrong with a value.  Whatever draft the root names, it is judged by draft-07. -/
def judge (validator : Validator) (v : Json) : Outcome :=
  validator.judgeWith (validator.fuelFor v) validator.registry.rootUri validator.registry.root v

/-! ## Making schemas ready -/

/-- The documents that every schema may refer to.  The metaschemas of the other drafts are left out: a reference to one
is a fault of its own (`Fault.otherDraft`). -/
def knownDocuments : List (String × Json) := [(Metaschema.uri, Metaschema.schema)]

/-- A schema made ready without being checked. -/
def ofSchema (checkFormats : Bool) (schema : Json) : Validator :=
  ⟨Registry.ofRoot knownDocuments schema, checkFormats, Draft.all⟩

/-- The metaschema made ready.  It checks formats, whatever other validators do. -/
def metaschema : Validator := ofSchema true Metaschema.schema

/-- Why a schema cannot be made ready. -/
inductive Rejection where
  /-- The metaschema finds something wrong with it, and this first. -/
  | malformed (first : Violation)
  | fault (fault : Fault)

/-- A schema made ready after it was checked. -/
def compile (checkFormats : Bool) (schema : Json) : Except Rejection Validator :=
  let found := metaschema.judge schema
  match found.violations, found.fault? with
  | first :: _, _ => .error (.malformed first)
  | [], some fault => .error (.fault fault)
  | [], none => .ok (ofSchema checkFormats schema)

/-! ## Running it -/

example : ((ofSchema true (.obj [("type", .str "string")])).judge .null).violations =
    [⟨.wrongType ["string"], .null, [], [.key "type"]⟩] := by decide +kernel
example : ((ofSchema true (.obj [("properties", .obj [("a", .bool false)])])).judge
      (.obj [("a", .null)])).violations =
    [⟨.nothingAllowed, .null, [], [.key "properties"]⟩] := by decide +kernel
example : ((ofSchema true (.obj [("$ref", .str "#/definitions/n"),
      ("definitions", .obj [("n", .obj [("const", .null)])])])).judge (.bool true)).violations =
    [⟨.notConst .null, .bool true, [], [.key "const"]⟩] := by decide +kernel
example : (compile true (.obj [("type", .str "string")])).toOption.isSome = true := by decide +kernel

end Validator

end JsonMend
