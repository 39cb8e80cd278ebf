import JsonMend.Draft7.Judge
/-
  Keywords as other drafts have them.

  A schema that names an older draft is judged by the keywords of that draft.  Most of them mean what they mean in
  draft-07, so a rule is a keyword of draft-07 unless its draft has it in another way.

  1. **What is missing** (`Draft.lacks`) — each draft brought keywords that those before it do not have.
  2. **Draft-03 and draft-04** (`Rule.early?`) — no double is an integer; a bound does not allow the limit itself if a
     flag beside it says so; the items are judged by an object or by an array.
  3. **Draft-03** (`Rule.oldest?`) — a property is asked for by its own schema, and a dependency can be a single name;
     `extends`, `disallow` and `divisibleBy` stand for what later drafts call otherwise.

  The two latest drafts are not followed: each of their keywords is a fault.  Identifiers and anchors are those of
  draft-07 everywhere.
-/
namespace JsonMend

namespace Draft

/-- The keywords of draft-07 that a draft does not have. -/
def lacks : Draft → List String
  | .draft3 =>
    ["if", "const", "contains", "propertyNames", "exclusiveMinimum", "exclusiveMaximum", "allOf", "anyOf", "oneOf",
      "not", "required", "multipleOf", "minProperties", "maxProperties"]
  | .draft4 => ["if", "const", "contains", "propertyNames", "exclusiveMinimum", "exclusiveMaximum"]
  | .draft6 => ["if"]
  | .draft7 | .draft201909 | .draft202012 => []

/-- Whether the keywords of a draft are followed. -/
def isFollowed : Draft → Bool
  | .draft201909 | .draft202012 => false
  | .draft3 | .draft4 | .draft6 | .draft7 => true

end Draft

namespace Json

/-- Whether a value counts as a flag that is set. -/
def isSet : Json → Bool
  | .null => false
  | .bool b => b
  | .num n => !n.isZero
  | .str s => !s.isEmpty
  | .arr items => !items.isEmpty
  | .obj members => !members.isEmpty

/-- Whether a value is of a type as draft-03 and draft-04 have it. -/
def isOfEarlyType (v : Json) (type : JsonType) : Bool :=
  match v, type with
  | .num (.real _), .integer => false
  | v, type => v.isOfType type

end Json

/-- A keyword as some draft has it. -/
inductive Rule where
  /-- A keyword that means what it means in draft-07. -/
  | shared (k : Keyword)
  /-- No double is an integer. -/
  | type (names : List String)
  /-- A bound that does not allow the limit. -/
  | bound (side : Bound) (limit : Number)
  /-- What stands for the items is neither an object nor an array; no array is gone through with it. -/
  | items
  /-- A property that is absent is missing if its schema says so. -/
  | properties (schemas : Members)
  /-- A property asks for one other by its name, for several by an array, or for the whole object by a schema. -/
  | dependencies (entries : Members)
  /-- A schema or an array of schemas that have to accept the value, too. -/
  | extension (schema : Json)
  /-- Names of types, and schemas, that must not accept the value. -/
  | disallow (refused : List Json)
  | divisibleBy (divisor : Json)

namespace Rule

/-- The name that a schema gives a rule. -/
def name : Rule → String
  | .shared k => k.name
  | .type _ => "type"
  | .bound side _ => side.name
  | .items => "items"
  | .properties _ => "properties"
  | .dependencies _ => "dependencies"
  | .extension _ => "extends"
  | .disallow _ => "disallow"
  | .divisibleBy _ => "divisibleBy"

/-- The step that leads from a schema to a rule's value. -/
def step : Rule → Position
  | .shared k => k.step
  | r => [.key r.name]

/-! ## Reading -/

/-- The rule that a member of a schema is in draft-07. -/
def common? (schema : Members) (name : String) (value : Json) : Option (Option Rule) :=
  (Keyword.read? schema name value).map (·.map .shared)

/-- A bound, by whether a flag beside it forbids the limit itself. -/
def bound? (schema : Members) (side : Bound) (flag : String) (value : Json) : Option (Option Rule) :=
  value.number?.map fun limit =>
    some (if ((schema.lookup flag).getD .null).isSet then .bound side limit else .shared (.bound side limit))

/-- The rule that a member of a schema is in draft-04. -/
def early? (schema : Members) (name : String) (value : Json) : Option (Option Rule) :=
  match name with
  | "type" =>
    match value with
    | .str name => some (some (.type [name]))
    | v => v.strings?.map fun names => some (.type names)
  | "minimum" => bound? schema .minimum "exclusiveMinimum" value
  | "maximum" => bound? schema .maximum "exclusiveMaximum" value
  | "items" =>
    match value with
    | .obj members => some (some (.shared (.items (.obj members))))
    | .arr schemas => some (some (.shared (.itemsInTurn schemas)))
    | _ => some (some .items)
  | name => common? schema name value

/-- The rule that a member of a schema is in draft-03, where `any` is the type of everything. -/
def oldest? (schema : Members) (name : String) (value : Json) : Option (Option Rule) :=
  match name with
  | "type" =>
    (early? schema name value).map fun
      | some (.type names) => if names.contains "any" then none else some (.type names)
      | rule => rule
  | "properties" => value.members?.map fun schemas => some (.properties schemas)
  | "dependencies" => value.members?.map fun entries => some (.dependencies entries)
  | "extends" => some (some (.extension value))
  | "disallow" =>
    match value with
    | .arr refused => some (some (.disallow refused))
    | .obj members => some (some (.disallow (members.map fun (name, _) => .str name)))
    | .str name => some (some (.disallow [.str name]))
    | _ => none
  | "divisibleBy" => some (some (.divisibleBy value))
  | name => early? schema name value

/-- The rule that a member of a schema is in a draft: outside there is a value only if the member's value can be that of
its keyword, inside only if the member is a keyword that says something. -/
def read? (draft : Draft) (schema : Members) (name : String) (value : Json) : Option (Option Rule) :=
  if draft.lacks.contains name then some none
  else
    match draft with
    | .draft3 => oldest? schema name value
    | .draft4 => early? schema name value
    | .draft6 | .draft7 | .draft201909 | .draft202012 => common? schema name value

/-- The rule that a member of a schema is, if it is one. -/
def ofMember (draft : Draft) (schema : Members) (name : String) (value : Json) : Except Fault (Option Rule) :=
  if draft.isFollowed then
    match read? draft schema name value with
    | some rule => .ok rule
    | none => .error (.malformedKeyword name)
  else .error (.otherDraft draft.uri)

/-! ## Judging -/

/-- The properties that list others, with those that they list. -/
def listed (entries : Members) : List (String × List String) :=
  entries.filterMap fun (property, asked) => asked.strings?.map (property, ·)

/-- What the schema of an absent property says about that.  The place that is blamed is one below the object. -/
def absent (property : String) (schema v : Json) : Outcome :=
  match schema with
  | .obj members =>
    let asked := (members.lookup "required").getD .null
    if asked.isSet then
      match asked.strings? with
      | some names => (Outcome.complain v (.missingProperty property names)).under [.key "required"] []
      | none => .ofFault (.malformedKeyword "required")
    else .clean
  | schema => .ofFault (.notASchema schema)

/-- Whether a value is what draft-03 refuses: of a type with a name, or accepted by a schema. -/
def meets (sub : Judge) (base : String) (v : Json) : Json → Except Fault Bool
  | .str "any" => .ok true
  | .str name =>
    match JsonType.ofName? name with
    | some kind => .ok (v.isOfEarlyType kind)
    | none => .error (.malformedKeyword "disallow")
  | .obj members => (sub.descend base (.obj members) [] [] v).acceptsAfterAll
  | _ => .error (.malformedKeyword "disallow")

/-- What a rule finds wrong with a value. -/
def judge (validator : Validator) (sub : Judge) (base : String) (v : Json) : Rule → Outcome
  | .shared k => k.judge validator sub base v
  | .type names =>
    Keyword.require (names.any fun name => (JsonType.ofName? name).any v.isOfEarlyType) v (.wrongType names)
  | .bound side limit =>
    match v with
    | .num n => Keyword.require (side.strict.admits limit n) v (.notBeyond side limit)
    | _ => .clean
  | .items =>
    match v with
    | .arr _ => .ofFault (.malformedKeyword "items")
    | _ => .clean
  | .properties schemas =>
    match v with
    | .obj members => .concat (schemas.map fun (name, schema) =>
        match members.lookup name with
        | some x => sub.descend base schema [.key name] [.key name] x
        | none => absent name schema v)
    | _ => .clean
  | .dependencies entries =>
    match v with
    | .obj members => .concat (entries.map fun (property, asked) =>
        if hasKey members property then
          match asked with
          | .obj schema => sub.descend base (.obj schema) [] [.key property] v
          | .str name =>
            Keyword.require (hasKey members name) v (.missingDependency property name (listed entries))
          | asked =>
            match asked.strings? with
            | some names => .concat (names.map fun name =>
                Keyword.require (hasKey members name) v (.missingDependency property name (listed entries)))
            | none => .ofFault (.malformedKeyword "dependencies")
        else .clean)
    | _ => .clean
  | .extension schema =>
    match schema with
    | .obj members => sub.descend base (.obj members) [] [] v
    | .arr schemas =>
      .concat (schemas.zipIdx.map fun (schema, i) => sub.descend base schema [] [.index i] v)
    | _ => .ofFault (.malformedKeyword "extends")
  | .disallow refused =>
    .concat (refused.map fun x =>
      .ofExcept (meets sub base v x) fun met => Keyword.require (!met) v (.disallowed x))
  | .divisibleBy divisor =>
    match v with
    | .num n =>
      match divisor with
      | .num divisor =>
        match n.isMultipleOf divisor with
        | .ok isMultiple => Keyword.require isMultiple v (.notDivisible divisor)
        | .error fault => .ofFault (.arithmetic fault)
      | _ => .ofFault (.malformedKeyword "divisibleBy")
    | _ => .clean

end Rule

end JsonMend
