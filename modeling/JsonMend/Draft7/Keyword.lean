import JsonMend.Draft7.Complaint
import JsonMend.Fault
/-
  The keywords of draft-07, as they are read from a schema.

  A keyword keeps all that its judgement needs, so what it takes from its neighbours in the schema is
  part of it: `additionalProperties` knows the declared properties and patterns, `additionalItems` how
  many items are covered, `if` its two consequences.  Members that are no keywords, such as `title`,
  are passed over.  A schema with a reference consists of the reference alone.
-/
namespace JsonMend

/-! ## Parts of a keyword's value -/

namespace Json

def str? : Json → Option String
  | .str s => some s
  | _ => none

def number? : Json → Option Number
  | .num n => some n
  | _ => none

def bool? : Json → Option Bool
  | .bool b => some b
  | _ => none

def items? : Json → Option (List Json)
  | .arr items => some items
  | _ => none

def members? : Json → Option Members
  | .obj members => some members
  | _ => none

/-- The strings of an array that holds nothing else. -/
def strings? (v : Json) : Option (List String) := v.items?.bind (·.mapM str?)

/-- A schema: an object or a boolean. -/
def schema? : Json → Option Json
  | .obj members => some (.obj members)
  | .bool b => some (.bool b)
  | _ => none

variable {v s : Json} {items : List Json} {members : Members}

theorem eq_arr_of_items? (h : v.items? = some items) : v = .arr items := by
  cases v <;> cases h
  rfl

theorem eq_obj_of_members? (h : v.members? = some members) : v = .obj members := by
  cases v <;> cases h
  rfl

theorem eq_of_schema? (h : v.schema? = some s) : v = s := by
  cases v <;> cases h <;> rfl

end Json

/-- What the presence of a property asks for. -/
inductive Dependency where
  | properties (names : List String)
  | schema (schema : Json)

/-- What a member of `dependencies` asks for: an array lists properties, the rest is a schema. -/
def Dependency.ofJson? : Json → Option Dependency
  | .arr items => (items.mapM Json.str?).map .properties
  | v => some (.schema v)

/-- The properties that list others, with those that they list. -/
def Dependency.listed (entries : List (String × Dependency)) : List (String × List String) :=
  entries.filterMap fun (property, dependency) =>
    match dependency with
    | .properties names => some (property, names)
    | .schema _ => none

/-! ## Keywords -/

inductive Keyword where
  | reference (target : String)
  | type (names : List String)
  | enum (values : List Json)
  | const (value : Json)
  | bound (side : Bound) (limit : Number)
  | multipleOf (divisor : Number)
  | count (side : CountLimit) (what : Countable) (limit : Number)
  | uniqueItems (wanted : Bool)
  | pattern (regex : String)
  | format (name : String)
  | required (names : List String)
  | properties (schemas : Members)
  | patternProperties (schemas : Members)
  | propertyNames (schema : Json)
  | additionalProperties (declared patterns : List String) (schema : Json)
  /-- One schema for all items. -/
  | items (schema : Json)
  /-- One schema for each of the first items. -/
  | itemsInTurn (schemas : List Json)
  /-- A schema for the items behind the covered ones, of which there is no number where a boolean
  stands for all items. -/
  | additionalItems (covered : Option Nat) (schema : Json)
  | contains (schema : Json)
  | dependencies (entries : List (String × Dependency))
  | allOf (schemas : List Json)
  | anyOf (schemas : List Json)
  | oneOf (schemas : List Json)
  | forbid (schema : Json)
  | conditional (test : Json) (whenMet whenUnmet : Option Json)

namespace Keyword

/-- The name that a schema gives a keyword. -/
def name : Keyword → String
  | .reference _ => "$ref"
  | .type _ => "type"
  | .enum _ => "enum"
  | .const _ => "const"
  | .bound side _ => side.name
  | .multipleOf _ => "multipleOf"
  | .count side what _ => side.name what
  | .uniqueItems _ => "uniqueItems"
  | .pattern _ => "pattern"
  | .format _ => "format"
  | .required _ => "required"
  | .properties _ => "properties"
  | .patternProperties _ => "patternProperties"
  | .propertyNames _ => "propertyNames"
  | .additionalProperties _ _ _ => "additionalProperties"
  | .items _ => "items"
  | .itemsInTurn _ => "items"
  | .additionalItems _ _ => "additionalItems"
  | .contains _ => "contains"
  | .dependencies _ => "dependencies"
  | .allOf _ => "allOf"
  | .anyOf _ => "anyOf"
  | .oneOf _ => "oneOf"
  | .forbid _ => "not"
  | .conditional _ _ _ => "if"

/-- The step that leads from a schema to a keyword's value.  A reference leads elsewhere, and the
consequences of a test stand beside it, so neither is a step of its own. -/
def step : Keyword → Position
  | .reference _ => []
  | .conditional _ _ _ => []
  | k => [.key k.name]

/-- What stands under a key that holds an object of schemas, or nothing where the key is absent. -/
def keysUnder (schema : Members) (key : String) : Option (List String) :=
  match schema.lookup key with
  | none => some []
  | some v => v.members?.map (·.map Prod.fst)

/-- The keyword `additionalItems`: without a schema for each of the first items it says nothing. -/
def additionalItems? (schema : Members) (value : Json) : Option (Option Keyword) :=
  match schema.lookup "items" with
  | none => some none
  | some (.obj _) => some none
  | some (.arr schemas) =>
    value.schema?.map fun s => some (.additionalItems (some schemas.length) s)
  | some (.bool _) => value.schema?.map fun s => some (.additionalItems none s)
  | some _ => none

/-- The keyword that a member of a schema is: outside there is a value only if the member's value can be
that of its keyword, inside only if the member is a keyword that says something. -/
def read? (schema : Members) (name : String) (value : Json) : Option (Option Keyword) :=
  let limit (k : Number → Keyword) : Option (Option Keyword) := value.number?.map fun n => some (k n)
  let branches (k : List Json → Keyword) : Option (Option Keyword) :=
    value.items?.map fun schemas => some (k schemas)
  match name with
  | "$ref" => value.str?.map fun target => some (.reference target)
  | "type" =>
    match value with
    | .str name => some (some (.type [name]))
    | v => v.strings?.map fun names => some (.type names)
  | "enum" => branches .enum
  | "const" => some (some (.const value))
  | "minimum" => limit (.bound .minimum)
  | "maximum" => limit (.bound .maximum)
  | "exclusiveMinimum" => limit (.bound .exclusiveMinimum)
  | "exclusiveMaximum" => limit (.bound .exclusiveMaximum)
  | "multipleOf" => limit .multipleOf
  | "minLength" => limit (.count .atLeast .characters)
  | "maxLength" => limit (.count .atMost .characters)
  | "minItems" => limit (.count .atLeast .items)
  | "maxItems" => limit (.count .atMost .items)
  | "minProperties" => limit (.count .atLeast .members)
  | "maxProperties" => limit (.count .atMost .members)
  | "uniqueItems" => value.bool?.map fun wanted => some (.uniqueItems wanted)
  | "pattern" => value.str?.map fun regex => some (.pattern regex)
  | "format" => value.str?.map fun name => some (.format name)
  | "required" => value.strings?.map fun names => some (.required names)
  | "properties" => value.members?.map fun schemas => some (.properties schemas)
  | "patternProperties" => value.members?.map fun schemas => some (.patternProperties schemas)
  | "propertyNames" => some (some (.propertyNames value))
  | "additionalProperties" => do
    let declared ← keysUnder schema "properties"
    let patterns ← keysUnder schema "patternProperties"
    let s ← value.schema?
    return some (.additionalProperties declared patterns s)
  | "items" =>
    match value with
    | .arr schemas => some (some (.itemsInTurn schemas))
    | v => some (some (.items v))
  | "additionalItems" => additionalItems? schema value
  | "contains" => some (some (.contains value))
  | "dependencies" => do
    let members ← value.members?
    let entries ← members.mapM fun (property, v) => (Dependency.ofJson? v).map (property, ·)
    return some (.dependencies entries)
  | "allOf" => branches .allOf
  | "anyOf" => branches .anyOf
  | "oneOf" => branches .oneOf
  | "not" => some (some (.forbid value))
  | "if" => some (some (.conditional value (schema.lookup "then") (schema.lookup "else")))
  | _ => some none

/-- The keyword that a member of a schema is, if it is one. -/
def ofMember (schema : Members) (name : String) (value : Json) : Except Fault (Option Keyword) :=
  match read? schema name value with
  | some k => .ok k
  | none => .error (.malformedKeyword name)

/-- The members of a schema that count: all of them, or the reference alone. -/
def applicable (schema : Members) : Members :=
  match schema.lookup "$ref" with
  | none => schema
  | some .null => schema
  | some target => [("$ref", target)]

/-! ## Running it -/

example : applicable [("type", .str "null"), ("$ref", .str "#")] = [("$ref", .str "#")] := by
  decide +kernel
example : (Keyword.count .atLeast .members (.int 1)).name = "minProperties" := by decide +kernel

end Keyword

end JsonMend
