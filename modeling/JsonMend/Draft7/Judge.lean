import JsonMend.Draft7.Keyword
import JsonMend.Draft7.Outcome
import JsonMend.Draft7.Unique
import JsonMend.Draft7.Format
import JsonMend.JsonType
import JsonMend.Reference.Registry
/-
  Judging values by keywords.

  What a keyword finds wrong with a value is told by how the schemas inside it judge (`Judge`).  A keyword asks them in
  one of two ways: it passes on what they find, one step further down (`Judge.descend`), or it only asks whether they
  accept something.
-/
namespace JsonMend

/-- A schema made ready for judging. -/
structure Validator where
  registry : Registry
  checkFormats : Bool
  /-- The drafts that are known: a schema inside another may name one of them to be judged by. -/
  drafts : List Draft

/-- How schemas judge: by the URI that holds inside the schema, the schema and the value. -/
abbrev Judge := String → Json → Json → Outcome

/-- What an inner schema finds, by the steps that lead down to it in the value and in the schema.  A
schema that allows nothing complains about the place from which it was entered. -/
def Judge.descend (sub : Judge) (base : String) (schema : Json) (steps schemaSteps : Position)
    (v : Json) : Outcome :=
  match schema with
  | .bool false => .complain v .nothingAllowed
  | schema => (sub (baseInside base schema) schema v).under steps schemaSteps

/-! ## One keyword -/

namespace Keyword

/-- A complaint, unless a condition is met. -/
def require (met : Bool) (v : Json) (complaint : Complaint) : Outcome :=
  if met then .clean else .complain v complaint

/-- Whether a pattern is found in a text. -/
def matchesPattern (regex text : String) : Except Fault Bool :=
  match Regex.found regex text with
  | .ok found => .ok found
  | .error error => .error (.badPattern error)

/-- The elements that a test selects, in order; the first test that fails ends the selection. -/
def select {α : Type} (test : α → Except Fault Bool) : List α → Except Fault (List α)
  | [] => .ok []
  | x :: rest => do
    let selected ← test x
    let others ← select test rest
    return if selected then x :: others else others

/-- The keys of an object that are neither declared nor match the declared patterns, all patterns being
joined to one.  An empty pattern that stands alone matches nothing. -/
def extraKeys (declared patterns : List String) (members : Members) : Except Fault (List String) :=
  let joined := "|".intercalate patterns
  let isExtra (key : String) : Except Fault Bool :=
    if declared.contains key then .ok false
    else if joined.isEmpty then .ok true
    else (matchesPattern joined key).map (!·)
  select isExtra (members.map Prod.fst)

/-- Whether a schema accepts one of several values; the first that it accepts settles it. -/
def acceptsAny (accepts : Json → Except Fault Bool) : List Json → Except Fault Bool
  | [] => .ok false
  | x :: rest => do
    if ← accepts x then return true
    else acceptsAny accepts rest

/-- The first branch that accepts a value, and the branches behind it. -/
def firstAccepting (sub : Judge) (base : String) (v : Json) :
    List Json → Except Fault (Option (Json × List Json))
  | [] => .ok none
  | branch :: rest => do
    if ← (sub.descend base branch [] [] v).acceptsAfterAll then return some (branch, rest)
    else firstAccepting sub base v rest

/-- The outcomes of all items, by their places from a given one on. -/
def overItems (judge : Nat → Json → Outcome) (start : Nat) (items : List Json) : Outcome :=
  .concat ((items.zipIdx start).map fun (x, i) => judge i x)

/-- What a keyword finds wrong with a value. -/
def judge (validator : Validator) (sub : Judge) (base : String) (v : Json) : Keyword → Outcome
  | .reference target =>
    .ofExcept (validator.registry.resolve base target) fun (schema, inside) => sub inside schema v
  | .type names => require (names.any v.isOfTypeNamed) v (.wrongType names)
  | .enum values => require (values.any (·.same v)) v (.notInEnum values)
  | .const value => require (v.same value) v (.notConst value)
  | .bound side limit =>
    match v with
    | .num n => require (side.admits limit n) v (.outOfBounds side limit)
    | _ => .clean
  | .multipleOf divisor =>
    match v with
    | .num n =>
      match n.isMultipleOf divisor with
      | .ok isMultiple => require isMultiple v (.notMultiple divisor)
      | .error fault => .ofFault (.arithmetic fault)
    | _ => .clean
  | .count side what limit =>
    match v.count? what with
    | some n => require (side.admits limit n) v (.wrongCount side what limit)
    | none => .clean
  | .uniqueItems wanted =>
    match v with
    | .arr xs => require (!wanted || Unique.holds xs) v .repeatedItems
    | _ => .clean
  | .pattern regex =>
    match v with
    | .str s => .ofExcept (matchesPattern regex s) (require · v (.patternUnmatched regex))
    | _ => .clean
  | .format name =>
    if validator.checkFormats then
      match Format.holds name v with
      | .ok met => require met v (.formatUnmet name)
      | .error error => .ofFault (.badPattern error)
    else .clean
  | .required names =>
    match v with
    | .obj members =>
      .concat (names.map fun name => require (hasKey members name) v (.missingProperty name names))
    | _ => .clean
  | .properties schemas =>
    match v with
    | .obj members => .concat (schemas.map fun (name, schema) =>
        match members.lookup name with
        | some x => sub.descend base schema [.key name] [.key name] x
        | none => .clean)
    | _ => .clean
  | .patternProperties schemas =>
    match v with
    | .obj members => .concat (schemas.map fun (regex, schema) =>
        .concat (members.map fun (key, x) =>
          .ofExcept (matchesPattern regex key) fun found =>
            if found then sub.descend base schema [.key key] [.key regex] x else .clean))
    | _ => .clean
  | .propertyNames schema =>
    match v with
    | .obj members => .concat (members.map fun (key, _) => sub.descend base schema [] [] (.str key))
    | _ => .clean
  | .additionalProperties declared patterns schema =>
    match v with
    | .obj members => .ofExcept (extraKeys declared patterns members) fun extras =>
        match schema with
        | .obj _ => .concat (extras.map fun key =>
            match members.lookup key with
            | some x => sub.descend base schema [.key key] [] x
            | none => .clean)
        | .bool false => require extras.isEmpty v (.undeclared extras declared patterns)
        | _ => .clean
    | _ => .clean
  | .items schema =>
    match v with
    | .arr xs => overItems (fun i x => sub.descend base schema [.index i] [] x) 0 xs
    | _ => .clean
  | .itemsInTurn schemas =>
    match v with
    | .arr xs => .concat (((xs.zip schemas).zipIdx).map fun ((x, schema), i) =>
        sub.descend base schema [.index i] [.index i] x)
    | _ => .clean
  | .additionalItems covered schema =>
    match v, covered with
    | .arr _, none => .ofFault .lengthOfBoolean
    | .arr xs, some n =>
      match schema with
      | .obj _ => overItems (fun i x => sub.descend base schema [.index i] [] x) n (xs.drop n)
      | .bool false => require (xs.drop n).isEmpty v (.surplusItems (xs.drop n))
      | _ => .clean
    | _, _ => .clean
  | .contains schema =>
    match v with
    | .arr xs => .ofExcept (acceptsAny (fun x => (sub base schema x).accepts) xs)
        (require · v .nothingContained)
    | _ => .clean
  | .dependencies entries =>
    match v with
    | .obj members => .concat (entries.map fun (property, dependency) =>
        if hasKey members property then
          match dependency with
          | .properties names => .concat (names.map fun name =>
              require (hasKey members name) v
                (.missingDependency property name (Dependency.listed entries)))
          | .schema schema => sub.descend base schema [] [.key property] v
        else .clean)
    | _ => .clean
  | .allOf schemas =>
    .concat (schemas.zipIdx.map fun (schema, i) => sub.descend base schema [] [.index i] v)
  | .anyOf schemas =>
    .ofExcept (firstAccepting sub base v schemas) fun
      | some _ => .clean
      | none => .complain v .noneOfAny
  | .oneOf schemas =>
    .ofExcept (firstAccepting sub base v schemas) fun
      | none => .complain v (if schemas.isEmpty then .noBranches else .noneOfOne)
      | some (first, rest) =>
        .ofExcept (select (fun schema => (sub base schema v).accepts) rest) fun more =>
          require more.isEmpty v (.severalOfOne schemas (more ++ [first]))
  | .forbid schema =>
    .ofExcept (sub base schema v).accepts fun accepted => require (!accepted) v (.forbidden schema)
  | .conditional test whenMet whenUnmet =>
    .ofExcept (sub base test v).accepts fun met =>
      match met, whenMet, whenUnmet with
      | true, some schema, _ => sub.descend base schema [] [.key "then"] v
      | false, _, some schema => sub.descend base schema [] [.key "else"] v
      | _, _, _ => .clean

end Keyword

end JsonMend
