import JsonMend.Draft7.Validator
import JsonMend.Service.RecencyCache
/-
  Schemas kept ready.

  Schemas that differ only in the order of their members share one entry, so the validator that comes
  out of the cache may have been made from another ordering of the schema.  Making a schema ready
  through the cache takes two steps between which others may use the cache: looking for it (`retrieve`),
  and, if it is not there, storing it once it has been checked (`store`).
-/
namespace JsonMend

/-- The cache of validators, by the canonical text of their schemas. -/
abbrev SchemaCache := RecencyCache Validator

namespace SchemaCache

/-- Looks for a schema; finding it is a use of it. -/
def retrieve (c : SchemaCache) (schema : Json) : Option Validator × SchemaCache :=
  (c.find? schema.canonicalText, c.touch schema.canonicalText)

/-- Stores a schema that was made ready. -/
def store (c : SchemaCache) (schema : Json) (validator : Validator) : SchemaCache :=
  c.insert schema.canonicalText validator

/-- A validator for a schema: the one in the cache, or a new one.  A schema that is rejected leaves the
cache as it is. -/
def validatorFor (checkFormats : Bool) (c : SchemaCache) (schema : Json) :
    Except Validator.Rejection Validator × SchemaCache :=
  match c.retrieve schema with
  | (some validator, c) => (.ok validator, c)
  | (none, c) =>
    match Validator.compile checkFormats schema with
    | .error rejection => (.error rejection, c)
    | .ok validator => (.ok validator, c.store schema validator)

end SchemaCache

end JsonMend
