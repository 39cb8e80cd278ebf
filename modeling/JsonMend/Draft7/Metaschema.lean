import JsonMend.Json.Basic
/-
  The schema of draft-07 schemas, as the specification gives it.

  The order of its members matters: a schema is refused for the first thing that is wrong with it in
  this order.
-/
namespace JsonMend

namespace Metaschema

/-- The URI of the metaschema. -/
def uri : String := "http://json-schema.org/draft-07/schema"

private def int (n : Int) : Json := .num (.int n)
private def ofType (name : String) : Json := .obj [("type", .str name)]
private def reference (target : String) : Json := .obj [("$ref", .str target)]
private def self : Json := reference "#"
private def array (item : Json) : Members := [("type", .str "array"), ("items", item)]
private def text (format : String) : Json := .obj [("type", .str "string"), ("format", .str format)]
private def flag : Json := .obj [("type", .str "boolean"), ("default", .bool false)]
private def count : Json := reference "#/definitions/nonNegativeInteger"
private def countFromZero : Json := reference "#/definitions/nonNegativeIntegerDefault0"
private def strings : Json := reference "#/definitions/stringArray"
private def schemas : Json := reference "#/definitions/schemaArray"
private def simpleType : Json := reference "#/definitions/simpleTypes"
private def schemaMap (more : Members) : Json :=
  .obj ([("type", .str "object"), ("additionalProperties", self)] ++ more ++ [("default", .obj [])])

private def definitions : Members :=
  [("schemaArray", .obj [("type", .str "array"), ("minItems", int 1), ("items", self)]),
   ("nonNegativeInteger", .obj [("type", .str "integer"), ("minimum", int 0)]),
   ("nonNegativeIntegerDefault0", .obj [("allOf", .arr [count, .obj [("default", int 0)]])]),
   ("simpleTypes", .obj [("enum", .arr
     (["array", "boolean", "integer", "null", "number", "object", "string"].map .str))]),
   ("stringArray", .obj (array (ofType "string") ++
     [("uniqueItems", .bool true), ("default", .arr [])]))]

private def properties : Members :=
  [("$id", text "uri-reference"),
   ("$schema", text "uri"),
   ("$ref", text "uri-reference"),
   ("$comment", ofType "string"),
   ("title", ofType "string"),
   ("description", ofType "string"),
   ("default", .bool true),
   ("readOnly", flag),
   ("examples", .obj (array (.bool true))),
   ("multipleOf", .obj [("type", .str "number"), ("exclusiveMinimum", int 0)]),
   ("maximum", ofType "number"),
   ("exclusiveMaximum", ofType "number"),
   ("minimum", ofType "number"),
   ("exclusiveMinimum", ofType "number"),
   ("maxLength", count),
   ("minLength", countFromZero),
   ("pattern", text "regex"),
   ("additionalItems", self),
   ("items", .obj [("anyOf", .arr [self, schemas]), ("default", .bool true)]),
   ("maxItems", count),
   ("minItems", countFromZero),
   ("uniqueItems", flag),
   ("contains", self),
   ("maxProperties", count),
   ("minProperties", countFromZero),
   ("required", strings),
   ("additionalProperties", self),
   ("definitions", schemaMap []),
   ("properties", schemaMap []),
   ("patternProperties", schemaMap [("propertyNames", .obj [("format", .str "regex")])]),
   ("dependencies", .obj [("type", .str "object"),
     ("additionalProperties", .obj [("anyOf", .arr [self, strings])])]),
   ("propertyNames", self),
   ("const", .bool true),
   ("enum", .obj (array (.bool true))),
   ("type", .obj [("anyOf", .arr [simpleType,
     .obj (array simpleType ++ [("minItems", int 1), ("uniqueItems", .bool true)])])]),
   ("format", ofType "string"),
   ("contentMediaType", ofType "string"),
   ("contentEncoding", ofType "string"),
   ("if", self),
   ("then", self),
   ("else", self),
   ("allOf", schemas),
   ("anyOf", schemas),
   ("oneOf", schemas),
   ("not", self)]

/-- The metaschema. -/
def schema : Json :=
  .obj [("$schema", .str "http://json-schema.org/draft-07/schema#"),
    ("$id", .str "http://json-schema.org/draft-07/schema#"),
    ("title", .str "Core schema meta-schema"),
    ("definitions", .obj definitions),
    ("type", .arr [.str "object", .str "boolean"]),
    ("properties", .obj properties),
    ("default", .bool true)]

end Metaschema

end JsonMend
