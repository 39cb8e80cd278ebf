import JsonMend.Json.Basic
import JsonMend.Reference.Uri
/-
  The drafts of the schema language.

  A schema may name a draft with `$schema`, by the URI of that draft's metaschema.  What the root of a document names
  changes nothing: documents are judged by draft-07.  But a schema inside another is judged by the draft that it names,
  and so is all that is inside it, down to the next schema that names one.
-/
namespace JsonMend

inductive Draft where
  | draft3
  | draft4
  | draft6
  | draft7
  | draft201909
  | draft202012
  deriving DecidableEq

namespace Draft

/-- All drafts that have a metaschema of their own, the most usual one here first. -/
def all : List Draft := [.draft7, .draft6, .draft4, .draft3, .draft201909, .draft202012]

/-- The URI of a draft's metaschema. -/
def uri : Draft → String
  | .draft3 => "http://json-schema.org/draft-03/schema"
  | .draft4 => "http://json-schema.org/draft-04/schema"
  | .draft6 => "http://json-schema.org/draft-06/schema"
  | .draft7 => "http://json-schema.org/draft-07/schema"
  | .draft201909 => "https://json-schema.org/draft/2019-09/schema"
  | .draft202012 => "https://json-schema.org/draft/2020-12/schema"

/-- The draft whose metaschema a text names; an empty fragment behind the URI says nothing. -/
def ofUri? (text : String) : Option Draft :=
  let plain := String.ofList (Uri.write (Uri.parse [] text.toList))
  all.find? (·.uri = plain)

/-- Where the two latest drafts keep the parts of their metaschemas. -/
def partPrefixes : List String :=
  ["https://json-schema.org/draft/2019-09/meta/", "https://json-schema.org/draft/2020-12/meta/"]

/-- Whether a draft's metaschema, or a part of one, is held under a URI. -/
def holdsAt (uri : String) : Bool :=
  all.any (·.uri = uri) || partPrefixes.any fun start => start.toList.isPrefixOf uri.toList

end Draft

/-- The draft that a schema names. -/
def Json.draft? (schema : Json) : Option Draft :=
  match schema.get? "$schema" with
  | some (.str text) => Draft.ofUri? text
  | _ => none

/-! ## Running it -/

example : Draft.all.map (fun draft => Draft.ofUri? (draft.uri ++ "#")) = Draft.all.map some := by decide +kernel
example : (Json.obj [("$schema", .str "http://json-schema.org/schema")]).draft? = none := by decide +kernel

end JsonMend
