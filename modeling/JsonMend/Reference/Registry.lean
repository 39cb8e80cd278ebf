import JsonMend.Reference.Uri
import JsonMend.Number.Numeral
import JsonMend.Text.Blank
import JsonMend.Pointer
import JsonMend.Draft
import JsonMend.Fault
/-
  Where references lead.

  A schema document may contain schemas with identifiers of their own; a registry finds each of them
  by the URI that its identifier gives it where it stands.  A reference is read against the URI of
  the place that it stands in, and leads to a schema together with the URI that holds there.
-/
namespace JsonMend

/-! ## Identifiers -/

/-- The identifier of a schema.  A reference hides it, and one that is a mere fragment names an anchor
instead. -/
def identifier? (schema : Json) : Option String :=
  match schema with
  | .obj members =>
    match hasKey members "$ref", members.lookup "$id" with
    | false, some (.str id) =>
      if id.toList.head? = some '#' then none
      else some (String.ofList (id.toList.reverse.dropWhile (· == '#')).reverse)
    | _, _ => none
  | _ => none

/-- The anchor that a schema names. -/
def anchor? (schema : Json) : Option String :=
  match schema.get? "$id" with
  | some (.str id) =>
    if id.toList.head? = some '#' then some (String.ofList (id.toList.drop 1)) else none
  | _ => none

/-- The URI that holds inside a schema. -/
def baseInside (base : String) (schema : Json) : String :=
  match identifier? schema with
  | some id => Uri.join base id
  | none => base

/-! ## Schemas inside schemas -/

/-- The keywords that hold one schema. -/
def schemaKeywords : List String :=
  ["additionalItems", "additionalProperties", "contains", "else", "if", "not", "propertyNames", "then"]

/-- The keywords that hold an array of schemas. -/
def schemaArrayKeywords : List String := ["allOf", "anyOf", "oneOf"]

/-- The keywords that hold schemas by name. -/
def schemaMapKeywords : List String := ["definitions", "patternProperties", "properties"]

/-- The schemas directly inside a schema. -/
def innerSchemas (schema : Json) : List Json :=
  let under (key : String) : Json := (schema.get? key).getD .null
  let itemsOf : Json → List Json
    | .arr items => items
    | _ => []
  let valuesOf : Json → List Json
    | .obj members => members.map Prod.snd
    | _ => []
  schemaKeywords.filterMap schema.get? ++
    schemaArrayKeywords.flatMap (fun key => itemsOf (under key)) ++
    schemaMapKeywords.flatMap (fun key => valuesOf (under key)) ++
    (match schema.get? "items" with
      | some (.arr items) => items
      | some v => [v]
      | none => []) ++
    match valuesOf (under "dependencies") with
    | .obj members :: rest => .obj members :: rest
    | _ => []

/-! ## The registry -/

structure Registry where
  rootUri : String
  root : Json
  /-- Documents that are known without being part of the root. -/
  known : List (String × Json)
  /-- The schemas inside the root that have a URI of their own. -/
  documents : List (String × Json)
  /-- The schemas inside the root that are named by an anchor, by URI and name. -/
  anchors : List ((String × String) × Json)

namespace Registry

/-- The schemas inside a schema that have a URI, down to a depth. -/
def documentsIn : Nat → String → Json → List (String × Json)
  | 0, _, _ => []
  | depth + 1, base, schema =>
    let uri := baseInside base schema
    (if (identifier? schema).isSome then [(uri, schema)] else []) ++
      (innerSchemas schema).flatMap (documentsIn depth uri)

/-- The schemas inside a schema that have an anchor, down to a depth. -/
def anchorsIn : Nat → String → Json → List ((String × String) × Json)
  | 0, _, _ => []
  | depth + 1, base, schema =>
    let uri := baseInside base schema
    (match anchor? schema with
      | some name => [((uri, name), schema)]
      | none => []) ++
      (innerSchemas schema).flatMap (anchorsIn depth uri)

/-- The registry of a root schema. -/
def ofRoot (known : List (String × Json)) (root : Json) : Registry :=
  let uri := (identifier? root).getD ""
  { rootUri := uri
    root := root
    known := known
    documents := documentsIn (root.depth + 1) uri root
    anchors := anchorsIn (root.depth + 1) uri root }

/-- The document with a URI. -/
def document? (r : Registry) (uri : String) : Option Json :=
  if uri = r.rootUri then some r.root
  else (r.known.lookup uri).or (r.documents.lookup uri)

/-- How many values all documents are made of. -/
def size (r : Registry) : Nat := r.known.foldr (fun (_, v) total => v.size + total) r.root.size

/-! ## Following a reference -/

/-- The number that a step into an array is; a negative one counts from the end. -/
def stepIndex? (step : String) : Option Int :=
  match Numeral.ofChars? (trimBlanks step.toList) with
  | some n => if n.isInteger then some n.toInt else none
  | none => none

/-- The item at an index, negative ones counting from the end. -/
def itemAt? {α : Type} (items : List α) (index : Int) : Option α :=
  if 0 ≤ index then items[index.toNat]?
  else if index.natAbs ≤ items.length then items[items.length - index.natAbs]?
  else none

/-- One step of a pointer into a value; `none` where the value has no such part. -/
def stepInto (v : Json) (step : String) : Except Fault (Option Json) :=
  match v with
  | .obj members => .ok (members.lookup (Pointer.unescape step))
  | .arr items =>
    match stepIndex? step with
    | some index => .ok (itemAt? items index)
    | none => .error (.notAnIndex step)
  | .str s =>
    match stepIndex? step with
    | some index => .ok ((itemAt? s.toList index).map fun c => .str (String.ofList [c]))
    | none => .error (.notAnIndex step)
  | v => .error (.noParts v)

/-- Whether steps from one schema lead to another schema, rather than to some part of one. -/
def leadsToSchema (target : Json) : List String → Bool
  | [] => true
  | step :: rest =>
    if (step = "items" ∨ step = "dependencies") && target.isObj then true
    else if schemaKeywords.contains step then leadsToSchema target rest
    else if schemaArrayKeywords.contains step || schemaMapKeywords.contains step then
      match rest with
      | [] => false
      | _ :: rest => leadsToSchema target rest
    else false

/-- Follows the steps of a pointer; the steps since the last schema with a URI of its own and the URI
that holds so far are given. -/
def follow (document : Json) (pointer : String) :
    List String → List String → String → Json → Except Fault (Json × String)
  | [], _, base, v => .ok (v, base)
  | step :: rest, taken, base, v => do
    match ← stepInto v step with
    | none => throw (.pointerToNowhere pointer document)
    | some part =>
      let name := if v.isObj then Pointer.unescape step else step
      let taken := taken ++ [name]
      match leadsToSchema part taken, identifier? part with
      | true, some id =>
        let inside := Uri.join base id
        follow document pointer rest (if inside = base then taken else []) inside part
      | _, _ => follow document pointer rest taken base part

/-- The schema that a reference leads to from a place with the given URI, with the URI that holds
there.  The metaschemas of other drafts are known documents, too, but they are not held here. -/
def resolve (r : Registry) (base reference : String) : Except Fault (Json × String) := do
  let (uri, fragment) :=
    if reference.toList.head? = some '#' then (base, String.ofList (reference.toList.drop 1))
    else Uri.splitFragment (Uri.join base reference)
  match r.document? uri with
  | none => throw (if Draft.holdsAt uri then .otherDraft uri else .unresolvable reference)
  | some document =>
    if fragment.isEmpty then return (document, uri)
    else if fragment.toList.head? = some '/' then
      let decoded := Uri.decodePercent (String.ofList (fragment.toList.drop 1))
      let steps := Pointer.splitSlashes decoded.toList
      follow document fragment (steps.map String.ofList) [] uri document
    else
      let canonical := (identifier? document).getD uri
      match (r.anchors.lookup (uri, fragment)).or (r.anchors.lookup (canonical, fragment)) with
      | some schema => return (schema, uri)
      | none =>
        if fragment.toList.contains '/' then throw (.invalidAnchor fragment)
        else throw (.noSuchAnchor fragment document)

/-! ## Running it -/

example : ((ofRoot [] (.obj [("definitions", .obj [("a/b", .bool true)])])).resolve ""
    "#/definitions/a~1b").toOption = some (.bool true, "") := by decide +kernel
example : documentsIn 3 "" (.obj [("definitions", .obj [("n", .obj [("$id", .str "urn:n")])])]) =
    [("urn:n", .obj [("$id", .str "urn:n")])] := by decide +kernel
example : leadsToSchema .null ["definitions", "a"] = true ∧
    leadsToSchema .null ["enum", "0"] = false := by decide +kernel

end Registry

end JsonMend
