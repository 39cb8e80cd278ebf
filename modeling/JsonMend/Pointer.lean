import JsonMend.Json.Printer
/-
  JSON pointers.

  A pointer names a place in a document by a `/` in front of each step, `~` and `/` inside a step
  being written `~0` and `~1`.  The whole document has the empty pointer; it is shown as `/`.

  A place is kept as a list of segments (`Segment`) and written only where it is shown, so a place
  below another one is that place's list behind one more segment.
-/
namespace JsonMend

/-! ## Segments -/

/-- One step into a value. -/
inductive Segment where
  | key (name : String)
  | index (i : Nat)
  deriving DecidableEq

/-- The text of a step, before it is escaped. -/
def Segment.text : Segment → String
  | .key name => name
  | .index i => String.ofList (writeDigits i)

/-- A place in a value, from the root down. -/
abbrev Position := List Segment

/-- The value at the end of a step. -/
def Json.step? : Json → Segment → Option Json
  | .obj members, .key name => members.lookup name
  | .arr items, .index i => items[i]?
  | _, _ => none

/-- The value at a place. -/
def Json.at? (v : Json) (place : Position) : Option Json := place.foldlM Json.step? v

namespace Pointer

/-! ## Escaping a step -/

def escapeChars : List Char → List Char
  | [] => []
  | '~' :: rest => '~' :: '0' :: escapeChars rest
  | '/' :: rest => '~' :: '1' :: escapeChars rest
  | c :: rest => c :: escapeChars rest

def unescapeChars : List Char → List Char
  | [] => []
  | '~' :: '1' :: rest => '/' :: unescapeChars rest
  | '~' :: '0' :: rest => '~' :: unescapeChars rest
  | c :: rest => c :: unescapeChars rest

/-- A step as it stands in a pointer. -/
def escape (segment : String) : String := String.ofList (escapeChars segment.toList)

/-- The step that a part of a pointer stands for. -/
def unescape (part : String) : String := String.ofList (unescapeChars part.toList)

/-! ## Building and taking apart -/

/-- Whether a pointer is one of the two spellings of the root. -/
def isRoot (path : String) : Bool := path = "" || path = "/"

/-- A pointer with one more step behind it. -/
def join (parent segment : String) : String :=
  (if isRoot parent then "" else parent) ++ "/" ++ escape segment

/-- A text cut at every slash. -/
def splitSlashes : List Char → List (List Char)
  | [] => [[]]
  | '/' :: rest => [] :: splitSlashes rest
  | c :: rest =>
    match splitSlashes rest with
    | part :: parts => (c :: part) :: parts
    | [] => [[c]]

/-- The steps of a pointer; any number of slashes may stand in front of them. -/
def split (path : String) : List String :=
  if isRoot path then []
  else
    (splitSlashes (path.toList.dropWhile (· == '/'))).map fun part =>
      String.ofList (unescapeChars part)

/-- A pointer as it is shown. -/
def display (path : String) : String := if path = "" then "/" else path

/-- The pointer to a place below a given one. -/
def below (base : String) (place : Position) : String :=
  place.foldl (fun path segment => join path segment.text) base

/-- Every step behind a slash of its own. -/
def concat (segments : List String) : String :=
  segments.foldr (fun segment rest => "/" ++ escape segment ++ rest) ""

/-- The pointer made of the given steps, the root being a lone slash. -/
def ofSegments (segments : List String) : String :=
  if segments.isEmpty then "/" else concat segments

/-- The pointer to a place in an instance. -/
def ofPosition (place : Position) : String := ofSegments (place.map Segment.text)

/-- The pointer to a place in a schema, as a fragment. -/
def schemaFragment (place : Position) : String := "#" ++ concat (place.map Segment.text)

/-! ## Running it -/

example : join "" "a/b" = "/a~1b" ∧ join "/" "" = "/" ∧ join "/x" "~" = "/x/~0" := by decide +kernel
example : split "/~01//b" = ["~1", "", "b"] ∧ split "//" = [""] := by decide +kernel
example : ofSegments [] = "/" ∧ schemaFragment [.key "items", .index 0] = "#/items/0" := by
  decide +kernel

end Pointer

end JsonMend
