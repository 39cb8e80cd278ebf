import JsonMend.Json.Printer
import JsonMend.Regex.Error
/-
  Why a step cannot be carried out at all.

  These are not findings about a document: they end the work that is being done.  Each cause has one
  wording.
-/
namespace JsonMend

inductive Fault where
  /-- A pattern is no regular expression. -/
  | badPattern (error : PatternError)
  /-- An integer numeral has more digits than may be read. -/
  | tooManyDigits (count : Nat)
  /-- An integer has more digits than may be written. -/
  | integerTooLong
  | arithmetic (fault : ArithmeticFault)
  /-- A pointer of a reference leads nowhere in its document. -/
  | pointerToNowhere (pointer : String) (document : Json)
  /-- A reference names an anchor that its document does not have. -/
  | noSuchAnchor (name : String) (document : Json)
  /-- A reference names an anchor that contains a slash. -/
  | invalidAnchor (name : String)
  /-- A reference names a document that is not known. -/
  | unresolvable (reference : String)
  /-- A pointer of a reference steps into a value that has no parts. -/
  | noParts (value : Json)
  /-- A reference leads to a value that is no schema. -/
  | notASchema (value : Json)
  /-- A pointer of a reference steps into an array or a text with something that is no number. -/
  | notAnIndex (step : String)
  /-- The length of a boolean is asked for. -/
  | lengthOfBoolean
  /-- A keyword has a value that the metaschema by which schemas are checked, that of draft-07, would not allow.  An
  accepted schema can hold one where nothing was checked: where a reference leads to a part that is no schema, or under a
  keyword that draft-07 does not have.  Some of these values would still be gone through, such as the letters of a text
  under `required` or the schemas that draft-03 has in a list of types, or be passed over, such as `null` under
  `additionalProperties`; that is not followed here. -/
  | malformedKeyword (name : String)
  /-- A schema names a draft that is known but not followed here, or a reference asks for such a draft's metaschema. -/
  | otherDraft (uri : String)
  /-- References lead round in a circle. -/
  | endlessReference
  deriving DecidableEq

namespace Fault

/-- The word for the kind of a value without parts. -/
def kindWord : Json → String
  | .null => "NoneType"
  | .bool _ => "bool"
  | .num (.int _) => "int"
  | .num (.real _) => "float"
  | .str _ => "str"
  | .arr _ => "list"
  | .obj _ => "dict"

/-- What is added to the message about the pointer `/`, which is easily mistaken for the root. -/
def lonePointerHint : String :=
  ". The pointer '/' is a valid JSON Pointer but it points to an empty string property ''. " ++
    "If you intended to point to the entire resource, you should use '#'."

def message : Fault → String
  | .badPattern error => error.message
  | .tooManyDigits count =>
    "Exceeds the limit (" ++ toString digitLimit ++ " digits) for integer string conversion: " ++
      "value has " ++ toString count ++ " digits; " ++
      "use sys.set_int_max_str_digits() to increase the limit"
  | .integerTooLong =>
    "Exceeds the limit (" ++ toString digitLimit ++ " digits) for integer string conversion; " ++
      "use sys.set_int_max_str_digits() to increase the limit"
  | .arithmetic fault => fault.message
  | .pointerToNowhere pointer document =>
    "PointerToNowhere: " ++ quote pointer ++ " does not exist within " ++ document.literal ++
      (if pointer = "/" then lonePointerHint else "")
  | .noSuchAnchor name document =>
    "NoSuchAnchor: " ++ quote name ++ " does not exist within " ++ document.literal
  | .invalidAnchor name =>
    "InvalidAnchor: '#" ++ name ++ "' is not a valid anchor, neither as a plain name anchor nor as " ++
      "a JSON Pointer. You may have intended to use '#/" ++ name ++ "', as the slash is required " ++
      "*before each segment* of a JSON pointer."
  | .unresolvable reference => "Unresolvable: " ++ reference
  | .noParts value => "'" ++ kindWord value ++ "' object is not subscriptable"
  | .notASchema value => "'" ++ kindWord value ++ "' object has no attribute 'get'"
  | .notAnIndex step => "invalid literal for int() with base 10: " ++ quote step
  | .lengthOfBoolean => "object of type 'bool' has no len()"
  | .malformedKeyword name => "the value of " ++ quote name ++ " is malformed"
  | .otherDraft uri => "the draft " ++ quote uri ++ " is not followed"
  | .endlessReference => "maximum recursion depth exceeded"

end Fault

end JsonMend
