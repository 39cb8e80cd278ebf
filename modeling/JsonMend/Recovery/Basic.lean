import JsonMend.Recovery.Correction
import JsonMend.Json.Parser
/-
  Recovering a value from text that may be malformed.

  A text that is strict JSON is read as it is.  Any other text goes once through all corrections and is
  then read strictly once more.  What was done is told in diagnostics; there is none for a text that
  needed nothing.
-/
namespace JsonMend

structure Recovery where
  /-- The value, if one could be read. -/
  value? : Option Json
  diagnostics : List String
  deriving DecidableEq

namespace Recovery

def strictFailed : String := "Standard JSON parse failed, attempting repairs..."
def repaired : String := "JSON repaired successfully with syntax fixes"
def unrepairable : String := "Could not repair JSON syntax"

/-- Reads a value from a text, given as characters. -/
def ofChars (text : List Char) : Recovery :=
  match Json.parseChars? text with
  | some v => ⟨some v, []⟩
  | none =>
    match Json.parseChars? (Correction.applyAll text) with
    | some v => ⟨some v, [strictFailed, repaired]⟩
    | none => ⟨none, [strictFailed, unrepairable]⟩

/-- Reads a value from a text. -/
def ofText (text : String) : Recovery := ofChars text.toList

/-! ## Running it -/

example : ofText "\x7ba: 'x', b: /* c */ [undefined,],\x7d" =
    ⟨some (.obj [("a", .str "x"), ("b", .arr [.null])]), [strictFailed, repaired]⟩ := by cbv
example : (ofText "\x7bnope").value? = none := by cbv

end Recovery

end JsonMend
