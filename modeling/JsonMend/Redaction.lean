import JsonMend.Text.Word
import JsonMend.Json.Printer
/-
  Redacted previews of logged values.

  An address is a run of word characters, points and hyphens, an `@`, and another such run.  The text
  is read from left to right and every address is replaced by a mark; what lies between two addresses
  stays as it is.  A preview is the redacted text of a value, cut to a number of characters.
-/
namespace JsonMend

namespace Redaction

/-- A character that an address is made of. -/
def isAddressChar (c : Char) : Bool := isWordChar c || c = '.' || c = '-'

/-- What an address is replaced by. -/
def mark : List Char := "[redacted-email]".toList

/-- Whether a text starts with an address character. -/
def startsRun : List Char → Bool
  | [] => false
  | c :: _ => isAddressChar c

/-- Where the reading stands. -/
inductive Mode where
  /-- Behind a run of address characters, given backwards and not written yet. -/
  | behindRun (run : List Char)
  /-- In an address that was replaced. -/
  | inAddress

/-- Redacts the rest of a text. -/
def redactFrom : Mode → List Char → List Char
  | .behindRun run, [] => run.reverse
  | .inAddress, [] => []
  | .inAddress, c :: rest =>
    if isAddressChar c then redactFrom .inAddress rest else c :: redactFrom (.behindRun []) rest
  | .behindRun run, c :: rest =>
    if isAddressChar c then redactFrom (.behindRun (c :: run)) rest
    else if c = '@' && !run.isEmpty && startsRun rest then mark ++ redactFrom .inAddress rest
    else run.reverse ++ c :: redactFrom (.behindRun []) rest

section
variable (run rest : List Char) (c : Char)

theorem redactFrom_behindRun_cons : redactFrom (.behindRun run) (c :: rest) =
    if isAddressChar c then redactFrom (.behindRun (c :: run)) rest
    else if c = '@' && !run.isEmpty && startsRun rest then mark ++ redactFrom .inAddress rest
    else run.reverse ++ c :: redactFrom (.behindRun []) rest := rfl

theorem redactFrom_inAddress_cons : redactFrom .inAddress (c :: rest) =
    if isAddressChar c then redactFrom .inAddress rest else c :: redactFrom (.behindRun []) rest := rfl

end

/-- A text with every address replaced. -/
def redactChars (text : List Char) : List Char := redactFrom (.behindRun []) text

/-- A string with every address replaced. -/
def redact (text : String) : String := String.ofList (redactChars text.toList)

/-! ## Previews -/

/-- The text of a value in a log: a string as it is, anything else as JSON.  Integers are written out, whatever their
length: none that was read from a text has more than `digitLimit` digits. -/
def logText : Json → List Char
  | .str s => s.toList
  | v => v.writeChars .spaced

/-- The first characters of a text, or, for a negative number, all but that many. -/
def cut (limit : Int) (text : List Char) : List Char :=
  if limit < 0 then text.take (text.length - limit.natAbs) else text.take limit.toNat

/-- The redacted text of a value; if it is longer than the limit, it is cut and followed by the number
of characters past the limit. -/
def preview (limit : Int) (v : Json) : String :=
  let text := redactChars (logText v)
  if limit < text.length then
    String.ofList
      (cut limit text ++ "...(+".toList ++ writeInt (text.length - limit) ++ " chars)".toList)
  else String.ofList text

/-- The previews of the arguments of a call. -/
def previews (limit : Int) (arguments : Members) : List (String × String) :=
  arguments.map fun (name, v) => (name, preview limit v)

/-- The line that a call leaves in a log. -/
def callLine (limit : Int) (tool : String) (arguments : Members) : String :=
  let shown := Json.obj ((previews limit arguments).map fun (name, text) => (name, .str text))
  "tool_call " ++ tool ++ " " ++ shown.literal

/-! ## Running it -/

example : redact "a@b@c" = "[redacted-email]@c" ∧ redact "a@@b" = "a@@b" := by decide +kernel
example : preview 5 (.str "hello a@b.c") = "hello...(+17 chars)" := by decide +kernel
example : preview (-1) (.num (.int 5)) = "...(+2 chars)" := by decide +kernel

end Redaction

end JsonMend
