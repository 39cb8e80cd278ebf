import JsonMend.Number.Decimal
import JsonMend.Text.Blank
import JsonMend.Json.Basic
/-
  The settings of the service, as read from environment variables.

  A variable is found whatever the case of its name; of several that differ in case only, the last
  counts.  Every text is allowed for a setting that is a text.  All settings that cannot be read are
  reported, in the order of the settings.
-/
namespace JsonMend

structure Settings where
  logLevel : String
  /-- Whether the formats of strings are checked. -/
  validateFormats : Bool
  /-- How many schemas are kept ready. -/
  schemaCacheSize : Int
  serverName : String
  serverVersion : String
  /-- How many characters of an argument are logged. -/
  logPreviewChars : Int
  deriving DecidableEq

namespace Settings

/-- The settings where no variable says otherwise. -/
def standard : Settings := ⟨"INFO", true, 128, "json-validate", "0.1.0", 200⟩

/-! ## Reading one setting -/

/-- Why the text of a variable is no value of its setting. -/
inductive Flaw where
  | notBoolean
  | notInteger
  | integerTooLong
  deriving DecidableEq

namespace Flaw

def kind : Flaw → String
  | .notBoolean => "bool_parsing"
  | .notInteger => "int_parsing"
  | .integerTooLong => "int_parsing_size"

def message : Flaw → String
  | .notBoolean => "Input should be a valid boolean, unable to interpret input"
  | .notInteger => "Input should be a valid integer, unable to parse string as an integer"
  | .integerTooLong => "Unable to parse input string as an integer, exceeded maximum size"

end Flaw

def wordsForTrue : List String := ["1", "on", "t", "true", "y", "yes"]
def wordsForFalse : List String := ["0", "off", "f", "false", "n", "no"]

/-- A boolean is one of a few words in any case. -/
def readBool (text : String) : Except Flaw Bool :=
  let word := text.toLower
  if wordsForTrue.contains word then .ok true
  else if wordsForFalse.contains word then .ok false
  else .error .notBoolean

/-- The digits of a numeral without a zero in front. -/
def plainDigits? (text : List Char) : Option Nat :=
  match text with
  | [] => none
  | c :: rest =>
    if !text.all Char.isDigit || (c = '0' && !rest.isEmpty) then none else some (readDigits text)

/-- A sign, if any, and digits without a zero in front. -/
def plainInteger? (text : List Char) : Option Int :=
  match text with
  | '-' :: rest => (plainDigits? rest).map fun n => -(n : Int)
  | _ => (plainDigits? text).map Int.ofNat

/-- White space, which does not include the information separators. -/
def isSpace (c : Char) : Bool := isBlank c && !(decide (28 ≤ c.toNat) && decide (c.toNat ≤ 31))

/-- A text without a plus sign in front, which no minus sign may follow. -/
def dropPlus? : List Char → Option (List Char)
  | '+' :: '-' :: _ => none
  | '+' :: rest => some rest
  | text => some text

/-- What is left behind the zeros in front, the last of which is given: a digit that is no zero, or the
last zero with a point behind it; where nothing is left, the last character. -/
def dropZerosFrom? (last : Char) : List Char → Option (List Char)
  | [] => some [last]
  | '.' :: rest => some (last :: '.' :: rest)
  | c :: rest =>
    if c = '0' || c = '_' then dropZerosFrom? c rest
    else if c.isDigit then some (c :: rest)
    else none

/-- A text without zeros in front; it must start with a digit or a minus sign. -/
def dropZeros? : List Char → Option (List Char)
  | [] => none
  | c :: rest =>
    if c = '0' then dropZerosFrom? '0' rest
    else if c.isDigit || c = '-' then some (c :: rest)
    else none

/-- A text without a point that only zeros follow. -/
def dropFraction (text : List Char) : List Char :=
  let whole := text.takeWhile (· != '.')
  let fraction := (text.dropWhile (· != '.')).drop 1
  if fraction.all (· == '0') then whole else text

/-- Whether no underscore is followed by another one or by nothing. -/
def underscoresFollowed : List Char → Bool
  | ['_'] => false
  | '_' :: '_' :: _ => false
  | _ :: rest => underscoresFollowed rest
  | [] => true

/-- Whether each underscore stands alone, and none at an end. -/
def underscoresApart (text : List Char) : Bool := text.head? != some '_' && underscoresFollowed text

/-- A text without underscores, if they are all well placed. -/
def dropUnderscores (text : List Char) : List Char :=
  if underscoresApart text then text.filter (· != '_') else text

/-- A numeral put into its plain form. -/
def tidy? (text : List Char) : Option (List Char) := do
  let trimmed := ((text.dropWhile isSpace).reverse.dropWhile isSpace).reverse
  let unsigned ← dropPlus? trimmed
  let digits ← dropZeros? unsigned
  return dropUnderscores (dropFraction digits)

/-- An integer may have white space around it, a plus sign, zeros in front, a fraction of zeros and
underscores between its digits. -/
def readInt (text : String) : Except Flaw Int :=
  let chars := text.toList
  match plainInteger? chars with
  | some n => if chars.length ≤ digitLimit then .ok n else .error .integerTooLong
  | none =>
    match (tidy? chars).bind plainInteger? with
    | some n => .ok n
    | none => .error .notInteger

/-! ## Reading all settings -/

/-- The text of the last variable with a name, whatever its case. -/
def lookUp (env : List (String × String)) (name : String) : Option String :=
  env.reverse.findSome? fun (key, text) => if key.toLower = name.toLower then some text else none

/-- A variable that cannot be read, with its flaw. -/
structure Problem where
  name : String
  flaw : Flaw
  deriving DecidableEq

def Problem.toJson (p : Problem) : Json :=
  .obj [("loc", .arr [.str p.name]), ("type", .str p.flaw.kind), ("msg", .str p.flaw.message)]

/-- A setting that may be missing: its value or the standard one, and the problem, if there is one. -/
def setting {α : Type} (env : List (String × String)) (name : String) (read : String → Except Flaw α)
    (standard : α) : α × List Problem :=
  match lookUp env name with
  | none => (standard, [])
  | some text =>
    match read text with
    | .ok v => (v, [])
    | .error flaw => (standard, [⟨name, flaw⟩])

/-- The settings that environment variables give, or all that is wrong with them. -/
def ofEnv (env : List (String × String)) : Except (List Problem) Settings :=
  let (logLevel, p1) := setting env "LOG_LEVEL" .ok standard.logLevel
  let (formats, p2) := setting env "VALIDATE_FORMATS" readBool standard.validateFormats
  let (cacheSize, p3) := setting env "SCHEMA_CACHE_SIZE" readInt standard.schemaCacheSize
  let (serverName, p4) := setting env "MCP_SERVER_NAME" .ok standard.serverName
  let (serverVersion, p5) := setting env "MCP_SERVER_VERSION" .ok standard.serverVersion
  let (previewChars, p6) := setting env "LOG_PREVIEW_CHARS" readInt standard.logPreviewChars
  match p1 ++ p2 ++ p3 ++ p4 ++ p5 ++ p6 with
  | [] => .ok ⟨logLevel, formats, cacheSize, serverName, serverVersion, previewChars⟩
  | problems => .error problems

def toJson (s : Settings) : Json :=
  .obj [("LOG_LEVEL", .str s.logLevel), ("VALIDATE_FORMATS", .bool s.validateFormats),
    ("SCHEMA_CACHE_SIZE", .num (.int s.schemaCacheSize)), ("MCP_SERVER_NAME", .str s.serverName),
    ("MCP_SERVER_VERSION", .str s.serverVersion),
    ("LOG_PREVIEW_CHARS", .num (.int s.logPreviewChars))]

/-! ## Running it -/

example : (readInt " +007_0.00 ").toOption = some 70 := by cbv
example : (readInt "-3").toOption = some (-3) := by cbv
example : (readInt "1.5").toOption = none ∧ (readInt "1__0").toOption = none := by cbv
example : (readBool "OFF").toOption = some false := by cbv

end Settings

end JsonMend
