import JsonMend.Text.Quoted
/-
  Why a pattern is no regular expression.

  Each cause has one wording.  Most causes stand at a position in the pattern, counted in characters;
  in a pattern of several lines the message gives the line and the column as well.
-/
namespace JsonMend

/-- What is wrong with a pattern. -/
inductive PatternFault where
  | danglingEscape
  | incompleteEscape (written : List Char)
  | badEscape (written : List Char)
  | missingBrace
  | undefinedCharacterName (name : List Char)
  | octalTooLarge (written : List Char)
  | invalidGroupReference (index : Nat)
  | openGroup
  | groupOfSameLookbehind
  | unterminatedSet
  | badRange (first last : List Char)
  | leastAboveMost
  | nothingToRepeat
  | multipleRepeat
  | unexpectedEnd
  | missingName (what : String)
  | unterminatedName (terminator : Char)
  | badGroupName (name : List Char)
  | unknownGroupName (name : List Char)
  | badGroupNumber
  | unknownExtension (written : List Char)
  | unterminatedComment
  | unterminatedGroup
  | tooManyBranches
  | lateGlobalFlags
  | groupNameTaken (name : List Char) (index earlier : Nat)
  | localeFlag
  | incompatibleFlags
  | missingFlagEnd
  | missingFlag
  | missingColon
  | unknownFlag
  | globalFlagOn
  | globalFlagOff
  | typeFlagOff
  | flagOnAndOff
  | unbalancedParenthesis
  | variableLookbehind
  /-- A repetition count beyond all bounds. -/
  | repetitionTooLarge
  /-- Two kinds of character class are asked for at once, each by a flag of its own. -/
  | conflictingFlags
  deriving DecidableEq

namespace PatternFault

/-- Whether the fault makes the pattern malformed, rather than asks for what cannot be done. -/
def isMalformed : PatternFault → Bool
  | .repetitionTooLarge | .conflictingFlags => false
  | _ => true

private def quotedText (text : List Char) : String := String.ofList (quoted text)

def wording : PatternFault → String
  | .danglingEscape => "bad escape (end of pattern)"
  | .incompleteEscape written => "incomplete escape " ++ String.ofList written
  | .badEscape written => "bad escape " ++ String.ofList written
  | .missingBrace => "missing \x7b"
  | .undefinedCharacterName name => "undefined character name " ++ quotedText name
  | .octalTooLarge written =>
    "octal escape value " ++ String.ofList written ++ " outside of range 0-0o377"
  | .invalidGroupReference index => "invalid group reference " ++ toString index
  | .openGroup => "cannot refer to an open group"
  | .groupOfSameLookbehind =>
    "cannot refer to group defined in the same lookbehind subpattern"
  | .unterminatedSet => "unterminated character set"
  | .badRange first last =>
    "bad character range " ++ String.ofList first ++ "-" ++ String.ofList last
  | .leastAboveMost => "min repeat greater than max repeat"
  | .nothingToRepeat => "nothing to repeat"
  | .multipleRepeat => "multiple repeat"
  | .unexpectedEnd => "unexpected end of pattern"
  | .missingName what => "missing " ++ what
  | .unterminatedName terminator => "missing " ++ terminator.toString ++ ", unterminated name"
  | .badGroupName name => "bad character in group name " ++ quotedText name
  | .unknownGroupName name => "unknown group name " ++ quotedText name
  | .badGroupNumber => "bad group number"
  | .unknownExtension written => "unknown extension " ++ String.ofList written
  | .unterminatedComment => "missing ), unterminated comment"
  | .unterminatedGroup => "missing ), unterminated subpattern"
  | .tooManyBranches => "conditional backref with more than two branches"
  | .lateGlobalFlags => "global flags not at the start of the expression"
  | .groupNameTaken name index earlier =>
    "redefinition of group name " ++ quotedText name ++ " as group " ++ toString index ++
      "; was group " ++ toString earlier
  | .localeFlag => "bad inline flags: cannot use 'L' flag with a str pattern"
  | .incompatibleFlags => "bad inline flags: flags 'a', 'u' and 'L' are incompatible"
  | .missingFlagEnd => "missing -, : or )"
  | .missingFlag => "missing flag"
  | .missingColon => "missing :"
  | .unknownFlag => "unknown flag"
  | .globalFlagOn => "bad inline flags: cannot turn on global flag"
  | .globalFlagOff => "bad inline flags: cannot turn off global flag"
  | .typeFlagOff => "bad inline flags: cannot turn off flags 'a', 'u' and 'L'"
  | .flagOnAndOff => "bad inline flags: flag turned on and off"
  | .unbalancedParenthesis => "unbalanced parenthesis"
  | .variableLookbehind => "look-behind requires fixed-width pattern"
  | .repetitionTooLarge => "the repetition number is too large"
  | .conflictingFlags => "ASCII and UNICODE flags are incompatible"

end PatternFault

/-- A fault, the pattern it was found in, and where it stands, if it stands anywhere. -/
structure PatternError where
  fault : PatternFault
  pattern : List Char
  position : Option Nat
  deriving DecidableEq

namespace PatternError

/-- The line and the column of a position, both counted from one. -/
def lineAndColumn (pattern : List Char) (position : Nat) : Nat × Nat :=
  let before := pattern.take position
  (before.count '\n' + 1, (before.reverse.takeWhile (· != '\n')).length + 1)

def message (e : PatternError) : String :=
  match e.position with
  | none => e.fault.wording
  | some position =>
    let plain := e.fault.wording ++ " at position " ++ toString position
    if e.pattern.contains '\n' then
      let (line, column) := lineAndColumn e.pattern position
      plain ++ " (line " ++ toString line ++ ", column " ++ toString column ++ ")"
    else plain

end PatternError

end JsonMend
