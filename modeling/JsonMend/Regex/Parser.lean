import JsonMend.Regex.Basic
import JsonMend.Regex.Error
/-
  Reading a pattern.

  A pattern is cut into tokens first: a character, or a backslash with the character behind it.  The
  reader keeps the tokens that are left, the position of the first of them, and what it knows of the
  groups.  Every recursive step happens behind a token, so twice the number of tokens bounds the
  steps; `Regex.parse` supplies that bound.

  The width of a look-behind is known only when all groups are, so it is filled in at the end.
-/
namespace JsonMend

/-! ## Tokens -/

inductive PatternToken where
  | plain (c : Char)
  | escaped (c : Char)
  /-- A backslash at the very end. -/
  | dangling
  deriving DecidableEq

namespace PatternToken

def text : PatternToken → List Char
  | .plain c => [c]
  | .escaped c => ['\\', c]
  | .dangling => ['\\']

def scan : List Char → List PatternToken
  | [] => []
  | ['\\'] => [.dangling]
  | '\\' :: c :: rest => .escaped c :: scan rest
  | c :: rest => .plain c :: scan rest

end PatternToken

/-! ## Widths -/

/-- The least and the greatest number of characters that an expression can match. -/
structure MatchWidth where
  least : Nat
  most : Option Nat
  deriving DecidableEq

namespace MatchWidth

def exactly (n : Nat) : MatchWidth := ⟨n, some n⟩

def add (a b : MatchWidth) : MatchWidth :=
  ⟨a.least + b.least, do return (← a.most) + (← b.most)⟩

def union (a b : MatchWidth) : MatchWidth :=
  ⟨min a.least b.least, do return max (← a.most) (← b.most)⟩

def times (a : MatchWidth) (least : Nat) (most : Option Nat) : MatchWidth :=
  ⟨a.least * least,
    match a.most, most with
    | some 0, _ => some 0
    | some w, some n => some (w * n)
    | _, some 0 => some 0
    | _, _ => none⟩

end MatchWidth

/-- The width of an expression, given those of the groups. -/
def Regex.width (groups : List (Nat × MatchWidth)) : Regex → MatchWidth
  | .empty | .anchor _ | .ahead _ _ | .behind _ _ _ => .exactly 0
  | .point _ _ | .any _ | .set _ _ _ => .exactly 1
  | .seq a b => (a.width groups).add (b.width groups)
  | .either a b => (a.width groups).union (b.width groups)
  | .group _ body | .atomic body => body.width groups
  | .repeated _ least most body => (body.width groups).times least most
  | .asGroup index _ => (groups.lookup index).getD (.exactly 0)
  | .ifGroup _ yes no => (yes.width groups).union (no.width groups)

/-- Fills in the widths of the look-behinds, each of which must match a fixed number of
characters. -/
def Regex.fixWidths (groups : List (Nat × MatchWidth)) : Regex → Except PatternFault Regex
  | .seq a b => return .seq (← a.fixWidths groups) (← b.fixWidths groups)
  | .either a b => return .either (← a.fixWidths groups) (← b.fixWidths groups)
  | .group index body => return .group index (← body.fixWidths groups)
  | .repeated mode least most body => return .repeated mode least most (← body.fixWidths groups)
  | .ahead negated body => return .ahead negated (← body.fixWidths groups)
  | .behind negated _ body => do
    let width := body.width groups
    if width.most ≠ some width.least then throw .variableLookbehind
    return .behind negated width.least (← body.fixWidths groups)
  | .atomic body => return .atomic (← body.fixWidths groups)
  | .ifGroup index yes no =>
    return .ifGroup index (← yes.fixWidths groups) (← no.fixWidths groups)
  | r => return r

/-! ## The reader -/

/-- The letters of the flags in force. -/
abbrev PatternFlags := List Char

def PatternFlags.caseRule (flags : PatternFlags) : CaseRule :=
  if !flags.contains 'i' then .exact
  else if flags.contains 'a' then .anyCaseAscii
  else .anyCase

/-- Flags with some turned on and some turned off; of the kinds of class only the last is kept. -/
def PatternFlags.change (flags on off : PatternFlags) : PatternFlags :=
  let choosesClass (flag : Char) : Bool := flag = 'a' || flag = 'u'
  let kept := if on.any choosesClass then flags.filter (!choosesClass ·) else flags
  (on ++ kept).filter (!off.contains ·)

structure PatternReader where
  pattern : List Char
  rest : List PatternToken
  /-- Where the first of the rest stands. -/
  position : Nat
  /-- The flags that hold for the whole pattern. -/
  flags : PatternFlags
  /-- How many groups were opened, and the widths of those that were closed. -/
  opened : Nat
  closed : List (Nat × MatchWidth)
  names : List (List Char × Nat)
  /-- Inside a look-behind: how many groups there were before it. -/
  lookbehindFrom : Option Nat
  /-- The groups that a condition asks for, each with the place where it does so first. -/
  conditions : List (Nat × Nat)

abbrev ReadPattern := StateT PatternReader (Except PatternError)

namespace ReadPattern

/-- Fails, at a distance before the next token. -/
def fail {α : Type} (fault : PatternFault) (back : Nat) : ReadPattern α := do
  let s ← get
  throw ⟨fault, s.pattern, some (s.position - back)⟩

def next? : ReadPattern (Option PatternToken) := do return (← get).rest.head?

/-- A backslash at the end is refused as soon as it comes next. -/
def refuseDangling : ReadPattern Unit := do
  if (← next?) = some .dangling then fail .danglingEscape 0

/-- Takes the next token. -/
def take? : ReadPattern (Option PatternToken) := do
  let s ← get
  match s.rest with
  | [] => return none
  | token :: rest =>
    set { s with rest := rest, position := s.position + token.text.length }
    refuseDangling
    return some token

/-- Takes the next token if it is a given character. -/
def takeIf (c : Char) : ReadPattern Bool := do
  if (← next?) = some (.plain c) then
    let _ ← take?
    return true
  else return false

/-- Takes characters while they pass a test, at most a given number of them. -/
def takeWhile (test : Char → Bool) : Nat → ReadPattern (List Char)
  | 0 => return []
  | n + 1 => do
    match ← next? with
    | some (.plain c) =>
      if test c then
        let _ ← take?
        return c :: (← takeWhile test n)
      else return []
    | _ => return []

/-- Takes a name up to its terminator, which is taken too. -/
def takeName (terminator : Char) (what : String) : Nat → List Char → ReadPattern (List Char)
  | 0, _ => fail .unexpectedEnd 0
  | n + 1, soFar => do
    match ← take? with
    | none =>
      if soFar.isEmpty then fail (.missingName what) 0
      else fail (.unterminatedName terminator) soFar.length
    | some token =>
      if token = .plain terminator then
        if soFar.isEmpty then fail (.missingName what) 1 else return soFar
      else takeName terminator what n (soFar ++ token.text)

/-- Takes a name of any length. -/
def name (terminator : Char) (what : String) : ReadPattern (List Char) := do
  takeName terminator what ((← get).rest.length + 1) []

end ReadPattern

open ReadPattern

/-! ## Escapes -/

def isOctalDigit (c : Char) : Bool := '0' ≤ c && c ≤ '7'
def isPatternDigit (c : Char) : Bool := '0' ≤ c && c ≤ '9'
def isHexDigit (c : Char) : Bool :=
  isPatternDigit c || ('a' ≤ c && c ≤ 'f') || ('A' ≤ c && c ≤ 'F')
def isAsciiLetter (c : Char) : Bool := ('a' ≤ c && c ≤ 'z') || ('A' ≤ c && c ≤ 'Z')

/-- The number written in a base of at most sixteen. -/
def readInBase (base : Nat) (digits : List Char) : Nat :=
  digits.foldl (fun n c =>
    base * n + (if c ≤ '9' then c.toNat - 48 else if c ≤ 'F' then c.toNat - 55 else c.toNat - 87)) 0

/-- The control character of a one-letter escape. -/
def controlEscape? : Char → Option Nat
  | 'a' => some 7
  | 'b' => some 8
  | 'f' => some 12
  | 'n' => some 10
  | 'r' => some 13
  | 't' => some 9
  | 'v' => some 11
  | '\\' => some 92
  | _ => none

/-- The character class of a one-letter escape, and whether it is negated. -/
def classEscape? : Char → Option (CharClass × Bool)
  | 'd' => some (.digit, false)
  | 'D' => some (.digit, true)
  | 's' => some (.blank, false)
  | 'S' => some (.blank, true)
  | 'w' => some (.word, false)
  | 'W' => some (.word, true)
  | _ => none

/-- The escapes that name a code point by number or name and mean the same everywhere.  The names of characters are
not held here, so an escape by name is refused whatever it names. -/
def readPointEscape? (c : Char) : ReadPattern (Option Nat) := do
  let byNumber (count : Nat) : ReadPattern (Option Nat) := do
    let digits ← takeWhile isHexDigit count
    let written := '\\' :: c :: digits
    if digits.length ≠ count then fail (.incompleteEscape written) written.length
    let n := readInBase 16 digits
    if 0x10FFFF < n then fail (.badEscape written) written.length
    return some n
  match c with
  | 'x' => byNumber 2
  | 'u' => byNumber 4
  | 'U' => byNumber 8
  | 'N' =>
    unless ← takeIf '{' do fail .missingBrace 0
    let charName ← name '}' "character name"
    fail (.undefinedCharacterName charName) (charName.length + 4)
  | _ => return none

/-- The literal meaning of an escape that has no other; a letter has none. -/
def readLiteralEscape (c : Char) : ReadPattern Nat := do
  if isAsciiLetter c || isPatternDigit c then fail (.badEscape ['\\', c]) 2
  return c.toNat

/-- An escape inside a character set. -/
def readSetEscape (flags : PatternFlags) (c : Char) : ReadPattern SetItem := do
  if let some n := controlEscape? c then return .point n
  if let some (kind, negated) := classEscape? c then
    return .ofClass kind (flags.contains 'a') negated
  if let some n ← readPointEscape? c then return .point n
  if isOctalDigit c then
    let digits := c :: (← takeWhile isOctalDigit 2)
    let n := readInBase 8 digits
    if 0o377 < n then fail (.octalTooLarge ('\\' :: digits)) (digits.length + 1)
    return .point n
  return .point (← readLiteralEscape c)

/-- Refuses a group that is still open or was opened in the look-behind being read. -/
def checkLookbehindGroup (index : Nat) : ReadPattern Unit := do
  let s ← get
  if let some before := s.lookbehindFrom then
    if (s.closed.lookup index).isNone then fail .openGroup 0
    if before < index then fail .groupOfSameLookbehind 0

/-- Digits behind a backslash: three octal digits are a code point, else one or two digits name a
group. -/
def readGroupEscape (flags : PatternFlags) (c : Char) : ReadPattern Regex := do
  let second ← takeWhile isPatternDigit 1
  let third ←
    if (c :: second).all isOctalDigit && second.length = 1 then takeWhile isOctalDigit 1
    else pure []
  let digits := c :: second ++ third
  if third.length = 1 then
    let n := readInBase 8 digits
    if 0o377 < n then fail (.octalTooLarge ('\\' :: digits)) (digits.length + 1)
    return .point n flags.caseRule
  let index := readInBase 10 digits
  let s ← get
  if s.opened < index then fail (.invalidGroupReference index) digits.length
  if (s.closed.lookup index).isNone then fail .openGroup (digits.length + 1)
  checkLookbehindGroup index
  return .asGroup index flags.caseRule

/-- An escape outside character sets. -/
def readEscape (flags : PatternFlags) (c : Char) : ReadPattern Regex := do
  let ascii := flags.contains 'a'
  match c with
  | 'A' => return .anchor .textStart
  | 'Z' => return .anchor .textEnd
  | 'b' => return .anchor (.wordBoundary ascii false)
  | 'B' => return .anchor (.wordBoundary ascii true)
  | _ =>
  if let some (kind, negated) := classEscape? c then
    return .set false [.ofClass kind ascii negated] flags.caseRule
  if let some n := controlEscape? c then return .point n flags.caseRule
  if let some n ← readPointEscape? c then return .point n flags.caseRule
  if c = '0' then
    return .point (readInBase 8 (← takeWhile isOctalDigit 2)) flags.caseRule
  if isPatternDigit c then readGroupEscape flags c
  else return .point (← readLiteralEscape c) flags.caseRule

/-! ## Character sets -/

/-- The member that a token of a set stands for. -/
def readSetItem (flags : PatternFlags) : PatternToken → ReadPattern SetItem
  | .escaped c => readSetEscape flags c
  | .plain c => return .point c.toNat
  | .dangling => fail .danglingEscape 0

/-- The members up to the closing bracket, which does not close a set that is still empty. -/
def readSetItems (flags : PatternFlags) (start : Nat) :
    Nat → List SetItem → ReadPattern (List SetItem)
  | 0, _ => fail .unexpectedEnd 0
  | bound + 1, soFar => do
    let unterminated {α : Type} : ReadPattern α := do
      throw ⟨.unterminatedSet, (← get).pattern, some start⟩
    let some token ← take? | unterminated
    if token = .plain ']' && !soFar.isEmpty then return soFar
    let item ← readSetItem flags token
    if ← takeIf '-' then
      let some last ← take? | unterminated
      if last = .plain ']' then return soFar ++ [item, .point '-'.toNat]
      let lastItem ← readSetItem flags last
      let badRange {α : Type} : ReadPattern α :=
        fail (.badRange token.text last.text) (token.text.length + 1 + last.text.length)
      match item, lastItem with
      | .point first, .point final =>
        if final < first then badRange
        readSetItems flags start bound (soFar ++ [.range first final])
      | _, _ => badRange
    else readSetItems flags start bound (soFar ++ [item])

/-- A character set whose opening bracket was taken. -/
def readSet (flags : PatternFlags) : ReadPattern Regex := do
  let start := (← get).position - 1
  let negated ← takeIf '^'
  let items ← readSetItems flags start ((← get).rest.length + 1) []
  return .set negated items flags.caseRule

/-! ## Repetitions -/

/-- A part of a sequence, with what matters to a repetition behind it. -/
inductive SequencePart where
  | plain (r : Regex)
  | anchored (r : Regex)
  | repeated (r : Regex)

def SequencePart.regex : SequencePart → Regex
  | .plain r | .anchored r | .repeated r => r

/-- No count may reach this. -/
def repetitionLimit : Nat := 4294967295

/-- The counts between braces, the opening brace having been taken; `none` when the brace is no more
than a character. -/
def readCounts? : ReadPattern (Option (Nat × Option Nat)) := do
  let s ← get
  if s.rest.head? = some (.plain '}') then return none
  let least ← takeWhile isPatternDigit s.rest.length
  let most ← if ← takeIf ',' then takeWhile isPatternDigit s.rest.length else pure least
  unless ← takeIf '}' do
    set s
    return none
  let least? := if least.isEmpty then none else some (readInBase 10 least)
  let most? := if most.isEmpty then none else some (readInBase 10 most)
  let tooLarge {α : Type} : ReadPattern α :=
    throw ⟨.repetitionTooLarge, s.pattern, none⟩
  if let some n := least? then if repetitionLimit ≤ n then tooLarge
  if let some n := most? then
    if repetitionLimit ≤ n then tooLarge
    if n < least?.getD 0 then throw ⟨.leastAboveMost, s.pattern, some s.position⟩
  return some (least?.getD 0, most?)

/-- The mode of a repetition, by the character behind its counts. -/
def readMode : ReadPattern RepeatMode := do
  if ← takeIf '?' then return .lazy
  if ← takeIf '+' then return .possessive
  return .greedy

/-- Repeats the last part of a sequence, given backwards. -/
def repeatLast (start : Nat) (least : Nat) (most : Option Nat) :
    List SequencePart → ReadPattern (List SequencePart)
  | .plain r :: earlier => do
    let mode ← readMode
    return .repeated (.repeated mode least most r) :: earlier
  | .repeated _ :: _ => do throw ⟨.multipleRepeat, (← get).pattern, some start⟩
  | _ => do throw ⟨.nothingToRepeat, (← get).pattern, some start⟩

/-! ## Flags -/

def isPatternFlag (c : Char) : Bool := ['i', 'L', 'm', 's', 'x', 'a', 't', 'u'].contains c

/-- The fault of a token that should have been a flag or an end. -/
def notAFlag (expected : PatternFault) (token : PatternToken) : PatternFault :=
  match token with
  | .plain c =>
    if isWordChar c && !isDecimalDigit c && c != '_' then .unknownFlag else expected
  | _ => expected

/-- The flags to turn on, the first of them given, and what ends them. -/
def readFlagsOn : Nat → Char → PatternFlags → ReadPattern (PatternFlags × Char)
  | 0, _, _ => fail .unexpectedEnd 0
  | bound + 1, flag, soFar => do
    if flag = 'L' then fail .localeFlag 0
    let on := soFar ++ [flag]
    if on.contains 'a' && on.contains 'u' then fail .incompatibleFlags 0
    match ← take? with
    | none => fail .missingFlagEnd 0
    | some token =>
      match token with
      | .plain c =>
        if [')', '-', ':'].contains c then return (on, c)
        if isPatternFlag c then readFlagsOn bound c on
        else fail (notAFlag .missingFlagEnd token) 1
      | _ => fail (notAFlag .missingFlagEnd token) token.text.length

/-- The flags to turn off, up to the colon. -/
def readFlagsOff (expected : PatternFault) : Nat → PatternFlags → ReadPattern PatternFlags
  | 0, _ => fail .unexpectedEnd 0
  | bound + 1, soFar => do
    match ← take? with
    | none => fail expected 0
    | some token =>
      if token = .plain ':' && !soFar.isEmpty then return soFar
      match token with
      | .plain c =>
        unless isPatternFlag c do fail (notAFlag expected token) 1
        if ['a', 'u', 'L'].contains c then fail .typeFlagOff 0
        readFlagsOff .missingColon bound (soFar ++ [c])
      | _ => fail (notAFlag expected token) token.text.length

/-- The flags of a group, the first character given: for the whole pattern (`none`), or those to turn
on and off inside the group. -/
def readFlags (first : Char) : ReadPattern (Option (PatternFlags × PatternFlags)) := do
  let bound := (← get).rest.length + 1
  let (on, ending) ← if first = '-' then pure ([], '-') else readFlagsOn bound first []
  if ending = ')' then
    modify fun s => { s with flags := on ++ s.flags }
    return none
  if on.contains 't' then fail .globalFlagOn 1
  let off ← if ending = '-' then readFlagsOff .missingFlag bound [] else pure []
  if off.contains 't' then fail .globalFlagOff 1
  if on.any off.contains then fail .flagOnAndOff 1
  return some (on, off)

/-! ## Groups -/

/-- Whether a text can be the name of a group. -/
def isGroupName : List Char → Bool
  | [] => false
  | c :: rest => isWordChar c && !isDecimalDigit c && rest.all isWordChar

def checkGroupName (groupName : List Char) : ReadPattern Unit := do
  unless isGroupName groupName do fail (.badGroupName groupName) (groupName.length + 1)

/-- Opens a group and gives its number. -/
def openGroup (groupName : Option (List Char)) : ReadPattern Nat := do
  let s ← get
  let index := s.opened + 1
  if let some groupName := groupName then
    if let some earlier := s.names.lookup groupName then
      fail (.groupNameTaken groupName index earlier) (groupName.length + 1)
  let named := match groupName with
    | some groupName => (groupName, index) :: s.names
    | none => s.names
  set { s with opened := index, names := named }
  return index

/-- The group that a condition asks for. -/
def readCondition : ReadPattern Nat := do
  let condition ← name ')' "group name"
  let here := (← get).position - condition.length - 1
  let bad {α : Type} (fault : PatternFault) : ReadPattern α := fail fault (condition.length + 1)
  let index ←
    if isGroupName condition then
      match (← get).names.lookup condition with
      | some index => pure index
      | none => bad (.unknownGroupName condition)
    else if condition.all isPatternDigit then
      let index := readInBase 10 condition
      if index = 0 then bad .badGroupNumber
      if 1073741823 ≤ index then bad (.invalidGroupReference index)
      modify fun s =>
        if (s.conditions.lookup index).isSome then s
        else { s with conditions := s.conditions ++ [(index, here)] }
      pure index
    else bad (.badGroupName condition)
  checkLookbehindGroup index
  return index

/-- What a group does with its body, once its opening has been read. -/
inductive GroupOpening where
  /-- Nothing is left to read: a comment, flags for the whole pattern, or a named back reference. -/
  | finished (part : Option SequencePart)
  | flagsForAll
  | capturing (groupName : Option (List Char))
  | grouping (on off : PatternFlags)
  | atomic
  | ahead (negated : Bool)
  | behind (negated : Bool)
  | condition (index : Nat)

/-- Skips a comment up to its closing parenthesis. -/
def skipComment (start : Nat) : Nat → ReadPattern Unit
  | 0 => fail .unexpectedEnd 0
  | bound + 1 => do
    match ← take? with
    | none => throw ⟨.unterminatedComment, (← get).pattern, some start⟩
    | some token => if token = .plain ')' then return () else skipComment start bound

/-- The part of a group between its parenthesis, which was taken, and its body. -/
def readOpening (flags : PatternFlags) (start : Nat) : ReadPattern GroupOpening := do
  unless ← takeIf '?' do return .capturing none
  let some token ← take? | fail .unexpectedEnd 0
  let unknown {α : Type} : ReadPattern α :=
    fail (.unknownExtension ('?' :: token.text)) (token.text.length + 1)
  match token with
  | .plain 'P' =>
    if ← takeIf '<' then
      let groupName ← name '>' "group name"
      checkGroupName groupName
      return .capturing (some groupName)
    if ← takeIf '=' then
      let groupName ← name ')' "group name"
      checkGroupName groupName
      match (← get).names.lookup groupName with
      | none => fail (.unknownGroupName groupName) (groupName.length + 1)
      | some index =>
        if ((← get).closed.lookup index).isNone then fail .openGroup (groupName.length + 1)
        checkLookbehindGroup index
        return .finished (some (.plain (.asGroup index flags.caseRule)))
    let some other ← take? | fail .unexpectedEnd 0
    fail (.unknownExtension ('?' :: 'P' :: other.text)) (other.text.length + 2)
  | .plain ':' => return .grouping [] []
  | .plain '#' =>
    skipComment start ((← get).rest.length + 1)
    return .finished none
  | .plain '=' => return .ahead false
  | .plain '!' => return .ahead true
  | .plain '<' =>
    let some direction ← take? | fail .unexpectedEnd 0
    if direction = .plain '=' then return .behind false
    if direction = .plain '!' then return .behind true
    fail (.unknownExtension ('?' :: '<' :: direction.text)) (direction.text.length + 2)
  | .plain '(' => return .condition (← readCondition)
  | .plain '>' => return .atomic
  | .plain c =>
    unless isPatternFlag c || c = '-' do unknown
    match ← readFlags c with
    | none => return .flagsForAll
    | some (on, off) => return .grouping on off
  | _ => unknown

/-! ## Sequences and alternatives -/

/-- The expression of parts given backwards. -/
def joinParts (parts : List SequencePart) : Regex :=
  match parts.map SequencePart.regex with
  | [] => .empty
  | last :: earlier => earlier.foldl (fun r part => .seq part r) last

/-- Takes the parenthesis that closes a group opened at a given place. -/
def closeGroup (start : Nat) : ReadPattern Unit := do
  unless ← takeIf ')' do throw ⟨.unterminatedGroup, (← get).pattern, some start⟩

def isVerboseSpace (c : Char) : Bool := [' ', '\t', '\n', '\r', '\x0b', '\x0c'].contains c

/-- Skips the rest of a line. -/
def skipLine : Nat → ReadPattern Unit
  | 0 => return ()
  | bound + 1 => do
    match ← take? with
    | none => return ()
    | some token => if token = .plain '\n' then return () else skipLine bound

mutual
/-- Alternatives, up to a closing parenthesis or the end. -/
def readAlternatives : Nat → PatternFlags → Bool → ReadPattern Regex
  | 0, _, _ => fail .unexpectedEnd 0
  | bound + 1, flags, outermost => do
    let first ← readSequence bound flags outermost []
    if ← takeIf '|' then
      let whole := (← get).flags
      let flags := if outermost then whole else flags
      return .either first (← readMoreAlternatives bound flags outermost)
    else return first
/-- Alternatives behind the first. -/
def readMoreAlternatives : Nat → PatternFlags → Bool → ReadPattern Regex
  | 0, _, _ => fail .unexpectedEnd 0
  | bound + 1, flags, outermost => do
    let first ← readSequence bound flags false []
    if ← takeIf '|' then return .either first (← readMoreAlternatives bound flags outermost)
    else return first
/-- A sequence whose parts so far are given backwards.  Flags for the whole pattern may stand only in
front of the very first part. -/
def readSequence : Nat → PatternFlags → Bool → List SequencePart → ReadPattern Regex
  | 0, _, _, _ => fail .unexpectedEnd 0
  | bound + 1, flags, flagsAllowed, parts => do
    let more (part : SequencePart) := readSequence bound flags flagsAllowed (part :: parts)
    match ← next? with
    | none | some (.plain '|') | some (.plain ')') => return joinParts parts
    | some token =>
      let _ ← take?
      let start := (← get).position - token.text.length
      match token with
      | .escaped c =>
        let r ← readEscape flags c
        match r with
        | .anchor _ => more (.anchored r)
        | _ => more (.plain r)
      | .dangling => fail .danglingEscape 0
      | .plain c =>
        if flags.contains 'x' && isVerboseSpace c then
          readSequence bound flags flagsAllowed parts
        else if flags.contains 'x' && c = '#' then
          skipLine ((← get).rest.length + 1)
          readSequence bound flags flagsAllowed parts
        else match c with
        | '[' => more (.plain (← readSet flags))
        | '.' => more (.plain (.any (flags.contains 's')))
        | '^' =>
          more (.anchored (.anchor (if flags.contains 'm' then .lineStart else .textStart)))
        | '$' =>
          more (.anchored (.anchor (if flags.contains 'm' then .lineEnd else .lastLineEnd)))
        | '?' =>
          readSequence bound flags flagsAllowed (← repeatLast start 0 (some 1) parts)
        | '*' => readSequence bound flags flagsAllowed (← repeatLast start 0 none parts)
        | '+' => readSequence bound flags flagsAllowed (← repeatLast start 1 none parts)
        | '{' =>
          match ← readCounts? with
          | none => more (.plain (.point c.toNat flags.caseRule))
          | some (least, most) =>
            readSequence bound flags flagsAllowed (← repeatLast start least most parts)
        | '(' =>
          match ← readOpening flags start with
          | .finished none => readSequence bound flags flagsAllowed parts
          | .finished (some part) => more part
          | .flagsForAll =>
            unless flagsAllowed && parts.isEmpty do
              throw ⟨.lateGlobalFlags, (← get).pattern, some start⟩
            readSequence bound ((← get).flags) flagsAllowed parts
          | .capturing groupName =>
            let index ← openGroup groupName
            let body ← readAlternatives bound flags false
            closeGroup start
            modify fun s => { s with closed := (index, body.width s.closed) :: s.closed }
            more (.plain (.group index body))
          | .grouping on off =>
            let body ← readAlternatives bound (flags.change on off) false
            closeGroup start
            more (.plain body)
          | .atomic =>
            let body ← readAlternatives bound flags false
            closeGroup start
            more (.plain (.atomic body))
          | .ahead negated =>
            let body ← readAlternatives bound flags false
            closeGroup start
            more (.plain (.ahead negated body))
          | .behind negated =>
            let outer := (← get).lookbehindFrom
            modify fun s => { s with lookbehindFrom := some (outer.getD s.opened) }
            let body ← readAlternatives bound flags false
            modify fun s => { s with lookbehindFrom := outer }
            closeGroup start
            more (.plain (.behind negated 0 body))
          | .condition index =>
            let yes ← readSequence bound flags false []
            let no ←
              if ← takeIf '|' then
                let no ← readSequence bound flags false []
                if (← next?) = some (.plain '|') then fail .tooManyBranches 0
                pure no
              else pure .empty
            closeGroup start
            more (.plain (.ifGroup index yes no))
        | _ => more (.plain (.point c.toNat flags.caseRule))
end

namespace Regex

/-- The whole pattern. -/
def readAll : ReadPattern Regex := do
  refuseDangling
  let bound := 2 * (← get).rest.length + 4
  let body ← readAlternatives bound [] true
  let s ← get
  if s.flags.contains 'a' && s.flags.contains 'u' then
    throw ⟨.conflictingFlags, s.pattern, none⟩
  unless s.rest.isEmpty do fail .unbalancedParenthesis 0
  if let some (index, position) := s.conditions.find? fun (index, _) => s.opened < index then
    throw ⟨.invalidGroupReference index, s.pattern, some position⟩
  match body.fixWidths s.closed with
  | .ok r => return r
  | .error fault => throw ⟨fault, s.pattern, none⟩

/-- The expression that a pattern stands for. -/
def parse (pattern : String) : Except PatternError Regex :=
  let text := pattern.toList
  readAll.run' ⟨text, PatternToken.scan text, 0, [], 0, [], [], none, []⟩

/-- Whether a pattern matches somewhere in a text. -/
def found (pattern text : String) : Except PatternError Bool := do
  return (← parse pattern).foundIn text.toList

end Regex

/-! ## Running it -/

example : (Regex.found "^a+$" "aaa\n").toOption = some true := by decide +kernel
example : (Regex.found "^[^a-c]\\.$" "d.").toOption = some true := by decide +kernel
example : ((Regex.parse "(").mapError PatternError.message).map (fun _ => ()) =
    .error "missing ), unterminated subpattern at position 0" := by rfl

end JsonMend
