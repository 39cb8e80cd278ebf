import JsonMend.Text.Blank
import JsonMend.Text.Digit
import JsonMend.Text.Word
import JsonMend.Text.LetterCase
/-
  Regular expressions and what they match.

  Matching is backtracking in continuation style: `run r k c` matches `r` at the cursor `c` and hands
  each cursor it can reach, in order of preference, to the continuation `k`; the first success is the
  answer.  It is structural in the expression.  A repetition runs on a bound taken from the rest of
  the text: an iteration that consumes nothing is the last one, so no more iterations are possible
  than characters are left, plus one.

  Characters are compared by code point, because an expression may name code points that are no
  characters; those match nothing.
-/
namespace JsonMend

/-! ## Expressions -/

/-- How a character of the expression is compared with one of the text. -/
inductive CaseRule where
  | exact
  | anyCase
  | anyCaseAscii
  deriving DecidableEq

/-- The classes of characters with an escape of their own. -/
inductive CharClass where
  | digit
  | blank
  | word
  deriving DecidableEq

/-- A member of a character set. -/
inductive SetItem where
  | point (n : Nat)
  | range (first last : Nat)
  | ofClass (kind : CharClass) (asciiOnly negated : Bool)
  deriving DecidableEq

/-- A place in the text that is matched without consuming anything. -/
inductive Anchor where
  | textStart
  | lineStart
  | textEnd
  /-- The end of the text, or just before a final line break. -/
  | lastLineEnd
  | lineEnd
  | wordBoundary (asciiOnly negated : Bool)
  deriving DecidableEq

/-- In which order a repetition tries its counts: the most first, the fewest first, or the most and
no other. -/
inductive RepeatMode where
  | greedy
  | lazy
  | possessive
  deriving DecidableEq

inductive Regex where
  | empty
  | point (n : Nat) (rule : CaseRule)
  | any (lineBreaks : Bool)
  | set (negated : Bool) (items : List SetItem) (rule : CaseRule)
  | seq (first second : Regex)
  | either (first second : Regex)
  | group (index : Nat) (body : Regex)
  | repeated (mode : RepeatMode) (least : Nat) (most : Option Nat) (body : Regex)
  | asGroup (index : Nat) (rule : CaseRule)
  | anchor (place : Anchor)
  | ahead (negated : Bool) (body : Regex)
  /-- The body must match the last `width` characters before the cursor. -/
  | behind (negated : Bool) (width : Nat) (body : Regex)
  | atomic (body : Regex)
  | ifGroup (index : Nat) (yes no : Regex)
  deriving DecidableEq

/-! ## Single characters -/

def isAsciiPoint (n : Nat) : Bool := n < 128

/-- Whether a character is in a class. -/
def CharClass.holds (kind : CharClass) (asciiOnly : Bool) (c : Char) : Bool :=
  (!asciiOnly || isAsciiPoint c.toNat) &&
    match kind with
    | .digit => isDecimalDigit c
    | .blank => isBlank c && (!asciiOnly || c.toNat < 28 || c = ' ')
    | .word => isWordChar c

/-- The code points that are the same as a character up to case. -/
def caseOrbit (c : Char) : List Nat :=
  let low := lowerCase c
  let lows := match caseVariants.find? (·.contains low) with
    | some group => group
    | none => [low]
  let highs := lowerCaseRuns.flatMap fun (first, last, step, distance) =>
    (lows.map fun (n : Nat) => ((n : Int) - distance).toNat).filter fun n =>
      decide (first ≤ n) && decide (n ≤ last) && (n - first) % step == 0
  lows ++ highs

/-- The code points that a character of the text stands for under a rule. -/
def CaseRule.orbit (rule : CaseRule) (c : Char) : List Nat :=
  match rule with
  | .exact => [c.toNat]
  | .anyCase => caseOrbit c
  | .anyCaseAscii =>
    if isAsciiPoint c.toNat then [c.toLower.toNat, c.toUpper.toNat] else [c.toNat]

def CaseRule.matchesPoint (rule : CaseRule) (n : Nat) (c : Char) : Bool := (rule.orbit c).contains n

def SetItem.holds (rule : CaseRule) (c : Char) : SetItem → Bool
  | .point n => rule.matchesPoint n c
  | .range first last => (rule.orbit c).any fun n => decide (first ≤ n) && decide (n ≤ last)
  | .ofClass kind asciiOnly negated => kind.holds asciiOnly c != negated

/-- Whether two texts are the same under a rule. -/
def CaseRule.sameText (rule : CaseRule) : List Char → List Char → Bool
  | [], [] => true
  | a :: as, b :: bs => rule.matchesPoint a.toNat b && rule.sameText as bs
  | _, _ => false

/-! ## Matching -/

/-- A place in a text with what the groups have matched so far, the latest first. -/
structure Cursor where
  /-- What lies before the place, backwards. -/
  before : List Char
  after : List Char
  groups : List (Nat × List Char)

namespace Cursor

def start (text : List Char) : Cursor := ⟨[], text, []⟩

/-- Consumes the next character if it passes a test. -/
def step? (c : Cursor) (test : Char → Bool) : Option Cursor :=
  match c.after with
  | x :: rest => if test x then some { c with before := x :: c.before, after := rest } else none
  | [] => none

/-- Moves over the next `n` characters. -/
def forward : Nat → Cursor → Cursor
  | 0, c => c
  | n + 1, c =>
    match c.after with
    | x :: rest => forward n { c with before := x :: c.before, after := rest }
    | [] => c

/-- Moves back over the last `n` characters, if there are so many. -/
def back? : Nat → Cursor → Option Cursor
  | 0, c => some c
  | n + 1, c =>
    match c.before with
    | x :: rest => back? n { c with before := rest, after := x :: c.after }
    | [] => none

/-- Whether the word boundary test holds here; nothing is a boundary in an empty text. -/
def atBoundary (c : Cursor) (asciiOnly : Bool) : Bool :=
  let isWord (side : List Char) := match side with
    | x :: _ => CharClass.word.holds asciiOnly x
    | [] => false
  isWord c.before != isWord c.after

end Cursor

/-- Whether an anchor matches at a cursor. -/
def Anchor.holds (c : Cursor) : Anchor → Bool
  | .textStart => c.before.isEmpty
  | .lineStart => c.before.isEmpty || c.before.head? = some '\n'
  | .textEnd => c.after.isEmpty
  | .lastLineEnd => c.after.isEmpty || c.after = ['\n']
  | .lineEnd => c.after.isEmpty || c.after.head? = some '\n'
  | .wordBoundary asciiOnly negated =>
    !(c.before.isEmpty && c.after.isEmpty) && c.atBoundary asciiOnly != negated

/-- What matches at a cursor and hands the cursors behind it to a continuation. -/
abbrev Matcher := (Cursor → Option Cursor) → Cursor → Option Cursor

/-- A given number of iterations. -/
def repeatExactly (body : Matcher) : Nat → Matcher
  | 0, k, c => k c
  | n + 1, k, c => body (repeatExactly body n k) c

/-- As many further iterations as possible, then fewer. -/
def repeatGreedy (body : Matcher) (k : Cursor → Option Cursor) :
    Nat → Option Nat → Cursor → Option Cursor
  | 0, _, c => k c
  | bound + 1, most, c =>
    if most = some 0 then k c
    else
      let again (next : Cursor) :=
        if next.after.length = c.after.length then k next
        else repeatGreedy body k bound (most.map (· - 1)) next
      (body again c).or (k c)

/-- As few further iterations as possible, then more.  Behind an iteration that consumes nothing the continuation is
tried once more, because the groups may have matched something else. -/
def repeatLazy (body : Matcher) (k : Cursor → Option Cursor) :
    Nat → Option Nat → Cursor → Option Cursor
  | 0, _, c => k c
  | bound + 1, most, c =>
    match k c with
    | some found => some found
    | none =>
      if most = some 0 then none
      else
        body (fun next =>
          if next.after.length = c.after.length then k next
          else repeatLazy body k bound (most.map (· - 1)) next) c

namespace Regex

/-- Matches an expression at a cursor. -/
def run : Regex → Matcher
  | .empty, k, c => k c
  | .point n rule, k, c => (c.step? (rule.matchesPoint n)).bind k
  | .any lineBreaks, k, c => (c.step? fun x => lineBreaks || x != '\n').bind k
  | .set negated items rule, k, c =>
    (c.step? fun x => items.any (·.holds rule x) != negated).bind k
  | .seq first second, k, c => first.run (second.run k) c
  | .either first second, k, c =>
    match first.run k c with
    | some found => some found
    | none => second.run k c
  | .group index body, k, c =>
    body.run (fun next =>
      let matched := c.after.take (c.after.length - next.after.length)
      k { next with groups := (index, matched) :: next.groups }) c
  | .repeated mode least most body, k, c =>
    let further := most.map (· - least)
    match mode with
    | .greedy =>
      repeatExactly body.run least
        (fun next => repeatGreedy body.run k (next.after.length + 1) further next) c
    | .lazy =>
      repeatExactly body.run least
        (fun next => repeatLazy body.run k (next.after.length + 1) further next) c
    | .possessive =>
      let once : Matcher := fun k c => (body.run some c).bind k
      (repeatExactly once least
        (fun next => repeatGreedy once some (next.after.length + 1) further next) c).bind k
  | .asGroup index rule, k, c =>
    match c.groups.lookup index with
    | some matched =>
      if rule.sameText matched (c.after.take matched.length) then k (c.forward matched.length)
      else none
    | none => none
  | .anchor place, k, c => if place.holds c then k c else none
  | .ahead negated body, k, c =>
    match body.run some c, negated with
    | some found, false => k { c with groups := found.groups }
    | none, true => k c
    | _, _ => none
  | .behind negated width body, k, c =>
    match (c.back? width).bind (body.run some), negated with
    | some found, false => k { c with groups := found.groups }
    | none, true => k c
    | _, _ => none
  | .atomic body, k, c => (body.run some c).bind k
  | .ifGroup index yes no, k, c =>
    if (c.groups.lookup index).isSome then yes.run k c else no.run k c

/-- Whether an expression matches somewhere at or behind a cursor. -/
def foundFrom (r : Regex) : List Char → List Char → Bool
  | before, [] => (r.run some ⟨before, [], []⟩).isSome
  | before, x :: rest =>
    (r.run some ⟨before, x :: rest, []⟩).isSome || foundFrom r (x :: before) rest

/-- Whether an expression matches somewhere in a text. -/
def foundIn (r : Regex) (text : List Char) : Bool := r.foundFrom [] text

/-! ## Running it -/

example : (Regex.seq (.repeated .greedy 1 none (.point 97 .exact)) (.anchor .lastLineEnd)).foundIn
    ['b', 'a', 'a', '\n'] = true := by decide +kernel
example : (Regex.seq (.group 1 (.point 97 .exact)) (.asGroup 1 .exact)).foundIn
    ['a', 'b', 'a'] = false := by decide +kernel
example : (Regex.seq (.repeated .lazy 0 none (.group 1 .empty)) (.asGroup 1 .exact)).foundIn [] = true := by
  decide +kernel

end Regex

end JsonMend
