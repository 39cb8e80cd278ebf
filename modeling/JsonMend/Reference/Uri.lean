/-
  URI references: their parts, and how a reference is read against a base.

  A reference with a scheme of its own stands for itself.  Any other takes from the base what it lacks,
  and its path, unless it starts with a slash, replaces the last step of the base's path; the steps
  `.` and `..` are then carried out.  Only the schemes in `hierarchical` have paths of this kind.
-/
namespace JsonMend

/-- The parts of a reference; an absent part is empty. -/
structure Uri where
  scheme : List Char
  authority : List Char
  path : List Char
  query : List Char
  fragment : List Char
  deriving DecidableEq

namespace Uri

/-- The schemes whose paths are read against a base, the absent one included. -/
def hierarchical : List String :=
  ["", "ftp", "http", "gopher", "nntp", "imap", "wais", "file", "https", "shttp", "mms",
   "prospero", "rtsp", "rtsps", "rtspu", "sftp", "svn", "svn+ssh", "ws", "wss"]

/-- The schemes that have an authority, the absent one included. -/
def withAuthority : List String :=
  ["", "ftp", "http", "gopher", "nntp", "telnet", "imap", "wais", "file", "mms", "https", "shttp",
   "snews", "prospero", "rtsp", "rtsps", "rtspu", "rsync", "svn", "svn+ssh", "sftp", "nfs", "git",
   "git+ssh", "ws", "wss"]

def isHierarchical (scheme : List Char) : Bool := hierarchical.contains (String.ofList scheme)
def hasAuthority (scheme : List Char) : Bool := withAuthority.contains (String.ofList scheme)

/-- The text before the first of a character, and the text behind it; without the character, all of
the text and nothing. -/
def cutAt (c : Char) (text : List Char) : List Char × List Char :=
  (text.takeWhile (· != c), (text.dropWhile (· != c)).drop 1)

def isSchemeChar (c : Char) : Bool := c.isAlphanum || c = '+' || c = '-' || c = '.'

/-- Controls and spaces in front go, and so do tabs and line breaks anywhere. -/
def clean (text : List Char) : List Char :=
  (text.dropWhile fun c => c.toNat ≤ 0x20).filter fun c => c != '\t' && c != '\r' && c != '\n'

/-- A scheme, if there is one, and the rest. -/
def splitScheme (text : List Char) : List Char × List Char :=
  let (scheme, rest) := cutAt ':' text
  let isScheme := text.contains ':' && scheme.all isSchemeChar &&
    match scheme with
    | first :: _ => first.isAlpha
    | [] => false
  if isScheme then (scheme.map Char.toLower, rest) else ([], text)

/-- The parts of a reference; without a scheme of its own it has the given one. -/
def parse (defaultScheme text : List Char) : Uri :=
  let (scheme, afterScheme) := splitScheme (clean text)
  let (authority, afterAuthority) := match afterScheme with
    | '/' :: '/' :: rest =>
      let inAuthority (c : Char) : Bool := c != '/' && c != '?' && c != '#'
      (rest.takeWhile inAuthority, rest.dropWhile inAuthority)
    | _ => ([], afterScheme)
  let (beforeFragment, fragment) := cutAt '#' afterAuthority
  let (path, query) := cutAt '?' beforeFragment
  ⟨if scheme.isEmpty then defaultScheme else scheme, authority, path, query, fragment⟩

/-- The text of a reference. -/
def write (u : Uri) : List Char :=
  let rooted := if u.path.isEmpty || u.path.head? = some '/' then u.path else '/' :: u.path
  let located :=
    if !u.authority.isEmpty || (!u.scheme.isEmpty && hasAuthority u.scheme) ||
        ['/', '/'].isPrefixOf u.path then
      '/' :: '/' :: (u.authority ++ rooted)
    else u.path
  (if u.scheme.isEmpty then [] else u.scheme ++ [':']) ++ located ++
    (if u.query.isEmpty then [] else '?' :: u.query) ++
    (if u.fragment.isEmpty then [] else '#' :: u.fragment)

/-- A path cut at its slashes. -/
def steps : List Char → List (List Char)
  | [] => [[]]
  | c :: rest =>
    if c = '/' then [] :: steps rest
    else
      match steps rest with
      | step :: more => (c :: step) :: more
      | [] => [[c]]

/-- Carries out the steps that stand for the same or the upper level. -/
def resolveDots (path : List (List Char)) : List (List Char) :=
  path.foldl (fun done step =>
    if step = ['.', '.'] then done.dropLast
    else if step = ['.'] then done
    else done ++ [step]) []

/-- A path relative to a base's path. -/
def joinPaths (base path : List Char) : List Char :=
  let upper := match (steps base).getLast? with
    | some [] => steps base
    | _ => (steps base).dropLast
  let all :=
    if path.head? = some '/' then steps path
    else
      match upper ++ steps path with
      | first :: rest => first :: (rest.dropLast.filter (!·.isEmpty) ++ rest.getLast?.toList)
      | [] => []
  let ending := if all.getLast? = some ['.'] || all.getLast? = some ['.', '.'] then [[]] else []
  let joined := (['/'] : List Char).intercalate (resolveDots all ++ ending)
  if joined.isEmpty then ['/'] else joined

/-- A reference read against a base. -/
def joinChars (base reference : List Char) : List Char :=
  if base.isEmpty then reference
  else if reference.isEmpty then base
  else
    let b := parse [] base
    let r := parse b.scheme reference
    if r.scheme ≠ b.scheme || !isHierarchical r.scheme then reference
    else if hasAuthority r.scheme && !r.authority.isEmpty then r.write
    else
      let r := if hasAuthority r.scheme then { r with authority := b.authority } else r
      if r.path.isEmpty then
        write { r with path := b.path, query := if r.query.isEmpty then b.query else r.query }
      else write { r with path := joinPaths b.path r.path }

/-- A reference read against a base. -/
def join (base reference : String) : String :=
  String.ofList (joinChars base.toList reference.toList)

/-- A reference without its fragment, and the fragment. -/
def splitFragment (reference : String) : String × String :=
  let text := reference.toList
  if text.contains '#' then
    let u := parse [] text
    (String.ofList (write { u with fragment := [] }), String.ofList u.fragment)
  else (reference, "")

/-! ## Percent signs -/

/-- The value of two hexadecimal digits. -/
def hexPair? (a b : Char) : Option Nat := do
  let value (c : Char) : Option Nat :=
    if '0' ≤ c ∧ c ≤ '9' then some (c.toNat - 48)
    else if 'a' ≤ c ∧ c ≤ 'f' then some (c.toNat - 87)
    else if 'A' ≤ c ∧ c ≤ 'F' then some (c.toNat - 55)
    else none
  return (← value a) * 16 + (← value b)

/-- A text as bytes, a percent sign with two hexadecimal digits standing for one byte. -/
def percentBytes : List Char → List UInt8
  | [] => []
  | '%' :: a :: b :: rest =>
    match hexPair? a b with
    | some n => n.toUInt8 :: percentBytes rest
    | none => String.utf8EncodeChar '%' ++ percentBytes (a :: b :: rest)
  | c :: rest => String.utf8EncodeChar c ++ percentBytes rest

/-- A text with its percent signs carried out, if the bytes that they stand for are text. -/
def decodePercent (text : String) : String :=
  if text.toList.contains '%' then
    (String.fromUTF8? (ByteArray.mk (percentBytes text.toList).toArray)).getD text
  else text

/-! ## Running it -/

example : join "/a/b/c?q" "../d#e" = "/a/d#e" ∧ join "urn:x" "#f" = "#f" := by cbv
example : splitFragment "a/b#/c" = ("a/b", "/c") := by cbv
example : decodePercent "a%20b%C3%A9" = "a bé" := by cbv

end Uri

end JsonMend
