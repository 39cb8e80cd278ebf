import JsonMend.Regex.Parser
import JsonMend.Json.Basic
/-
  The formats that are checked.

  A format says something of strings only; any other value has every format.  A format that is not
  listed here is one that every string has.
-/
namespace JsonMend

namespace Format

/-! ## Dates -/

def isLeapYear (year : Nat) : Bool := year % 4 = 0 && (year % 100 ≠ 0 || year % 400 = 0)

def daysInMonth (year month : Nat) : Nat :=
  if month = 2 then if isLeapYear year then 29 else 28
  else if [4, 6, 9, 11].contains month then 30
  else 31

/-- A year of four digits from 0001 on, a month and a day of two digits each, hyphens between. -/
def isDate : List Char → Bool
  | [y1, y2, y3, y4, '-', m1, m2, '-', d1, d2] =>
    let digits := [y1, y2, y3, y4, m1, m2, d1, d2]
    let year := readDigits [y1, y2, y3, y4]
    let month := readDigits [m1, m2]
    let day := readDigits [d1, d2]
    digits.all isPatternDigit && decide (1 ≤ year) && decide (1 ≤ month) && decide (month ≤ 12) &&
      decide (1 ≤ day) && decide (day ≤ daysInMonth year month)
  | _ => false

/-! ## Addresses -/

def isEmail (text : List Char) : Bool := text.contains '@'

/-- A number up to 255 in at most three digits, without a zero in front. -/
def isOctet (text : List Char) : Bool :=
  !text.isEmpty && text.all isPatternDigit && decide (text.length ≤ 3) &&
    (text = ['0'] || text.head? != some '0') && decide (readDigits text ≤ 255)

def cutAll (c : Char) : List Char → List (List Char)
  | [] => [[]]
  | x :: rest =>
    if x = c then [] :: cutAll c rest
    else
      match cutAll c rest with
      | part :: parts => (x :: part) :: parts
      | [] => [[x]]

/-- Four octets with points between. -/
def isIpv4 (text : List Char) : Bool :=
  let octets := cutAll '.' text
  octets.length == 4 && octets.all isOctet

/-- One to four hexadecimal digits. -/
def isHextet (text : List Char) : Bool :=
  !text.isEmpty && text.all isHexDigit && decide (text.length ≤ 4)

/-- How many groups of sixteen bits a colon-separated text holds, if every part is one; where
`mayEndInIpv4`, the last part may be an IPv4 address, which counts for two. -/
def groupCount? (mayEndInIpv4 : Bool) (text : List Char) : Option Nat :=
  let parts := cutAll ':' text
  if parts.all isHextet then some parts.length
  else if mayEndInIpv4 && parts.dropLast.all isHextet && (parts.getLast?.any isIpv4) then
    some (parts.length + 1)
  else none

/-- The texts before and behind the first double colon. -/
def cutAtDoubleColon : List Char → Option (List Char × List Char)
  | ':' :: ':' :: rest => some ([], rest)
  | c :: rest => (cutAtDoubleColon rest).map fun (before, behind) => (c :: before, behind)
  | [] => none

/-- Eight groups; or fewer, with a double colon in the place of one or more groups of zeros. -/
def isIpv6 (text : List Char) : Bool :=
  match cutAtDoubleColon text with
  | none => groupCount? true text == some 8
  | some (before, behind) =>
    let groups (mayEndInIpv4 : Bool) (part : List Char) : Option Nat :=
      if part.isEmpty then some 0 else groupCount? mayEndInIpv4 part
    match groups false before, groups true behind with
    | some m, some n => decide (m + n ≤ 7)
    | _, _ => false

/-! ## All formats -/

/-- Whether a value has a format.  A pattern that is well formed but asks for what cannot be done is
neither one that has the format of a pattern nor one that has not. -/
def holds (format : String) (v : Json) : Except PatternError Bool :=
  match v with
  | .str s =>
    let text := s.toList
    match format with
    | "date" => .ok (isDate text)
    | "email" => .ok (isEmail text)
    | "idn-email" => .ok (isEmail text)
    | "ipv4" => .ok (isIpv4 text)
    | "ipv6" => .ok (isIpv6 text)
    | "regex" =>
      match Regex.parse s with
      | .ok _ => .ok true
      | .error error => if error.fault.isMalformed then .ok false else .error error
    | _ => .ok true
  | _ => .ok true

/-! ## Running it -/

example : isDate "2024-02-29".toList ∧ ¬ isDate "2023-02-29".toList ∧ ¬ isDate "0000-01-01".toList := by
  decide +kernel
example : isIpv4 "192.168.0.1".toList ∧ ¬ isIpv4 "1.2.3.04".toList ∧ ¬ isIpv4 "1.2.3".toList := by
  decide +kernel
example : isIpv6 "::ffff:1.2.3.4".toList ∧ isIpv6 "1::".toList ∧ ¬ isIpv6 "1::2::3".toList ∧
    ¬ isIpv6 ":::".toList := by decide +kernel

end Format

end JsonMend
