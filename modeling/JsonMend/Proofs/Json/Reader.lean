import JsonMend.Proofs.Json.Leaves
import JsonMend.Proofs.Json.Read
import JsonMend.Proofs.Number.Text
/-
  The strict reader, one step at a time.

  1. **First characters** — which values a text can be the start of.
  2. **Entries** (`behindEntry`) — what comes behind an item is read in the same way as behind a member.
  3. **Long integers** (`Json.isReadable`) — the one thing in a value that keeps its text from being read.
-/
namespace JsonMend

/-! ## First characters -/

section
variable {c : Char} {cs rest : List Char} {fuel : Nat}

/-- A numeral starts with a minus or a digit. -/
theorem readNumber?_of_lead (minus : c ≠ '-') (digit : isAsciiDigit c = false) : readNumber? (c :: cs) = none := by
  have hwhole : readWhole? (c :: cs) = none := by
    have hzero : c ≠ '0' := by
      rintro rfl
      cases digit
    unfold readWhole?
    split
    · rename_i heq
      exact absurd (List.cons.inj heq).1 hzero
    · simp [spanDigits, digit]
  unfold readNumber?
  split
  rename_i negative unsigned heq
  obtain ⟨-, rfl⟩ : negative = false ∧ unsigned = c :: cs := by simpa [minus, eq_comm] using heq
  rw [hwhole]
  rfl

/-- A text that starts like nothing else is read as a number. -/
theorem readValue_number (other : c ∉ ['n', 't', 'f', '"', '[', '\x7b']) :
    readValue (fuel + 1) (c :: cs) = (readNumber? (c :: cs)).map fun (n, after) => (.num n, after) := by
  simp only [List.mem_cons, List.not_mem_nil, or_false, not_or] at other
  rw [readValue.eq_def]
  dsimp only
  split <;> simp_all

/-- **A numeral is read to its end**, unless it has too many digits. -/
theorem readValue_numeral (t : JsonNumeral) (stops : StopsNumeral rest) (fuel : Nat) :
    readValue (fuel + 1) (t.chars ++ rest) =
      if t.number.isReadable then some (.num t.number, rest) else none := by
  have hread := t.readNumber?_chars stops
  obtain ⟨c, cs, hchars, hc⟩ := t.lead
  have hother : c ∉ ['n', 't', 'f', '"', '[', '\x7b'] := by
    rcases hc with rfl | hdigit
    · decide
    · simp only [List.mem_cons, List.not_mem_nil, or_false, not_or]
      refine ⟨?_, ?_, ?_, ?_, ?_, ?_⟩ <;> rintro rfl <;> cases hdigit
  rw [hchars, List.cons_append] at hread ⊢
  rw [readValue_number hother, hread]
  cases t.number.isReadable <;> rfl

/-- A character that no value starts with. -/
def startsNothing (c : Char) : Bool :=
  c ≠ '-' && !isAsciiDigit c && c ∉ ['n', 't', 'f', '"', '[', '\x7b']

theorem readValue_of_startsNothing (h : startsNothing c = true) : readValue fuel (c :: cs) = none := by
  simp only [startsNothing, Bool.and_eq_true, decide_eq_true_eq, Bool.not_eq_true'] at h
  cases fuel with
  | zero => rfl
  | succ fuel =>
    rw [readValue_number h.2, readNumber?_of_lead h.1.1 h.1.2]
    rfl

theorem readValue_arr (items : (skipSpaces cs).head? ≠ some ']') :
    readValue (fuel + 1) ('[' :: cs) = (readItems fuel (skipSpaces cs)).map fun (xs, after) => (.arr xs, after) := by
  rw [readValue]
  split
  · rename_i hclose
    rw [hclose] at items
    exact absurd rfl items
  · rfl

theorem readValue_obj (members : (skipSpaces cs).head? ≠ some '\x7d') :
    readValue (fuel + 1) ('\x7b' :: cs) = (readMembers fuel (skipSpaces cs)).map fun (pairs, after) =>
      (.obj (collectMembers pairs), after) := by
  rw [readValue]
  split
  · rename_i hclose
    rw [hclose] at members
    exact absurd rfl members
  · rfl

theorem jsonSpace_cases (h : isJsonSpace c = true) : c = ' ' ∨ c = '\t' ∨ c = '\n' ∨ c = '\r' := by
  simpa [isJsonSpace, or_assoc] using h

theorem stopsNumeral_cons (h : isAsciiDigit c = false ∧ c ≠ '.' ∧ c ≠ 'e' ∧ c ≠ 'E') :
    StopsNumeral (c :: rest) := by
  rintro _ ⟨⟩
  exact h

theorem stopsNumeral_space (h : isJsonSpace c = true) : StopsNumeral (c :: rest) := by
  rcases jsonSpace_cases h with rfl | rfl | rfl | rfl <;> exact stopsNumeral_cons (by decide)

theorem skipSpaces_cons (shown : isJsonSpace c = false) : skipSpaces (c :: rest) = c :: rest :=
  List.dropWhile_cons_of_neg (by simp [shown])

end

/-! ## Entries -/

section
variable {α : Type} {close c : Char} {read : List Char → Option (List α × List Char)} {entry : α}
  {rest : List Char} {fuel : Nat}

/-- What is read behind an entry of a container: its closing bracket, or a comma and more entries. -/
def behindEntry (close : Char) (read : List Char → Option (List α × List Char)) (entry : α) :
    List Char → Option (List α × List Char)
  | [] => none
  | c :: rest =>
    if c = close then some ([entry], rest)
    else if c = ',' then (read (skipSpaces rest)).map fun (entries, final) => (entry :: entries, final)
    else none

theorem behindEntry_comma (h : close ≠ ',') : behindEntry close read entry (',' :: rest) =
    (read (skipSpaces rest)).map fun (entries, final) => (entry :: entries, final) := by
  simp [behindEntry, Ne.symm h]

theorem readItems_eq (text : List Char) : readItems (fuel + 1) text =
    (readValue fuel text).bind fun (item, after) =>
      behindEntry ']' (readItems fuel) item (skipSpaces after) := by
  rw [readItems]
  cases readValue fuel text with
  | none => rfl
  | some found =>
    obtain ⟨item, after⟩ := found
    simp only [Option.bind_eq_bind, Option.bind_some]
    rcases skipSpaces after with _ | ⟨c, rest⟩
    · rfl
    · by_cases hclose : c = ']' <;> by_cases hcomma : c = ',' <;>
        simp [behindEntry, hclose, hcomma, Option.map_eq_bind]

theorem readMembers_eq {key : List Char} {quotedKey afterKey afterColon : List Char}
    (hkey : readString quotedKey = some (key, afterKey)) (hcolon : skipSpaces afterKey = ':' :: afterColon) :
    readMembers (fuel + 1) ('"' :: quotedKey) =
      (readValue fuel (skipSpaces afterColon)).bind fun (value, after) =>
        behindEntry '\x7d' (readMembers fuel) (String.ofList key, value) (skipSpaces after) := by
  rw [readMembers, hkey]
  simp only [Option.bind_eq_bind, Option.bind_some, hcolon]
  cases readValue fuel (skipSpaces afterColon) with
  | none => rfl
  | some found =>
    obtain ⟨value, after⟩ := found
    simp only [Option.bind_some]
    rcases skipSpaces after with _ | ⟨c, rest⟩
    · rfl
    · by_cases hclose : c = '\x7d' <;> by_cases hcomma : c = ',' <;>
        simp [behindEntry, hclose, hcomma, Option.map_eq_bind]

theorem readItems_of_startsNothing (h : startsNothing c = true) : readItems fuel (c :: rest) = none := by
  cases fuel with
  | zero => rfl
  | succ fuel =>
    rw [readItems_eq, readValue_of_startsNothing h]
    rfl

theorem readMembers_of_noQuote (h : c ≠ '"') : readMembers fuel (c :: rest) = none := by
  cases fuel with
  | zero => rfl
  | succ fuel =>
    rw [readMembers]
    rintro quotedKey heq
    exact h (List.cons.inj heq).1

end

/-! ## Long integers -/

theorem ite_and_none {α : Type} {a b : Bool} {found : Option α} :
    (if a then (if b then found else none) else none) = if a && b then found else none := by
  cases a <;> rfl

theorem map_ite_none {α β : Type} {f : α → β} {a : Bool} {found : α} :
    (if a then some found else none).map f = if a then some (f found) else none := by
  cases a <;> rfl

/-- Whether no integer inside a value has too many digits to be read. -/
def Json.isReadable (v : Json) : Bool := v.numbers.all Number.isReadable

theorem Json.isReadable_arr_nil : (Json.arr []).isReadable = true := rfl

theorem Json.isReadable_obj_nil : (Json.obj []).isReadable = true := rfl

theorem Json.isReadable_cons (v : Json) (vs : List Json) :
    (Json.arr (v :: vs)).isReadable = (v.isReadable && (Json.arr vs).isReadable) := List.all_append

theorem Json.isReadable_member (key : String) (v : Json) (ms : Members) :
    (Json.obj ((key, v) :: ms)).isReadable = (v.isReadable && (Json.obj ms).isReadable) := List.all_append

end JsonMend
