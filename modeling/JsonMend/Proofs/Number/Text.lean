import Mathlib.Algebra.Order.Field.Rat
import Mathlib.Data.List.Induction
import Mathlib.Tactic.NormNum
import JsonMend.Json.Parser
import JsonMend.Json.Printer
/-
  What the texts of numbers look like.

  1. **Digits** — the digits of a natural number are ASCII digits, and reading stops behind them.
  2. **Numerals of JSON text** (`JsonNumeral`) — sign, whole part, fraction and exponent, each held in a form that
     JSON allows; reading gives back the number of the parts (`readNumber?_chars`).
  3. **Written numbers** (`writtenInt`, `DigitLayout.exists_numeral`) — an integer is written as a numeral of digits
     alone, a finite double as one with a fraction or an exponent, of the same value.
  4. **Told apart** (`write_int_inj`) — so the text of an integer, whatever follows it, is the text of no other number.
-/
namespace JsonMend

variable {c : Char} {text rest : List Char} {n : Nat}

/-! ## Digits -/

theorem isAsciiDigit_of_mem_writeDigits (h : c ∈ writeDigits n) : isAsciiDigit c = true :=
  Nat.isDigit_of_mem_toDigits (by decide) (by decide) h

theorem writeDigits_ne_nil (n : Nat) : writeDigits n ≠ [] := Nat.toDigits_ne_nil

/-- The leading digit of a positive number is no zero. -/
theorem head_writeDigits (hn : 0 < n) : (writeDigits n).head? ≠ some '0' := by
  have leading : ∀ d < 10, 0 < d → d.digitChar ≠ '0' := by decide
  induction n using Nat.strongRecOn with
  | ind n ih =>
    unfold writeDigits
    by_cases h : n < 10
    · rw [Nat.toDigits_of_lt_base h]
      exact fun hzero => leading n h hn (Option.some.inj hzero)
    · rw [Nat.toDigits_of_base_le (by decide) (by omega),
        List.head?_append, Option.or_of_isSome (by simp [Nat.toDigits_ne_nil])]
      exact ih (n / 10) (by omega) (by omega)

theorem readDigits_append (front back : List Char) :
    readDigits (front ++ back) = readDigits front * 10 ^ back.length + readDigits back := by
  rw [readDigits, Nat.ofDigitChars_append, Nat.ofDigitChars_eq_ofDigitChars_zero, Nat.mul_comm]
  rfl

theorem readDigits_replicate_zero (n : Nat) : readDigits (List.replicate n '0') = 0 := by
  rw [readDigits, Nat.ofDigitChars_replicate_zero, Nat.mul_zero]

theorem bounds_of_digit (h : isAsciiDigit c = true) : 48 ≤ c.toNat ∧ c.toNat ≤ 57 := by
  simpa [isAsciiDigit, Char.le_def, UInt32.le_iff_toNat_le] using h

theorem exists_digitChar (h : isAsciiDigit c = true) : ∃ k < 10, c = Nat.digitChar k := by
  have hbounds := bounds_of_digit h
  have digits : ∀ k < 10, Char.ofNat (48 + k) = Nat.digitChar k := by decide
  refine ⟨c.toNat - 48, by omega, ?_⟩
  rw [← digits _ (by omega), Nat.add_sub_cancel' hbounds.1, Char.ofNat_toNat]

/-- Digits that do not start with a zero are written as they were read. -/
theorem writeDigits_readDigits {digits : List Char} (ascii : ∀ c ∈ digits, isAsciiDigit c = true)
    (nonempty : digits ≠ []) (lead : digits.head? ≠ some '0') : writeDigits (readDigits digits) = digits := by
  have single : ∀ d, isAsciiDigit d = true → readDigits [d] < 10 ∧ (readDigits [d]).digitChar = d := by
    intro d hd
    obtain ⟨k, hk, rfl⟩ := exists_digitChar hd
    revert k
    decide
  -- on the last digit
  induction digits using List.reverseRecOn with
  | nil => exact absurd rfl nonempty
  | append_singleton front d ih =>
    obtain ⟨hlt, hchar⟩ := single d (ascii d (by simp))
    rw [readDigits_append, List.length_singleton, pow_one]
    cases front with
    | nil =>
      rw [show readDigits [] = 0 from rfl, Nat.zero_mul, Nat.zero_add, writeDigits,
        Nat.toDigits_of_lt_base hlt, hchar, List.nil_append]
    | cons c front =>
      have hfront := ih (fun x hx => ascii x (List.mem_append_left _ hx)) (by simp) (by simpa using lead)
      have hpos : 0 < readDigits (c :: front) := by
        refine Nat.pos_of_ne_zero fun hzero => ?_
        rw [hzero] at hfront
        exact lead (by rw [← hfront]; rfl)
      rw [writeDigits, Nat.toDigits_of_base_le (by decide) (by omega),
        show (readDigits (c :: front) * 10 + readDigits [d]) / 10 = readDigits (c :: front) by omega,
        show (readDigits (c :: front) * 10 + readDigits [d]) % 10 = readDigits [d] by omega, hchar]
      exact congrArg (· ++ [d]) hfront

/-- A text goes on with no digit. -/
def StopsDigits (rest : List Char) : Prop := ∀ c, rest.head? = some c → isAsciiDigit c = false

theorem stopsDigits_cons (h : isAsciiDigit c = false) : StopsDigits (c :: rest) := by
  rintro _ ⟨⟩
  exact h

/-- A scan takes all of the front and stops where its test fails. -/
theorem span_append {p : Char → Bool} {front : List Char} (taken : ∀ c ∈ front, p c = true)
    (stops : ∀ c, rest.head? = some c → p c = false) :
    (front ++ rest).takeWhile p = front ∧ (front ++ rest).dropWhile p = rest := by
  rw [List.takeWhile_append_of_pos taken, List.dropWhile_append_of_pos taken]
  cases rest with
  | nil => simp
  | cons c rest => simp [stops c rfl]

theorem spanDigits_append {digits : List Char} (ascii : ∀ c ∈ digits, isAsciiDigit c = true)
    (stops : StopsDigits rest) : spanDigits (digits ++ rest) = (digits, rest) := by
  obtain ⟨htake, hdrop⟩ := span_append ascii stops
  rw [spanDigits, htake, hdrop]

/-! ## Numerals of JSON text -/

/-- The exponent of a numeral: a sign may stand in front of its digits. -/
structure ExponentText where
  mark : Char
  sign : Option Bool
  digits : List Char
  isMark : mark = 'e' ∨ mark = 'E'
  ascii : ∀ c ∈ digits, isAsciiDigit c = true
  digits_ne_nil : digits ≠ []

/-- A numeral of JSON text.  The whole part starts with a zero only where it is that zero. -/
structure JsonNumeral where
  negative : Bool
  whole : List Char
  fraction : List Char
  exponent : Option ExponentText
  whole_ascii : ∀ c ∈ whole, isAsciiDigit c = true
  whole_ne_nil : whole ≠ []
  whole_lead : whole.head? = some '0' → whole = ['0']
  fraction_ascii : ∀ c ∈ fraction, isAsciiDigit c = true

/-- The sign in front of a numeral. -/
def signChars (negative : Bool) : List Char := if negative then ['-'] else []

namespace ExponentText

/-- The sign in front of an exponent's digits. -/
def signText : Option Bool → List Char
  | none => []
  | some true => ['-']
  | some false => ['+']

def chars (e : ExponentText) : List Char := e.mark :: (signText e.sign ++ e.digits)

def value (e : ExponentText) : Int :=
  if e.sign = some true then -(readDigits e.digits : Int) else readDigits e.digits

end ExponentText

namespace JsonNumeral

/-- The point and the digits behind it, where there are any. -/
def fractionChars (t : JsonNumeral) : List Char :=
  if t.fraction = [] then [] else '.' :: t.fraction

def exponentChars (t : JsonNumeral) : List Char := (t.exponent.map ExponentText.chars).getD []

def chars (t : JsonNumeral) : List Char :=
  signChars t.negative ++ (t.whole ++ (t.fractionChars ++ t.exponentChars))

/-- Whether the numeral is one of an integer. -/
def IsInteger (t : JsonNumeral) : Prop := t.fraction = [] ∧ t.exponent = none

instance (t : JsonNumeral) : Decidable t.IsInteger :=
  decidable_of_iff (t.fraction = [] ∧ t.exponent.isNone) (by simp [IsInteger])

/-- The exact value of the parts. -/
def decimal (t : JsonNumeral) : Decimal :=
  ⟨t.negative, readDigits (t.whole ++ t.fraction),
    (t.exponent.map ExponentText.value).getD 0 - t.fraction.length⟩

/-- The number that the numeral stands for. -/
def number (t : JsonNumeral) : Number :=
  if t.IsInteger then .int (if t.negative then -(readDigits t.whole : Int) else readDigits t.whole)
  else .real t.decimal.toBinary64

end JsonNumeral

/-- Whether the reader takes a number: integers of very many digits are refused. -/
def Number.isReadable : Number → Bool
  | .int i => digitCount i.natAbs ≤ digitLimit
  | .real _ => true

/-- A text goes on with nothing that a numeral could take in. -/
def StopsNumeral (rest : List Char) : Prop :=
  ∀ c, rest.head? = some c → isAsciiDigit c = false ∧ c ≠ '.' ∧ c ≠ 'e' ∧ c ≠ 'E'

theorem StopsNumeral.digits (stops : StopsNumeral rest) : StopsDigits rest :=
  fun c h => (stops c h).1

namespace JsonNumeral

theorem writeDigits_whole (t : JsonNumeral) : writeDigits (readDigits t.whole) = t.whole := by
  by_cases hzero : t.whole.head? = some '0'
  · rw [t.whole_lead hzero]
    rfl
  · exact writeDigits_readDigits t.whole_ascii t.whole_ne_nil hzero

/-- Behind the whole part no digit follows. -/
theorem stops_behindWhole (t : JsonNumeral) (stops : StopsNumeral rest) :
    StopsDigits (t.fractionChars ++ (t.exponentChars ++ rest)) := by
  unfold fractionChars
  split
  · cases hexp : t.exponent with
    | none => simpa [exponentChars, hexp] using stops.digits
    | some e =>
      simp only [exponentChars, hexp, Option.map_some, Option.getD_some, ExponentText.chars]
      exact stopsDigits_cons (by rcases e.isMark with h | h <;> rw [h] <;> decide)
  · exact stopsDigits_cons (by decide)

theorem readWhole?_whole (t : JsonNumeral) (stops : StopsDigits rest) :
    readWhole? (t.whole ++ rest) = some (t.whole, rest) := by
  obtain ⟨c, cs, hwhole⟩ := List.exists_cons_of_ne_nil t.whole_ne_nil
  by_cases hc : c = '0'
  · rw [t.whole_lead (by rw [hwhole, hc]; rfl)]
    rfl
  · have hspan := spanDigits_append t.whole_ascii stops
    rw [hwhole, List.cons_append] at hspan ⊢
    unfold readWhole?
    split
    · rename_i heq
      exact absurd (List.cons.inj heq).1 hc
    · rw [hspan]

theorem readFraction_fraction (t : JsonNumeral) (stops : StopsNumeral rest) :
    readFraction (t.fractionChars ++ (t.exponentChars ++ rest)) =
      (t.fraction, t.exponentChars ++ rest) := by
  -- Behind the fraction stands an exponent's mark, or what follows the numeral.
  have behind : ∀ c, (t.exponentChars ++ rest).head? = some c →
      isAsciiDigit c = false ∧ c ≠ '.' := by
    cases hexp : t.exponent with
    | none => simpa [exponentChars, hexp] using fun c h => ⟨(stops c h).1, (stops c h).2.1⟩
    | some e =>
      simp only [exponentChars, hexp, Option.map_some, Option.getD_some, ExponentText.chars]
      rintro _ ⟨⟩
      rcases e.isMark with h | h <;> rw [h] <;> decide
  unfold fractionChars
  split
  · rename_i hnone
    rw [hnone, List.nil_append]
    generalize t.exponentChars ++ rest = after at behind
    unfold readFraction
    split
    · exact absurd rfl (behind '.' rfl).2
    · rfl
  · rename_i hsome
    rw [List.cons_append]
    simp only [readFraction]
    rw [spanDigits_append t.fraction_ascii fun c h => (behind c h).1]
    split
    · rename_i heq
      exact absurd (Prod.mk.inj heq).1 hsome
    · rfl

theorem readExponent_exponent (t : JsonNumeral) (stops : StopsNumeral rest) :
    readExponent (t.exponentChars ++ rest) = (t.exponent.map ExponentText.value, rest) := by
  cases hexp : t.exponent with
  | none =>
    simp only [exponentChars, hexp, Option.map_none, Option.getD_none, List.nil_append]
    cases rest with
    | nil => rfl
    | cons c rest =>
      have hc : ¬(c = 'e' ∨ c = 'E') := fun h =>
        h.elim (stops c rfl).2.2.1 (stops c rfl).2.2.2
      simp only [readExponent, if_neg hc]
  | some e =>
    have hspan := spanDigits_append e.ascii stops.digits
    obtain ⟨d, ds, hdigits⟩ := List.exists_cons_of_ne_nil e.digits_ne_nil
    have hd : d ≠ '-' ∧ d ≠ '+' := by
      have : isAsciiDigit d = true := e.ascii d (by rw [hdigits]; exact List.mem_cons_self)
      constructor <;> rintro rfl <;> revert this <;> decide
    simp only [exponentChars, hexp, Option.map_some, Option.getD_some, ExponentText.chars,
      List.cons_append, List.append_assoc, readExponent, if_pos e.isMark]
    rcases hsign : e.sign with _ | _ | _
    · simp only [ExponentText.signText, List.nil_append, ExponentText.value, hsign]
      rw [hdigits, List.cons_append] at hspan ⊢
      simp [hspan, hd.1, hd.2]
    all_goals
      simp only [ExponentText.signText, List.cons_append, List.nil_append, ExponentText.value, hsign,
        hspan]
      simp [hdigits]

/-- A numeral starts with its sign or a digit. -/
theorem lead (t : JsonNumeral) : ∃ c cs, t.chars = c :: cs ∧ (c = '-' ∨ isAsciiDigit c = true) := by
  obtain ⟨c, cs, hwhole⟩ := List.exists_cons_of_ne_nil t.whole_ne_nil
  have hdigit : isAsciiDigit c = true := t.whole_ascii c (by rw [hwhole]; exact List.mem_cons_self)
  cases hneg : t.negative with
  | true => exact ⟨'-', t.whole ++ (t.fractionChars ++ t.exponentChars), by simp [chars, hneg, signChars], .inl rfl⟩
  | false =>
    exact ⟨c, cs ++ (t.fractionChars ++ t.exponentChars), by simp [chars, hneg, signChars, hwhole], .inr hdigit⟩

theorem isInteger_eq (t : JsonNumeral) :
    (t.fraction.isEmpty && (t.exponent.map ExponentText.value).isNone) = decide t.IsInteger := by
  rw [Bool.eq_iff_iff, decide_eq_true_iff]
  simp [IsInteger]

/-- Whether an integer has too many digits can be seen from its numeral. -/
theorem isReadable_number (t : JsonNumeral) (hint : t.IsInteger) :
    t.number.isReadable = true ↔ ¬digitLimit < t.whole.length := by
  have habs : (if t.negative then -(readDigits t.whole : Int) else readDigits t.whole).natAbs =
      readDigits t.whole := by split <;> simp
  rw [number, if_pos hint, Number.isReadable, habs, digitCount, t.writeDigits_whole, decide_eq_true_eq, Nat.not_lt]

/-- Reading a numeral gives the number of its parts and leaves what follows it, unless it has too many digits. -/
theorem readNumber?_chars (t : JsonNumeral) (stops : StopsNumeral rest) :
    readNumber? (t.chars ++ rest) = if t.number.isReadable then some (t.number, rest) else none := by
  obtain ⟨c, cs, hwhole⟩ := List.exists_cons_of_ne_nil t.whole_ne_nil
  have hc : c ≠ '-' := by
    have : isAsciiDigit c = true := t.whole_ascii c (by rw [hwhole]; exact List.mem_cons_self)
    rintro rfl
    revert this
    decide
  unfold readNumber?
  split
  rename_i negative unsigned heq
  obtain ⟨rfl, rfl⟩ : negative = t.negative ∧
      unsigned = t.whole ++ (t.fractionChars ++ (t.exponentChars ++ rest)) := by
    cases hneg : t.negative <;>
      simpa [chars, hneg, signChars, hwhole, hc, eq_comm] using heq
  simp only [Option.bind_eq_bind, readWhole?_whole t (t.stops_behindWhole stops), Option.bind_some,
    readFraction_fraction t stops, readExponent_exponent t stops, t.isInteger_eq, decide_eq_true_eq]
  by_cases hint : t.IsInteger
  · have hcount := t.isReadable_number hint
    by_cases hlong : digitLimit < t.whole.length
    · rw [if_neg fun h => hcount.mp h hlong]
      simp [hint, hlong]
    · rw [if_pos (hcount.mpr hlong)]
      simp [hint, hlong, number]
  · simp [hint, number, decimal, Number.isReadable]

end JsonNumeral

/-! ## Written numbers -/

theorem writeInt_eq (i : Int) : writeInt i = signChars (decide (i < 0)) ++ writeDigits i.natAbs := by
  unfold writeInt signChars
  by_cases h : i < 0 <;> simp [h]

/-- The digits of a natural number start with a zero only where they are that zero. -/
theorem writeDigits_lead (h : (writeDigits n).head? = some '0') : writeDigits n = ['0'] := by
  rcases Nat.eq_zero_or_pos n with rfl | hn
  · rfl
  · exact absurd h (head_writeDigits hn)

/-- The numeral in which an integer is written. -/
def intNumeral (i : Int) : JsonNumeral where
  negative := decide (i < 0)
  whole := writeDigits i.natAbs
  fraction := []
  exponent := none
  whole_ascii _ := isAsciiDigit_of_mem_writeDigits
  whole_ne_nil := writeDigits_ne_nil _
  whole_lead := writeDigits_lead
  fraction_ascii := by simp

theorem intNumeral_isInteger (i : Int) : (intNumeral i).IsInteger := ⟨rfl, rfl⟩

theorem intNumeral_chars (i : Int) : (intNumeral i).chars = writeInt i := by
  simp [JsonNumeral.chars, JsonNumeral.fractionChars, JsonNumeral.exponentChars, intNumeral, writeInt_eq]

theorem intNumeral_number (i : Int) : (intNumeral i).number = .int i := by
  rw [JsonNumeral.number, if_pos (intNumeral_isInteger i)]
  simp only [intNumeral, readDigits_writeDigits, decide_eq_true_eq, Number.int.injEq]
  split <;> omega

namespace DigitLayout

/-- The value of a written numeral is the value that was laid out. -/
structure Lays (t : JsonNumeral) (text : List Char) (d : Decimal) : Prop where
  chars_eq : t.chars = text
  negative_eq : t.negative = d.negative
  not_integer : ¬t.IsInteger
  magnitude_eq : t.decimal.magnitude = d.magnitude

variable {layout : DigitLayout} {d : Decimal}

theorem ascii_zero : ∀ c ∈ ['0'], isAsciiDigit c = true := List.forall_mem_singleton.mpr rfl

/-- Zero is written as such. -/
theorem lays_zero (hzero : d.coefficient = 0) : ∃ t, Lays t (layout.write d) d := by
  refine ⟨⟨d.negative, ['0'], ['0'], none, ascii_zero, by decide, by decide, ascii_zero⟩,
    ?_, rfl, by simp [JsonNumeral.IsInteger], ?_⟩
  · simp [JsonNumeral.chars, JsonNumeral.fractionChars, JsonNumeral.exponentChars, write, hzero, signChars]
  · have : readDigits ['0', '0'] = 0 := rfl
    simp [JsonNumeral.decimal, Decimal.magnitude, hzero, this]

/-- The digits of a coefficient, the first one apart. -/
theorem exists_digits {n : Nat} (hpos : 0 < n) : ∃ c cs, writeDigits n = c :: cs ∧
    (∀ x ∈ c :: cs, isAsciiDigit x = true) ∧ (c :: cs).head? ≠ some '0' ∧ readDigits (c :: cs) = n := by
  obtain ⟨c, cs, hdigits⟩ := List.exists_cons_of_ne_nil (writeDigits_ne_nil n)
  refine ⟨c, cs, hdigits, ?_⟩
  rw [← hdigits]
  exact ⟨fun _ => isAsciiDigit_of_mem_writeDigits, head_writeDigits hpos, readDigits_writeDigits n⟩

/-- With an exponent: the first digit, the others behind a point, and the place of the first. -/
theorem lays_scientific (hpos : 0 < d.coefficient)
    (hsci : d.exponent + (writeDigits d.coefficient).length - 1 < layout.leastPositional ∨
      layout.leastScientific ≤ d.exponent + (writeDigits d.coefficient).length - 1) :
    ∃ t, Lays t (layout.write d) d := by
  obtain ⟨c, cs, hdigits, hascii, hlead, hread⟩ := exists_digits hpos
  rw [hdigits] at hsci
  generalize hplace : d.exponent + ((c :: cs).length : Int) - 1 = place at hsci
  let width := layout.exponentWidth - (writeDigits place.natAbs).length
  refine ⟨⟨d.negative, [c], cs, some ⟨'e', some (decide (place < 0)),
      List.replicate width '0' ++ writeDigits place.natAbs, .inl rfl, ?_, ?_⟩,
      ?_, by simp, ?_, ?_⟩, ?_, rfl, by simp [JsonNumeral.IsInteger], ?_⟩
  · intro x hx
    rcases List.mem_append.mp hx with hx | hx
    · rw [List.eq_of_mem_replicate hx]
      decide
    · exact isAsciiDigit_of_mem_writeDigits hx
  · simp [writeDigits_ne_nil]
  · simpa using (List.forall_mem_cons.mp hascii).1
  · intro h
    exact absurd h hlead
  · exact (List.forall_mem_cons.mp hascii).2
  · simp only [write, hdigits, if_neg hpos.ne', hplace, if_pos hsci]
    cases cs <;> by_cases hneg : place < 0 <;>
      simp [JsonNumeral.chars, JsonNumeral.fractionChars, JsonNumeral.exponentChars, signChars,
        ExponentText.chars, ExponentText.signText, width, hneg]
  · have hexponent : readDigits (List.replicate width '0' ++ writeDigits place.natAbs) = place.natAbs := by
      rw [readDigits_append, readDigits_replicate_zero, readDigits_writeDigits, Nat.zero_mul, Nat.zero_add]
    have hvalue : (if place < 0 then -(place.natAbs : Int) else place.natAbs) = place := by
      split <;> omega
    have hexp : place - cs.length = d.exponent := by
      have : ((c :: cs).length : Int) = cs.length + 1 := by simp
      omega
    simp only [JsonNumeral.decimal, Decimal.magnitude, ExponentText.value, Option.map_some,
      Option.getD_some, Option.some.injEq, decide_eq_true_eq, hexponent, hvalue, hexp,
      List.cons_append, List.nil_append, hread]

/-- Below one: zeros behind the point, then the digits. -/
theorem lays_below (hpos : 0 < d.coefficient)
    (hpositional : ¬(d.exponent + (writeDigits d.coefficient).length - 1 < layout.leastPositional ∨
      layout.leastScientific ≤ d.exponent + (writeDigits d.coefficient).length - 1))
    (hbelow : d.exponent + (writeDigits d.coefficient).length - 1 < 0) :
    ∃ t, Lays t (layout.write d) d := by
  generalize hplace : d.exponent + ((writeDigits d.coefficient).length : Int) - 1 = place
    at hpositional hbelow
  refine ⟨⟨d.negative, ['0'], List.replicate (place.natAbs - 1) '0' ++ writeDigits d.coefficient, none,
      ascii_zero, by decide, by decide, ?_⟩, ?_, rfl, by simp [JsonNumeral.IsInteger, writeDigits_ne_nil], ?_⟩
  · intro x hx
    rcases List.mem_append.mp hx with hx | hx
    · rw [List.eq_of_mem_replicate hx]
      decide
    · exact isAsciiDigit_of_mem_writeDigits hx
  · simp only [write, if_neg hpos.ne', hplace, if_neg hpositional, if_pos hbelow]
    simp [JsonNumeral.chars, JsonNumeral.fractionChars, JsonNumeral.exponentChars, signChars,
      writeDigits_ne_nil]
  · have hread : readDigits (['0'] ++ (List.replicate (place.natAbs - 1) '0' ++ writeDigits d.coefficient)) =
        d.coefficient := by
      rw [readDigits_append, readDigits_append, readDigits_replicate_zero, readDigits_writeDigits,
        Nat.zero_mul, Nat.zero_add, show readDigits ['0'] = 0 from rfl, Nat.zero_mul, Nat.zero_add]
    have hexp : (0 : Int) - (List.replicate (place.natAbs - 1) '0' ++ writeDigits d.coefficient).length =
        d.exponent := by
      simp only [List.length_append, List.length_replicate]
      omega
    simp only [JsonNumeral.decimal, Decimal.magnitude, Option.map_none, Option.getD_none, hread, hexp]

/-- From one on: the point among the digits, or behind them and the zeros that make up the place. -/
theorem lays_positional (hpos : 0 < d.coefficient)
    (hpositional : ¬(d.exponent + (writeDigits d.coefficient).length - 1 < layout.leastPositional ∨
      layout.leastScientific ≤ d.exponent + (writeDigits d.coefficient).length - 1))
    (habove : ¬d.exponent + (writeDigits d.coefficient).length - 1 < 0) :
    ∃ t, Lays t (layout.write d) d := by
  obtain ⟨c, cs, hdigits, hascii, hlead, hread⟩ := exists_digits hpos
  rw [hdigits] at hpositional habove
  obtain ⟨place, hplace⟩ := Int.eq_ofNat_of_zero_le (Int.not_lt.mp habove)
  rw [hplace] at hpositional habove
  cases hdrop : cs.drop place with
  | cons x fraction =>
    have hsplit : c :: (cs.take place ++ (x :: fraction)) = c :: cs := by
      rw [← hdrop, List.take_append_drop]
    refine ⟨⟨d.negative, c :: cs.take place, x :: fraction, none, ?_, by simp, ?_, ?_⟩, ?_, rfl,
      by simp [JsonNumeral.IsInteger], ?_⟩
    · exact fun y hy => hascii y (by rw [← hsplit]; exact List.mem_append_left _ hy)
    · exact fun h => absurd h hlead
    · exact fun y hy => hascii y (by rw [← hsplit]; exact List.mem_append_right (c :: cs.take place) hy)
    · have hlong : place < cs.length := by
        by_contra h
        rw [List.drop_eq_nil_of_le (Nat.not_lt.mp h)] at hdrop
        cases hdrop
      simp only [write, if_neg hpos.ne', hdigits, hplace, if_neg hpositional, if_neg habove]
      simp [JsonNumeral.chars, JsonNumeral.fractionChars, JsonNumeral.exponentChars, signChars, hdrop,
        Nat.sub_eq_zero_of_le hlong.le]
    · have hlength : ((x :: fraction).length : Int) = cs.length - place := by
        rw [← hdrop, List.length_drop]
        have := congrArg List.length hdrop
        simp only [List.length_drop, List.length_cons] at this
        omega
      have hexp : 0 - ((x :: fraction).length : Int) = d.exponent := by
        rw [List.length_cons] at hplace
        omega
      simp only [JsonNumeral.decimal, Decimal.magnitude, Option.map_none, Option.getD_none, hexp,
        List.cons_append, hsplit, hread]
  | nil =>
    -- The digits end before the point: zeros make up the place, and one more stands behind the point.
    have hshort : cs.length ≤ place := List.drop_eq_nil_iff.mp hdrop
    refine ⟨⟨d.negative, c :: (cs ++ List.replicate (place - cs.length) '0'), ['0'], none, ?_, by simp, ?_,
      ascii_zero⟩, ?_, rfl, by simp [JsonNumeral.IsInteger], ?_⟩
    · intro y hy
      rw [← List.cons_append] at hy
      rcases List.mem_append.mp hy with hy | hy
      · exact hascii y hy
      · rw [List.eq_of_mem_replicate hy]
        decide
    · exact fun h => absurd h hlead
    · simp only [write, if_neg hpos.ne', hdigits, hplace, if_neg hpositional, if_neg habove]
      simp [JsonNumeral.chars, JsonNumeral.fractionChars, JsonNumeral.exponentChars, signChars, hdrop,
        List.take_of_length_le hshort]
    · have hzeros : readDigits (c :: (cs ++ List.replicate (place - cs.length) '0') ++ ['0']) =
          d.coefficient * 10 ^ (place - cs.length + 1) := by
        rw [← List.cons_append, List.append_assoc,
          show List.replicate (place - cs.length) '0' ++ ['0'] = List.replicate (place - cs.length + 1) '0' from
            List.replicate_succ'.symm,
          readDigits_append, readDigits_replicate_zero, List.length_replicate, hread, Nat.add_zero]
      have hexp : d.exponent = ((place - cs.length + 1 : Nat) : Int) + (0 - (['0'].length : Int)) := by
        rw [List.length_cons] at hplace
        simp only [List.length_singleton]
        omega
      simp only [JsonNumeral.decimal, Decimal.magnitude, Option.map_none, Option.getD_none, hzeros]
      rw [hexp, zpow_add₀ (by norm_num), zpow_natCast, Nat.cast_mul, Nat.cast_pow, mul_assoc]
      rfl

/-- The text of a numeral is a numeral of JSON text with the same sign and value, and never an integer's. -/
theorem exists_numeral (layout : DigitLayout) (d : Decimal) : ∃ t, Lays t (layout.write d) d := by
  rcases Nat.eq_zero_or_pos d.coefficient with hzero | hpos
  · exact lays_zero hzero
  by_cases hsci : d.exponent + (writeDigits d.coefficient).length - 1 < layout.leastPositional ∨
      layout.leastScientific ≤ d.exponent + (writeDigits d.coefficient).length - 1
  · exact lays_scientific hpos hsci
  by_cases hbelow : d.exponent + (writeDigits d.coefficient).length - 1 < 0
  · exact lays_below hpos hsci hbelow
  · exact lays_positional hpos hsci hbelow

end DigitLayout

/-! ## Told apart -/

/-- A numeral starts with a minus or a digit, with a minus exactly when it is negative. -/
theorem JsonNumeral.parts_inj {t u : JsonNumeral} {rest rest' : List Char} (stops : StopsNumeral rest)
    (stops' : StopsNumeral rest') (h : t.chars ++ rest = u.chars ++ rest') :
    t.negative = u.negative ∧ t.whole = u.whole ∧
      t.fractionChars ++ (t.exponentChars ++ rest) = u.fractionChars ++ (u.exponentChars ++ rest') := by
  have no_minus : ∀ {v : JsonNumeral} {text text' : List Char}, '-' :: text ≠ v.whole ++ text' := by
    intro v text text' heq
    obtain ⟨c, cs, hwhole⟩ := List.exists_cons_of_ne_nil v.whole_ne_nil
    rw [hwhole, List.cons_append] at heq
    have hminus := v.whole_ascii '-' (by rw [hwhole, (List.cons.inj heq).1]; exact List.mem_cons_self)
    revert hminus
    decide
  obtain ⟨hneg, hunsigned⟩ : t.negative = u.negative ∧
      t.whole ++ (t.fractionChars ++ (t.exponentChars ++ rest)) =
        u.whole ++ (u.fractionChars ++ (u.exponentChars ++ rest')) := by
    simp only [chars, List.append_assoc] at h
    cases ht : t.negative <;> cases hu : u.negative <;>
      simp only [ht, hu, signChars, if_true, if_false, Bool.false_eq_true, List.cons_append,
        List.nil_append] at h
    · exact ⟨rfl, h⟩
    · exact absurd h.symm no_minus
    · exact absurd h no_minus
    · exact ⟨rfl, (List.cons.inj h).2⟩
  have hspan := congrArg spanDigits hunsigned
  rw [spanDigits_append t.whole_ascii (t.stops_behindWhole stops),
    spanDigits_append u.whole_ascii (u.stops_behindWhole stops')] at hspan
  exact ⟨hneg, Prod.mk.inj hspan⟩

/-- Behind the whole part of a numeral that is no integer, the text goes on as a numeral. -/
theorem JsonNumeral.not_stops {t : JsonNumeral} (hreal : ¬t.IsInteger) :
    ¬StopsNumeral (t.fractionChars ++ (t.exponentChars ++ rest)) := by
  intro stops
  by_cases hfraction : t.fraction = []
  · cases hexp : t.exponent with
    | none => exact hreal ⟨hfraction, hexp⟩
    | some e =>
      have hstop := stops e.mark (by
        simp [fractionChars, hfraction, exponentChars, hexp, ExponentText.chars])
      rcases e.isMark with h | h
      · exact hstop.2.2.1 h
      · exact hstop.2.2.2 h
  · exact (stops '.' (by simp [fractionChars, hfraction])).2.1 rfl

theorem JsonNumeral.chars_ne_infinity {t : JsonNumeral} {negative : Bool} {rest' : List Char} :
    t.chars ++ rest ≠ (Number.real (.infinite negative)).write infinityWord ++ rest' := by
  obtain ⟨c, cs, hwhole⟩ := List.exists_cons_of_ne_nil t.whole_ne_nil
  have hc : c ≠ 'I' ∧ c ≠ '-' := by
    have hascii : isAsciiDigit c = true := t.whole_ascii c (by rw [hwhole]; exact List.mem_cons_self)
    constructor <;> rintro rfl <;> revert hascii <;> decide
  cases ht : t.negative <;> cases negative <;>
    simp [chars, ht, signChars, hwhole, Number.write, infinityWord, hc]

/-- The text of a finite double is a numeral, and no integer's. -/
theorem Finite64.exists_numeral (x : Finite64) : ∃ t : JsonNumeral, t.chars = x.write ∧ ¬t.IsInteger :=
  let ⟨t, lays⟩ := DigitLayout.exists_numeral .standard x.shortest
  ⟨t, lays.chars_eq, lays.not_integer⟩

/-- The text of an integer, whatever stands behind it, is the text of no other number. -/
theorem Number.write_int_inj {i : Int} {m : Number} {rest rest' : List Char} (stops : StopsNumeral rest)
    (stops' : StopsNumeral rest')
    (h : (Number.int i).write infinityWord ++ rest = m.write infinityWord ++ rest') :
    m = .int i ∧ rest' = rest := by
  rw [show (Number.int i).write infinityWord = (intNumeral i).chars from (intNumeral_chars i).symm] at h
  cases m with
  | int j =>
    rw [show (Number.int j).write infinityWord = (intNumeral j).chars from (intNumeral_chars j).symm] at h
    obtain ⟨hneg, hwhole, hrest⟩ := JsonNumeral.parts_inj stops stops' h
    have habs := congrArg readDigits hwhole
    simp only [intNumeral, readDigits_writeDigits, decide_eq_decide] at hneg habs
    exact ⟨by rw [show j = i by omega], hrest.symm⟩
  | real x =>
    cases x with
    | infinite negative => exact absurd h JsonNumeral.chars_ne_infinity
    | finite x =>
      obtain ⟨t, hchars, hreal⟩ := x.exists_numeral
      rw [show (Number.real (.finite x)).write infinityWord = t.chars from hchars.symm] at h
      obtain ⟨-, -, hrest⟩ := JsonNumeral.parts_inj stops stops' h
      -- The integer's text ends here, while the double's goes on with a point or an exponent.
      have hstops : StopsNumeral (t.fractionChars ++ (t.exponentChars ++ rest')) := by
        rw [← hrest]
        exact stops
      exact absurd hstops (JsonNumeral.not_stops hreal)

end JsonMend
