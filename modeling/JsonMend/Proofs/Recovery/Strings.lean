import JsonMend.Recovery.Correction
import JsonMend.Proofs.Json.Literal
import JsonMend.Proofs.Json.Reader
import JsonMend.Proofs.Recovery.Syntax
/-
  Where strings begin and end in a text, and that a text that is read ends outside of them.

  `LexState` goes through any text, strict or not, and looks out for three things only: whether a string is open,
  whether a string has just been closed, and whether a comma still waits for what comes behind it.  Where a text
  cannot be strict any more, it is broken, and stays so.

  1. **States** — a value may begin where the state is ready and has ended where it is settled.
  2. **Strings and numerals** (`run_of_body`, `run_of_readNumber?`) — what the reader takes for a string opens
     and closes one, and there is none inside a numeral.
  3. **Values** (`settles_of_read`) — by induction on the fuel, for the three readers at once: what is read takes
     each ready state to a settled one.
  4. **Texts** (`settled_of_parse`) — so a text with an open string, with a letter behind a string or with a bracket
     behind a comma is not read.
-/
namespace JsonMend

open Relaxed

/-! ## States -/

/-- Where one stands in a text who looks out for strings only. -/
inductive LexState where
  | outside
  /-- Behind a string, white space aside. -/
  | behindString
  /-- Behind a comma, blanks aside. -/
  | behindComma
  | inside
  /-- Inside a string, behind a backslash. -/
  | escaped
  /-- No strict text goes on like this. -/
  | broken
  deriving DecidableEq

namespace LexState

/-- One character on. -/
def next : LexState → Char → LexState
  | outside, c => if c = '"' then inside else if c = ',' then behindComma else outside
  | behindString, c =>
    if isJsonSpace c then behindString
    else if c = '"' then inside
    else if c = ',' then behindComma
    else if Correction.isKeyStart c then broken else outside
  | behindComma, c =>
    if isBlank c then behindComma
    else if c = '"' then inside
    else if c = ',' then behindComma
    else if c = ']' || c = '\x7d' then broken else outside
  | inside, c =>
    if c = '\\' then escaped
    else if c = '"' then behindString
    else if c.toNat < 0x20 then broken else inside
  | escaped, c => if c.toNat < 0x20 then broken else inside
  | broken, _ => broken

/-- Through a text. -/
def run (s : LexState) (text : List Char) : LexState := text.foldl next s

@[simp] theorem run_nil (s : LexState) : s.run [] = s := rfl

@[simp] theorem run_cons (s : LexState) (c : Char) (text : List Char) : s.run (c :: text) = (s.next c).run text := rfl

theorem run_append (s : LexState) (front back : List Char) : s.run (front ++ back) = (s.run front).run back :=
  List.foldl_append

@[simp] theorem run_broken (text : List Char) : broken.run text = broken := by
  induction text with
  | nil => rfl
  | cons c text ih => exact ih

/-- A value may begin. -/
def Ready (s : LexState) : Prop := s = outside ∨ s = behindComma

instance (s : LexState) : Decidable s.Ready := inferInstanceAs (Decidable (s = outside ∨ s = behindComma))

/-- A value may have ended. -/
def Settled (s : LexState) : Prop := s = outside ∨ s = behindString

instance (s : LexState) : Decidable s.Settled := inferInstanceAs (Decidable (s = outside ∨ s = behindString))

variable {s : LexState} {c : Char} {cs : List Char}

/-! ### One character -/

/-- A test tells two characters apart. -/
theorem ne_of_test {p : Char → Bool} {c d : Char} (h : p c = true) (h' : p d = false) : c ≠ d := by
  rintro rfl
  rw [h] at h'
  cases h'

theorem Settled.comma (h : s.Settled) : s.next ',' = behindComma := by
  rcases h with rfl | rfl <;> decide

theorem Settled.close (h : s.Settled) (hc : c = ']' ∨ c = '\x7d' ∨ c = ':') : s.next c = outside := by
  rcases h with rfl | rfl <;> rcases hc with rfl | rfl | rfl <;> decide

theorem Ready.quote (h : s.Ready) : s.next '"' = inside := by
  rcases h with rfl | rfl <;> decide

theorem Ready.bracket (h : s.Ready) (hc : c = '[' ∨ c = '\x7b') : s.next c = outside := by
  rcases h with rfl | rfl <;> rcases hc with rfl | rfl <;> decide

/-- A character that leads a value and opens no string. -/
theorem Ready.lead (h : s.Ready) (hc : IsLead c) (quote : c ≠ '"') : s.next c = outside := by
  rcases h with rfl | rfl
  · rw [next, if_neg quote, if_neg hc.noComma]
  · rw [next, if_neg (by simp [hc.shown]), if_neg quote, if_neg hc.noComma, if_neg (by simp [hc.noBracket, hc.noBrace])]

theorem inside_plain (quote : c ≠ '"') (backslash : c ≠ '\\') (shown : 0x20 ≤ c.toNat) : inside.next c = inside := by
  rw [next, if_neg backslash, if_neg quote, if_neg (by omega)]

theorem outside_plain (quote : c ≠ '"') (comma : c ≠ ',') : outside.next c = outside := by
  rw [next, if_neg quote, if_neg comma]

/-! ### Several characters -/

/-- **What each character of a kind keeps, a text of such characters keeps.** -/
theorem run_keeps {P : LexState → Prop} {test : Char → Bool} (h : P s) (all : ∀ c ∈ cs, test c = true)
    (step : ∀ {s c}, P s → test c = true → P (s.next c)) : P (s.run cs) := by
  induction cs generalizing s with
  | nil => exact h
  | cons c cs ih =>
    rw [List.forall_mem_cons] at all
    exact ih (step h all.1) all.2

theorem settled_spaces (h : s.Settled) (spaces : ∀ c ∈ cs, isJsonSpace c = true) : (s.run cs).Settled := by
  refine run_keeps h spaces fun hs hspace => ?_
  rcases hs with rfl | rfl
  · left
    rcases jsonSpace_cases hspace with rfl | rfl | rfl | rfl <;> rfl
  · right
    rw [next, if_pos hspace]

theorem ready_blanks (h : s.Ready) (blank : ∀ c ∈ cs, isBlank c = true) : (s.run cs).Ready := by
  refine run_keeps h blank fun hs hblank => ?_
  rcases hs with rfl | rfl
  · exact .inl (outside_plain (ne_of_test hblank (by decide)) (ne_of_test hblank (by decide)))
  · exact .inr (if_pos hblank)

theorem ready_spaces (h : s.Ready) (spaces : ∀ c ∈ cs, isJsonSpace c = true) : (s.run cs).Ready :=
  ready_blanks h fun c hc => isBlank_of_isJsonSpace (spaces c hc)

end LexState

open LexState

/-! ## Strings -/

section
variable {c : Char} {cs text rest after : List Char} {units : List Nat} {n : Nat}

theorem inside_hex (h : hexValue? c = some n) : inside.next c = inside := by
  refine inside_plain (by rintro rfl; cases h) (by rintro rfl; cases h) ?_
  have hdigit : ('0' ≤ c ∧ c ≤ '9') ∨ ('a' ≤ c ∧ c ≤ 'f') ∨ 'A' ≤ c ∧ c ≤ 'F' := by
    by_contra hnone
    simp only [not_or] at hnone
    rw [hexValue?, if_neg hnone.1, if_neg hnone.2.1, if_neg hnone.2.2] at h
    cases h
  simp only [Char.le_def, UInt32.le_iff_toNat_le] at hdigit
  change 0x20 ≤ c.val.toNat
  rcases hdigit with ⟨hlow, -⟩ | ⟨hlow, -⟩ | ⟨hlow, -⟩ <;> exact le_trans (by decide) hlow

theorem shown_of_escape {d : Char} (h : simpleEscape? c = some d) : ¬c.toNat < 0x20 := by
  unfold simpleEscape? at h
  split at h <;> first | decide | cases h

/-- What is between the quotes of a string that is read does not close it. -/
theorem run_of_body (h : StringBody cs units) : inside.run cs = inside := by
  induction h with
  | nil => rfl
  | @unit a b c d _ _ _ hunit _ ih =>
    have hdigits : ∀ x ∈ [a, b, c, d], inside.next x = inside := fun x hx =>
      inside_hex (hexValue_of_hexUnit hunit x hx).choose_spec
    simp only [List.forall_mem_cons] at hdigits
    obtain ⟨ha, hb, hc, hd, -⟩ := hdigits
    have hopen : (inside.next '\\').next 'u' = inside := by decide
    rw [run_cons, run_cons, hopen, run_cons, ha, run_cons, hb, run_cons, hc, run_cons, hd, ih]
  | @letter e _ _ _ hescape _ ih =>
    have hopen : (inside.next '\\').next e = inside := if_neg (shown_of_escape hescape)
    rw [run_cons, run_cons, hopen, ih]
  | plain hquote hbackslash hshown _ ih => rw [run_cons, inside_plain hquote hbackslash hshown, ih]

/-- What is read as a string, opened and closed. -/
theorem run_of_readString {key : List Char} (h : readString cs = some (key, after)) :
    ∃ body, cs = body ++ '"' :: after ∧ ∀ s : LexState, s.Ready → s.run ('"' :: (body ++ ['"'])) = behindString := by
  obtain ⟨body, _, hbody, hunits, -⟩ := StringBody.of_readString h
  refine ⟨body, hbody, fun s hs => ?_⟩
  rw [run_cons, hs.quote, run_append, run_of_body hunits]
  rfl

/-! ## Numerals -/

/-- A character of a numeral. -/
def isNumeralChar (c : Char) : Bool := isAsciiDigit c || c ∈ ['-', '+', '.', 'e', 'E']

theorem lead_of_numeralChar (h : isNumeralChar c = true) : IsLead c ∧ c ≠ '"' := by
  rw [isNumeralChar, Bool.or_eq_true, decide_eq_true_eq] at h
  rcases h with h | h
  · refine ⟨isLead_of_digit h, ?_⟩
    rintro rfl
    cases h
  · simp only [List.mem_cons, List.not_mem_nil, or_false] at h
    rcases h with rfl | rfl | rfl | rfl | rfl <;> decide

/-- A part of a numeral stands at the front of a text. -/
def Fronts (text rest : List Char) : Prop := ∃ read, text = read ++ rest ∧ ∀ c ∈ read, isNumeralChar c = true

theorem Fronts.refl (text : List Char) : Fronts text text := ⟨[], rfl, fun _ hc => absurd hc List.not_mem_nil⟩

theorem Fronts.cons (h : Fronts text rest) (hc : isNumeralChar c = true) : Fronts (c :: text) rest := by
  obtain ⟨read, rfl, hread⟩ := h
  exact ⟨c :: read, rfl, List.forall_mem_cons.mpr ⟨hc, hread⟩⟩

theorem Fronts.trans (h : Fronts text rest) (h' : Fronts rest after) : Fronts text after := by
  obtain ⟨read, rfl, hread⟩ := h
  obtain ⟨read', rfl, hread'⟩ := h'
  exact ⟨read ++ read', (List.append_assoc ..).symm, List.forall_mem_append.mpr ⟨hread, hread'⟩⟩

theorem fronts_spanDigits (text : List Char) : Fronts text (spanDigits text).2 :=
  ⟨(spanDigits text).1, List.takeWhile_append_dropWhile.symm, fun c hc => by
    rw [isNumeralChar, List.all_eq_true.mp List.all_takeWhile c hc]
    rfl⟩

theorem fronts_readFraction (text : List Char) : Fronts text (readFraction text).2 := by
  unfold readFraction
  split
  · rename_i after
    split
    · exact .refl _
    · exact (fronts_spanDigits after).cons (by decide)
  · exact .refl _

theorem fronts_readExponent (text : List Char) : Fronts text (readExponent text).2 := by
  unfold readExponent
  split
  · rename_i e after
    split
    · rename_i he
      have hmark : isNumeralChar e = true := by rcases he with rfl | rfl <;> decide
      -- the sign is part of the exponent only if a digit stands behind it
      have hdigits : ∀ {digits : List Char}, Fronts after digits → Fronts (e :: after) (spanDigits digits).2 :=
        fun h => (h.trans (fronts_spanDigits _)).cons hmark
      split
      rename_i negative digits heq
      have hsign : Fronts after digits := by
        split at heq
        · cases heq
          exact (Fronts.refl _).cons (by decide)
        · cases heq
          exact (Fronts.refl _).cons (by decide)
        · cases heq
          exact .refl _
      split
      · exact .refl _
      · rename_i found
        have hrest := hdigits hsign
        rwa [found] at hrest
    · exact .refl _
  · exact .refl _

/-- The whole part of a numeral has a digit. -/
theorem fronts_readWhole? {whole : List Char} (h : readWhole? text = some (whole, rest)) :
    ∃ c cs, text = c :: cs ∧ isNumeralChar c = true ∧ Fronts cs rest := by
  unfold readWhole? at h
  split at h
  · cases h
    exact ⟨'0', _, rfl, by decide, .refl _⟩
  · cases text with
    | nil => cases h
    | cons c cs =>
      cases hc : isAsciiDigit c with
      | false =>
        simp only [spanDigits, List.takeWhile_cons, hc, Bool.false_eq_true, if_false] at h
        cases h
      | true =>
        simp only [spanDigits, List.takeWhile_cons, List.dropWhile_cons, hc, if_true] at h
        cases h
        exact ⟨c, cs, rfl, by rw [isNumeralChar, hc]; rfl, fronts_spanDigits cs⟩

theorem run_numeral (numeral : ∀ c ∈ cs, isNumeralChar c = true) : outside.run cs = outside := by
  refine run_keeps (P := (· = outside)) rfl numeral fun hs hc => ?_
  obtain ⟨hlead, hquote⟩ := lead_of_numeralChar hc
  rw [hs, outside_plain hquote hlead.noComma]

/-- There is no string in a numeral. -/
theorem run_of_readNumber? {m : Number} (h : readNumber? text = some (m, rest)) :
    ∃ read, text = read ++ rest ∧ ∀ s : LexState, s.Ready → s.run read = outside := by
  suffices hparts : ∃ c cs, text = c :: cs ∧ isNumeralChar c = true ∧ Fronts cs rest by
    obtain ⟨c, _, rfl, hc, read, rfl, hread⟩ := hparts
    refine ⟨c :: read, rfl, fun s hs => ?_⟩
    obtain ⟨hlead, hquote⟩ := lead_of_numeralChar hc
    rw [run_cons, hs.lead hlead hquote, run_numeral hread]
  unfold readNumber? at h
  split at h
  rename_i negative unsigned hsign
  obtain ⟨⟨whole, afterWhole⟩, hwhole, h⟩ := Option.bind_eq_some_iff.mp h
  obtain ⟨c, cs, hunsigned, hc, hcs⟩ := fronts_readWhole? hwhole
  -- the rest is what stands behind the exponent, whichever number it is
  have hrest : rest = (readExponent (readFraction afterWhole).2).2 := by
    dsimp only at h
    split at h
    · split at h
      · cases h
      · cases h
        rfl
    · cases h
      rfl
  have hfronts : Fronts cs rest := by
    rw [hrest]
    exact (hcs.trans (fronts_readFraction _)).trans (fronts_readExponent _)
  split at hsign
  · cases hsign
    exact ⟨'-', _, rfl, by decide, hunsigned ▸ hfronts.cons hc⟩
  · cases hsign
    exact ⟨c, cs, hunsigned, hc, hfronts⟩

end

/-! ## Values -/

section
variable {text rest : List Char} {fuel : Nat}

/-- What stands in front of the rest takes each ready state to a settled one. -/
def Settles (text rest : List Char) : Prop :=
  ∃ read, text = read ++ rest ∧ ∀ s : LexState, s.Ready → (s.run read).Settled

theorem exists_spaces (text : List Char) :
    ∃ spaces, text = spaces ++ skipSpaces text ∧ ∀ c ∈ spaces, isJsonSpace c = true :=
  ⟨text.takeWhile isJsonSpace, List.takeWhile_append_dropWhile.symm, List.all_eq_true.mp List.all_takeWhile⟩

/-- A value and the bracket that closes its container. -/
theorem Settles.close {close : Char} {after : List Char} (h : Settles text after)
    (closes : skipSpaces after = close :: rest) (hclose : close = ']' ∨ close = '\x7d') : Settles text rest := by
  obtain ⟨read, rfl, hread⟩ := h
  obtain ⟨spaces, hafter, hspaces⟩ := exists_spaces after
  rw [closes] at hafter
  refine ⟨read ++ spaces ++ [close], by rw [hafter]; simp, fun s hs => .inl ?_⟩
  rw [run_append, run_append, run_cons, run_nil]
  exact (settled_spaces (hread s hs) hspaces).close (hclose.imp_right .inl)

/-- A value, a comma, and what is read behind it. -/
theorem Settles.comma {after more : List Char} (h : Settles text after) (separates : skipSpaces after = ',' :: more)
    (behind : Settles (skipSpaces more) rest) : Settles text rest := by
  obtain ⟨read, rfl, hread⟩ := h
  obtain ⟨read', hmore, hread'⟩ := behind
  obtain ⟨spaces, hafter, hspaces⟩ := exists_spaces after
  obtain ⟨spaces', hsplit, hspaces'⟩ := exists_spaces more
  rw [separates] at hafter
  rw [hmore] at hsplit
  refine ⟨read ++ spaces ++ ',' :: (spaces' ++ read'), by rw [hafter, hsplit]; simp, fun s hs => ?_⟩
  rw [run_append, run_append, run_cons, (settled_spaces (hread s hs) hspaces).comma, run_append]
  exact hread' _ (ready_spaces (.inr rfl) hspaces')

/-- A bracket and what is read behind it. -/
theorem Settles.inside {bracket : Char} {inside : List Char} (h : Settles (skipSpaces inside) rest)
    (hbracket : bracket = '[' ∨ bracket = '\x7b') : Settles (bracket :: inside) rest := by
  obtain ⟨read, hinside, hread⟩ := h
  obtain ⟨spaces, hsplit, hspaces⟩ := exists_spaces inside
  rw [hinside] at hsplit
  refine ⟨bracket :: (spaces ++ read), by rw [hsplit]; simp, fun s hs => ?_⟩
  rw [run_cons, hs.bracket hbracket, run_append]
  exact hread _ (ready_spaces (.inl rfl) hspaces)

/-- A container with nothing in it. -/
theorem Settles.empty {bracket close : Char} {inside : List Char} (hbracket : bracket = '[' ∨ bracket = '\x7b')
    (closes : skipSpaces inside = close :: rest) (hclose : close = ']' ∨ close = '\x7d') :
    Settles (bracket :: inside) rest := by
  obtain ⟨spaces, hsplit, hspaces⟩ := exists_spaces inside
  rw [closes] at hsplit
  refine ⟨bracket :: (spaces ++ [close]), by rw [hsplit]; simp, fun s hs => .inl ?_⟩
  rw [run_cons, hs.bracket hbracket, run_append, run_cons, run_nil]
  exact (settled_spaces (.inl rfl) hspaces).close (hclose.imp_right .inl)

/-- A key, its colon, and the value behind it. -/
theorem Settles.key {quotedKey key afterKey afterColon : List Char} (hkey : readString quotedKey = some (key, afterKey))
    (colon : skipSpaces afterKey = ':' :: afterColon) (value : Settles (skipSpaces afterColon) rest) :
    Settles ('"' :: quotedKey) rest := by
  obtain ⟨body, rfl, hbody⟩ := run_of_readString hkey
  obtain ⟨spaces, hafter, hspaces⟩ := exists_spaces afterKey
  obtain ⟨spaces', hsplit, hspaces'⟩ := exists_spaces afterColon
  obtain ⟨read, hvalue, hread⟩ := value
  rw [colon] at hafter
  rw [hvalue] at hsplit
  refine ⟨'"' :: (body ++ ['"']) ++ (spaces ++ ':' :: (spaces' ++ read)), by rw [hafter, hsplit]; simp, fun s hs => ?_⟩
  rw [run_append, hbody s hs, run_append, run_cons,
    (settled_spaces (.inr rfl) hspaces).close (.inr (.inr rfl)), run_append]
  exact hread _ (ready_spaces (.inl rfl) hspaces')

/-- A word of JSON. -/
theorem settles_word (word rest : List Char) (h : LexState.outside.run word = .outside)
    (h' : LexState.behindComma.run word = .outside) : Settles (word ++ rest) rest := by
  refine ⟨word, rfl, ?_⟩
  rintro s (rfl | rfl)
  · exact .inl h
  · exact .inl h'

/-- What a reader has read takes a ready state to a settled one. -/
def SettlesRead {α : Type} (read : List Char → Option (α × List Char)) : Prop :=
  ∀ {text a rest}, read text = some (a, rest) → Settles text rest

theorem settles_value (items : SettlesRead (readItems fuel)) (members : SettlesRead (readMembers fuel)) :
    SettlesRead (readValue (fuel + 1)) := by
  intro text v rest h
  rw [readValue.eq_def] at h
  dsimp only at h
  split at h
  · cases h
    exact settles_word ['n', 'u', 'l', 'l'] _ (by decide) (by decide)
  · cases h
    exact settles_word ['t', 'r', 'u', 'e'] _ (by decide) (by decide)
  · cases h
    exact settles_word ['f', 'a', 'l', 's', 'e'] _ (by decide) (by decide)
  · obtain ⟨⟨text, after⟩, hread, heq⟩ := Option.map_eq_some_iff.mp h
    cases heq
    obtain ⟨body, rfl, hbody⟩ := run_of_readString hread
    exact ⟨'"' :: (body ++ ['"']), by simp, fun s hs => .inr (hbody s hs)⟩
  · split at h
    · rename_i hclose
      cases h
      exact .empty (.inl rfl) hclose (.inl rfl)
    · obtain ⟨⟨found, after⟩, hread, heq⟩ := Option.map_eq_some_iff.mp h
      cases heq
      exact (items hread).inside (.inl rfl)
  · split at h
    · rename_i hclose
      cases h
      exact .empty (.inr rfl) hclose (.inr rfl)
    · obtain ⟨⟨found, after⟩, hread, heq⟩ := Option.map_eq_some_iff.mp h
      cases heq
      exact (members hread).inside (.inr rfl)
  · obtain ⟨⟨m, after⟩, hread, heq⟩ := Option.map_eq_some_iff.mp h
    cases heq
    obtain ⟨read, rfl, hrun⟩ := run_of_readNumber? hread
    exact ⟨read, rfl, fun s hs => .inl (hrun s hs)⟩

theorem settles_items (value : SettlesRead (readValue fuel)) (items : SettlesRead (readItems fuel)) :
    SettlesRead (readItems (fuel + 1)) := by
  intro text xs rest h
  rw [readItems] at h
  obtain ⟨⟨item, after⟩, hitem, h⟩ := Option.bind_eq_some_iff.mp h
  dsimp only at h
  split at h
  · rename_i hclose
    cases h
    exact (value hitem).close hclose (.inl rfl)
  · rename_i hcomma
    obtain ⟨⟨others, final⟩, hread, h⟩ := Option.bind_eq_some_iff.mp h
    cases h
    exact (value hitem).comma hcomma (items hread)
  · cases h

theorem settles_members (value : SettlesRead (readValue fuel)) (members : SettlesRead (readMembers fuel)) :
    SettlesRead (readMembers (fuel + 1)) := by
  intro text ms rest h
  rw [readMembers.eq_def] at h
  dsimp only at h
  split at h
  · obtain ⟨⟨key, afterKey⟩, hkey, h⟩ := Option.bind_eq_some_iff.mp h
    dsimp only at h
    split at h
    · rename_i hcolon
      obtain ⟨⟨x, after⟩, hread, h⟩ := Option.bind_eq_some_iff.mp h
      have hmember : Settles _ after := .key hkey hcolon (value hread)
      dsimp only at h
      split at h
      · rename_i hclose
        cases h
        exact hmember.close hclose (.inr rfl)
      · rename_i hcomma
        obtain ⟨⟨others, final⟩, hlater, h⟩ := Option.bind_eq_some_iff.mp h
        cases h
        exact hmember.comma hcomma (members hlater)
      · cases h
    · cases h
  · cases h

/-- What each of the readers has read takes a ready state to a settled one. -/
theorem settles_of_read (fuel : Nat) :
    SettlesRead (readValue fuel) ∧ SettlesRead (readItems fuel) ∧ SettlesRead (readMembers fuel) := by
  induction fuel with
  | zero =>
    refine ⟨?_, ?_, ?_⟩
    · intro text v rest h; cases h
    · intro text xs rest h; cases h
    · intro text ms rest h; cases h
  | succ fuel ih =>
    obtain ⟨hvalue, hitems, hmembers⟩ := ih
    exact ⟨settles_value hitems hmembers, settles_items hvalue hitems, settles_members hvalue hmembers⟩

/-! ## Texts -/

/-- **A text that is read ends outside of strings**, and nothing in it is broken. -/
theorem settled_of_parse {v : Json} (h : Json.parseChars? text = some v) : (LexState.outside.run text).Settled := by
  obtain ⟨⟨value, rest⟩, hread, h⟩ := Option.bind_eq_some_iff.mp h
  dsimp only at h
  split at h
  · rename_i hrest
    obtain ⟨read, htext, hsettles⟩ := (settles_of_read _).1 hread
    obtain ⟨spaces, hsplit, hspaces⟩ := exists_spaces text
    obtain ⟨spaces', hsplit', hspaces'⟩ := exists_spaces rest
    rw [List.isEmpty_iff.mp hrest, List.append_nil] at hsplit'
    rw [hsplit, htext, run_append, run_append]
    rw [hsplit']
    exact settled_spaces (hsettles _ (ready_spaces (.inl rfl) hspaces)) hspaces'
  · cases h

end

end JsonMend
