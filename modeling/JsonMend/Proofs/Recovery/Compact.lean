import JsonMend.Proofs.Json.Written
import JsonMend.Proofs.Recovery.Strings
import JsonMend.Proofs.Recovery.Words
/-
  Compact text under the corrections of keys, line comments and bare tokens.

  Outside of its strings, compact text holds few characters: a colon stands right behind a key, and there is no
  slash and no letter that tells a bare token from the words of JSON.  So whatever these corrections find to do, they
  find inside a string, and what they do there is never silent.

  1. **Compact text** (`LexState.fits`, `compact_written`) — what a value is written as, kind by kind.
  2. **Keys and line comments** (`unchanged_or_unsettled`) — a key put in quotes inside a string ends that string in
     front of a letter; a comment that starts inside a string leaves it open.  So the text is as it was, or it is
     not read any more.
  3. **Bare tokens** (`run_nullTokens`, `nullTokens_of_fits`) — nulls in their place leave strings where they are,
     and compact text that has its strings closed has no bare token.
-/
namespace JsonMend

open Relaxed

namespace LexState

variable {s s' : LexState} {c : Char} {cs text front back rest : List Char}

/-! ## Compact text -/

/-- What may come next in compact text.  Inside a string anything may; outside, two letters are held off that `undefined`
and `NaN` have and the words of JSON have not. -/
def admits (s : LexState) (c : Char) : Bool :=
  s = inside || s = escaped || (c ∉ ['/', 'd', 'N'] && (c ≠ ':' || s = behindString))

/-- Whether compact text may go on with a text. -/
def fits : LexState → List Char → Bool
  | _, [] => true
  | s, c :: cs => s.admits c && (s.next c).fits cs

theorem fits_append : s.fits (front ++ back) = (s.fits front && (s.run front).fits back) := by
  induction front generalizing s with
  | nil => rfl
  | cons c front ih => rw [List.cons_append, fits, fits, ih, Bool.and_assoc, run_cons]

/-- A piece of compact text leads from one state to another. -/
def Leads (s : LexState) (text : List Char) (s' : LexState) : Prop := s.fits text = true ∧ s.run text = s'

theorem Leads.append {s'' : LexState} (h : s.Leads front s') (h' : s'.Leads back s'') : s.Leads (front ++ back) s'' := by
  obtain ⟨hfits, rfl⟩ := h
  exact ⟨by rw [fits_append, hfits, h'.1]; rfl, by rw [run_append, h'.2]⟩

theorem Leads.cons (h : (s.next c).Leads cs s') (hc : s.admits c = true) : s.Leads (c :: cs) s' :=
  ⟨by rw [fits, hc, h.1]; rfl, h.2⟩

theorem leads_nil (s : LexState) : s.Leads [] s := ⟨rfl, rfl⟩

/-! ### Between strings -/

/-- Outside of strings, in text that may still be strict. -/
def Between (s : LexState) : Prop := s = outside ∨ s = behindString ∨ s = behindComma

theorem Between.next (h : s.Between) (quote : c ≠ '"') (hc : s.next c ≠ broken) : (s.next c).Between := by
  rcases h with rfl | rfl | rfl <;> rw [LexState.next] at hc ⊢ <;> grind [Between]

theorem Between.fronts (h : s.Between) (hc : Correction.frontsWord c = true) : (s.next c).Ready := by
  have hcases : c = ':' ∨ c = '[' ∨ c = ',' := by
    simpa [Correction.frontsWord, or_assoc] using hc
  rcases h with rfl | rfl | rfl <;> rcases hcases with rfl | rfl | rfl <;> decide

theorem not_broken_of_settled (h : ((s.next c).run rest).Settled) : s.next c ≠ broken := by
  intro hbroken
  rw [hbroken, run_broken] at h
  exact absurd h (by decide)

/-! ### Strings -/

theorem next_digitChar : ∀ k < 16, inside.next (Nat.digitChar k) = inside := by decide

theorem leads_escapeUnit {n : Nat} (h : n < 65536) : inside.Leads (escapeUnit n) inside := by
  have hopen : (inside.next '\\').next 'u' = inside := by decide
  have hdigit : ∀ m, inside.next (Nat.digitChar (m % 16)) = inside :=
    fun m => next_digitChar _ (Nat.mod_lt _ (by decide))
  rw [escapeUnit, hexDigits_four h]
  simp [Leads, fits, hopen, next_digitChar (n / 4096) (by omega), hdigit, admits]

theorem leads_escapeByNumber (c : Char) : inside.Leads (escapeByNumber c) inside := by
  have hlt := toNat_lt c
  unfold escapeByNumber
  dsimp only
  split
  · exact leads_escapeUnit ‹_›
  · exact (leads_escapeUnit (by omega)).append (leads_escapeUnit (by omega))

/-- What a character is written as never ends its string. -/
theorem leads_escapeChar (ascii : Bool) (c : Char) : inside.Leads (escapeChar ascii c) inside := by
  unfold escapeChar
  split
  all_goals try exact ⟨by decide, by decide⟩
  rename_i hquote hbackslash _ _ _ _ _
  split
  · exact leads_escapeByNumber c
  split
  · exact leads_escapeByNumber c
  · exact ⟨by simp [fits, admits], inside_plain hquote hbackslash (by omega)⟩

theorem leads_writeString (h : s.Ready) (ascii : Bool) (text : List Char) :
    s.Leads (writeString ascii text) behindString := by
  have hbody : inside.Leads (text.flatMap (escapeChar ascii)) inside := by
    induction text with
    | nil => exact leads_nil _
    | cons c text ih => exact (leads_escapeChar ascii c).append ih
  have hclose : inside.Leads ['"'] behindString := ⟨by decide, by decide⟩
  refine Leads.cons (h.quote ▸ hbody.append hclose) ?_
  rcases h with rfl | rfl <;> decide

/-! ### Numerals -/

theorem admits_numeralChar (h : isNumeralChar c = true) (s : LexState) : s.admits c = true := by
  have hother : c ≠ '/' ∧ c ≠ 'd' ∧ c ≠ 'N' ∧ c ≠ ':' :=
    ⟨ne_of_test h (by decide), ne_of_test h (by decide), ne_of_test h (by decide), ne_of_test h (by decide)⟩
  simp [admits, hother]

theorem fits_numeral (numeral : ∀ c ∈ cs, isNumeralChar c = true) : s.fits cs = true := by
  induction cs generalizing s with
  | nil => rfl
  | cons c cs ih =>
    rw [List.forall_mem_cons] at numeral
    rw [fits, admits_numeralChar numeral.1, ih numeral.2]
    rfl

end LexState

open LexState

variable {s : LexState} {c : Char} {cs text rest : List Char}

theorem JsonNumeral.isNumeralChar (t : JsonNumeral) : ∀ c ∈ t.chars, JsonMend.isNumeralChar c = true := by
  have hdigits : ∀ {digits : List Char}, (∀ c ∈ digits, isAsciiDigit c = true) →
      ∀ c ∈ digits, JsonMend.isNumeralChar c = true := by
    intro digits h c hc
    rw [JsonMend.isNumeralChar, h c hc]
    rfl
  have hminus : JsonMend.isNumeralChar '-' = true := by decide
  have hplus : JsonMend.isNumeralChar '+' = true := by decide
  have hsign : ∀ c ∈ signChars t.negative, JsonMend.isNumeralChar c = true := by
    cases t.negative <;> simp [signChars, hminus]
  have hfraction : ∀ c ∈ t.fractionChars, JsonMend.isNumeralChar c = true := by
    unfold fractionChars
    split
    · simp
    · exact List.forall_mem_cons.mpr ⟨by decide, hdigits t.fraction_ascii⟩
  have hexponent : ∀ c ∈ t.exponentChars, JsonMend.isNumeralChar c = true := by
    cases hexp : t.exponent with
    | none => simp [exponentChars, hexp]
    | some e =>
      have hmark : JsonMend.isNumeralChar e.mark = true := by
        rcases e.isMark with h | h <;> rw [h] <;> decide
      have hsign' : ∀ c ∈ ExponentText.signText e.sign, JsonMend.isNumeralChar c = true := by
        rcases e.sign with _ | _ | _ <;> simp [ExponentText.signText, hminus, hplus]
      simp only [exponentChars, hexp, Option.map_some, Option.getD_some, ExponentText.chars]
      exact List.forall_mem_cons.mpr ⟨hmark, List.forall_mem_append.mpr ⟨hsign', hdigits e.ascii⟩⟩
  simp only [chars, List.forall_mem_append]
  exact ⟨hsign, hdigits t.whole_ascii, hfraction, hexponent⟩

theorem leads_numeral (h : s.Ready) (t : JsonNumeral) : s.Leads t.chars .outside := by
  obtain ⟨c, cs, hchars, -⟩ := t.lead
  have hnumeral := t.isNumeralChar
  refine ⟨fits_numeral hnumeral, ?_⟩
  rw [hchars, List.forall_mem_cons] at *
  obtain ⟨hlead, hquote⟩ := lead_of_numeralChar hnumeral.1
  rw [run_cons, h.lead hlead hquote, run_numeral hnumeral.2]

/-! ### Values -/

/-- A text that is compact takes each ready state to a settled one. -/
def Compact (text : List Char) : Prop := ∀ s : LexState, s.Ready → ∃ s', s'.Settled ∧ s.Leads text s'

section
variable {ascii : Bool}

theorem leads_comma (h : s.Settled) : s.Leads [','] .behindComma := by
  rcases h with rfl | rfl <;> exact ⟨by decide, by decide⟩

theorem leads_close (h : s.Settled) (hc : c = ']' ∨ c = '\x7d') : s.Leads [c] .outside := by
  rcases h with rfl | rfl <;> rcases hc with rfl | rfl <;> exact ⟨by decide, by decide⟩

theorem leads_open (h : s.Ready) (hc : c = '[' ∨ c = '\x7b') : s.Leads [c] .outside := by
  rcases h with rfl | rfl <;> rcases hc with rfl | rfl <;> exact ⟨by decide, by decide⟩

theorem leads_colon : LexState.behindString.Leads [':'] .outside := ⟨by decide, by decide⟩

theorem leads_items {xs : List Json} (h : s.Settled) (items : ∀ x ∈ xs, Compact (x.writeChars ⟨[','], [':'], ascii⟩)) :
    ∃ s', s'.Settled ∧ s.Leads (writeItems ⟨[','], [':'], ascii⟩ xs) s' := by
  induction xs generalizing s with
  | nil => exact ⟨s, h, leads_nil s⟩
  | cons x xs ih =>
    rw [List.forall_mem_cons] at items
    obtain ⟨s₁, hs₁, hitem⟩ := items.1 _ (.inr rfl)
    obtain ⟨s₂, hs₂, hitems⟩ := ih hs₁ items.2
    exact ⟨s₂, hs₂, ((leads_comma h).append hitem).append hitems⟩

/-- A key, its colon and the value behind it. -/
theorem leads_member {x : Json} (h : s.Ready) (key : String) (value : Compact (x.writeChars ⟨[','], [':'], ascii⟩)) :
    ∃ s', s'.Settled ∧ s.Leads (writeString ascii key.toList ++ [':'] ++ x.writeChars ⟨[','], [':'], ascii⟩) s' := by
  obtain ⟨s', hs', hvalue⟩ := value _ (.inl rfl)
  exact ⟨s', hs', ((leads_writeString h ascii key.toList).append leads_colon).append hvalue⟩

theorem leads_members {ms : Members} (h : s.Settled)
    (members : ∀ m ∈ ms, Compact (m.2.writeChars ⟨[','], [':'], ascii⟩)) :
    ∃ s', s'.Settled ∧ s.Leads (writeMembers ⟨[','], [':'], ascii⟩ ms) s' := by
  induction ms generalizing s with
  | nil => exact ⟨s, h, leads_nil s⟩
  | cons m ms ih =>
    obtain ⟨key, x⟩ := m
    rw [List.forall_mem_cons] at members
    obtain ⟨s₁, hs₁, hmember⟩ := leads_member (.inr rfl) key members.1
    obtain ⟨s₂, hs₂, hmembers⟩ := ih hs₁ members.2
    refine ⟨s₂, hs₂, ?_⟩
    have hall := ((leads_comma h).append hmember).append hmembers
    simpa only [writeMembers, List.append_assoc] using hall

theorem compact_word (word : List Char) (h : LexState.outside.Leads word .outside)
    (h' : LexState.behindComma.Leads word .outside) : Compact word := by
  rintro s (rfl | rfl)
  · exact ⟨.outside, .inl rfl, h⟩
  · exact ⟨.outside, .inl rfl, h'⟩

/-- The compact text of a value: ASCII only, or with every character as itself. -/
def Json.compactChars (ascii : Bool) (v : Json) : List Char := v.writeChars ⟨[','], [':'], ascii⟩

/-- **A value is written as compact text**, which takes each ready state to a settled one. -/
theorem compact_written {v : Json} (finite : v.Finite) : Compact (v.compactChars ascii) := by
  unfold Json.compactChars
  induction v using Json.induction_on_parts with
  | null => exact compact_word ['n', 'u', 'l', 'l'] ⟨by decide, by decide⟩ ⟨by decide, by decide⟩
  | bool b =>
    cases b with
    | false => exact compact_word ['f', 'a', 'l', 's', 'e'] ⟨by decide, by decide⟩ ⟨by decide, by decide⟩
    | true => exact compact_word ['t', 'r', 'u', 'e'] ⟨by decide, by decide⟩ ⟨by decide, by decide⟩
  | num n =>
    obtain ⟨t, hchars, -⟩ := Number.exists_numeral (finite n List.mem_cons_self) infinityWord
    intro s hs
    rw [Json.writeChars, ← hchars]
    exact ⟨.outside, .inl rfl, leads_numeral hs t⟩
  | str text =>
    intro s hs
    exact ⟨.behindString, .inr rfl, leads_writeString hs ascii text.toList⟩
  | arr xs ih =>
    intro s hs
    cases xs with
    | nil => exact ⟨.outside, .inl rfl, (leads_open hs (.inl rfl)).append (leads_close (.inl rfl) (.inl rfl))⟩
    | cons x xs =>
      have hitems : ∀ y ∈ x :: xs, Compact (y.writeChars ⟨[','], [':'], ascii⟩) :=
        fun y hy => ih y hy (Json.forall_numbers_arr.mp finite y hy)
      rw [List.forall_mem_cons] at hitems
      obtain ⟨s₁, hs₁, hfirst⟩ := hitems.1 _ (.inl rfl)
      obtain ⟨s₂, hs₂, hothers⟩ := leads_items hs₁ hitems.2
      exact ⟨.outside, .inl rfl, (leads_open hs (.inl rfl)).append
        (hfirst.append (hothers.append (leads_close hs₂ (.inl rfl))))⟩
  | obj ms ih =>
    intro s hs
    rcases ms with _ | ⟨⟨key, x⟩, ms⟩
    · exact ⟨.outside, .inl rfl, (leads_open hs (.inr rfl)).append (leads_close (.inl rfl) (.inr rfl))⟩
    · have hmembers : ∀ m ∈ (key, x) :: ms, Compact (m.2.writeChars ⟨[','], [':'], ascii⟩) :=
        fun m hm => ih m hm (Json.forall_numbers_obj.mp finite m hm)
      rw [List.forall_mem_cons] at hmembers
      obtain ⟨s₁, hs₁, hfirst⟩ := leads_member (.inl rfl) key hmembers.1
      obtain ⟨s₂, hs₂, hothers⟩ := leads_members hs₁ hmembers.2
      exact ⟨.outside, .inl rfl, (leads_open hs (.inr rfl)).append
        (hfirst.append (hothers.append (leads_close hs₂ (.inr rfl))))⟩

end

/-! ## Keys and line comments -/

namespace Correction

theorem run_keyChars (key : ∀ c ∈ cs, isKeyChar c = true) : LexState.outside.run cs = .outside := by
  refine run_keeps (P := (· = .outside)) rfl key fun hs hc => ?_
  rw [hs, outside_plain (ne_of_test hc (by decide)) (ne_of_test hc (by decide))]

/-- What a bare key is found as. -/
theorem exists_key {key : List Char} {n : Nat} (h : bareKeyLength? text = some (key, n)) :
    ∃ lead first word trail after, key = first :: word ∧ text = lead ++ (first :: word ++ (trail ++ ':' :: after)) ∧
      isKeyStart first = true ∧ (∀ c ∈ lead ++ trail, isBlank c = true) ∧ ∀ c ∈ word, isKeyChar c = true := by
  unfold bareKeyLength? at h
  dsimp only at h
  split at h
  · rename_i first word after hkey hcolon
    split at h
    · rename_i hstart
      cases h
      have hlead : ∀ c ∈ text.takeWhile isBlank, isBlank c = true := List.all_eq_true.mp List.all_takeWhile
      have hword : ∀ c ∈ first :: word, isKeyChar c = true := hkey ▸ List.all_eq_true.mp List.all_takeWhile
      have htrail := List.all_eq_true.mp (List.all_takeWhile (p := isBlank)
        (l := (text.dropWhile isBlank).dropWhile isKeyChar))
      refine ⟨_, first, word, _, after, hkey, ?_, hstart, List.forall_mem_append.mpr ⟨hlead, htrail⟩,
        fun c hc => hword c (List.mem_cons_of_mem _ hc)⟩
      rw [← hcolon, ← hkey, List.takeWhile_append_dropWhile, List.takeWhile_append_dropWhile,
        List.takeWhile_append_dropWhile]
    · cases h
  · cases h

/-- Compact text has no bare key. -/
theorem not_fits_of_key {key : List Char} {n : Nat} (h : s.Ready) (found : bareKeyLength? text = some (key, n)) :
    s.fits text = false := by
  obtain ⟨lead, first, word, trail, after, -, rfl, hstart, hblank, hword⟩ := exists_key found
  rw [List.forall_mem_append] at hblank
  have hquote : first ≠ '"' := ne_of_test hstart (by decide)
  have hfirst : (s.run lead).next first = .outside := (ready_blanks h hblank.1).lead (isLead_of_start hstart) hquote
  have htrail : LexState.outside.run trail = .outside ∨ LexState.outside.run trail = .behindComma :=
    ready_blanks (.inl rfl) hblank.2
  have hcolon : ((LexState.outside.run trail).fits (':' :: after)) = false := by
    rcases htrail with hend | hend <;> rw [hend] <;> rfl
  rw [fits_append, fits_append, run_cons, hfirst, run_keyChars hword, fits_append, hcolon]
  simp

/-- A bare key that is found in compact text stands in a string, which ends with its first quote. -/
theorem quote_of_key {key : List Char} {n : Nat} (hc : c = '\x7b' ∨ c = ',') (fits : s.fits (c :: rest) = true)
    (found : bareKeyLength? rest = some (key, n)) : (s.next c).next '"' = .behindString ∨ s.next c = .broken := by
  rw [LexState.fits, Bool.and_eq_true] at fits
  have hready : ¬(s.next c).Ready := fun h => by
    rw [not_fits_of_key h found] at fits
    exact absurd fits.2 (by decide)
  cases s with
  | outside | behindString | behindComma =>
    exfalso
    refine hready ?_
    rcases hc with rfl | rfl
    · exact .inl (by decide)
    · exact .inr (by decide)
  | inside | escaped => rcases hc with rfl | rfl <;> exact .inl (by decide)
  | broken => exact .inr rfl

theorem broken_of_start (start : isKeyStart c = true) : LexState.behindString.next c = .broken := by
  have hquote : c ≠ '"' := ne_of_test start (by decide)
  have hlead := isLead_of_start start
  rw [next, if_neg (by rw [hlead.noSpace]; decide), if_neg hquote, if_neg hlead.noComma, if_pos start]

/-- What is left behind the start of a line comment. -/
theorem lines_comment (text : List Char) :
    dropLineComments.go true text = [] ∨ ∃ after, dropLineComments.go true text = '\n' :: after := by
  induction text with
  | nil => exact .inl rfl
  | cons c text ih =>
    rw [dropLineComments.go]
    split
    · rename_i hline
      exact .inr ⟨_, by rw [hline]⟩
    · exact ih

/-- The string that a comment starts in is not closed. -/
theorem open_of_comment (slash : s.admits '/' = true) (text : List Char) :
    ¬(s.run (dropLineComments.go true text)).Settled := by
  have hinside : s = .inside ∨ s = .escaped := by
    cases s <;> first | exact .inl rfl | exact .inr rfl | exact absurd slash (by decide)
  rcases lines_comment text with hnil | ⟨after, hline⟩
  · rw [hnil]
    rcases hinside with rfl | rfl <;> decide
  · have hbroken : s.next '\n' = .broken := by rcases hinside with rfl | rfl <;> decide
    rw [hline, run_cons, hbroken, run_broken]
    decide

/-- **Keys and line comments are corrected to the same text or to one that is not read.** -/
theorem unchanged_or_unsettled (fits : s.fits text = true) :
    (quoteKeysFrom 0 text = text ∧ dropLineComments.go false text = text) ∨
      ¬(s.run (dropLineComments.go false (quoteKeysFrom 0 text))).Settled := by
  induction text generalizing s with
  | nil => exact .inl ⟨rfl, rfl⟩
  | cons c rest ih =>
    have hsplit := fits
    rw [LexState.fits, Bool.and_eq_true] at hsplit
    by_cases hkey : (c = '\x7b' ∨ c = ',') ∧ (bareKeyLength? rest).isSome
    · right
      obtain ⟨hc, hsome⟩ := hkey
      obtain ⟨⟨key, n⟩, hfound⟩ := Option.isSome_iff_exists.mp hsome
      obtain ⟨lead, first, word, trail, after, rfl, -, hstart, -, -⟩ := exists_key hfound
      have hslash : c ≠ '/' ∧ first ≠ '/' := by
        refine ⟨?_, ne_of_test hstart (by decide)⟩
        rcases hc with rfl | rfl <;> decide
      rw [quoteKeysFrom, if_pos (by simpa using hc), hfound]
      dsimp only
      rw [lines_cons hslash.1, lines_cons (by decide), List.cons_append, lines_cons hslash.2, run_cons, run_cons,
        run_cons]
      have hbroken : ((s.next c).next '"').next first = .broken := by
        rcases quote_of_key hc fits hfound with hquote | hbroken
        · rw [hquote, broken_of_start hstart]
        · rw [hbroken]
          rfl
      rw [hbroken, run_broken]
      decide
    · have hquoted : quoteKeysFrom 0 (c :: rest) = c :: quoteKeysFrom 0 rest := by
        rw [quoteKeysFrom]
        split
        · rename_i hc
          have hnone : bareKeyLength? rest = none := by
            simpa [show c = '\x7b' ∨ c = ',' by simpa using hc] using hkey
          rw [hnone]
        · rfl
      rw [hquoted]
      by_cases hslash : (c = '/' && (quoteKeysFrom 0 rest).head? = some '/') = true
      · right
        have hc : c = '/' := of_decide_eq_true ((Bool.and_eq_true _ _).mp hslash).1
        rw [dropLineComments.go, if_pos hslash]
        exact open_of_comment (hc ▸ hsplit.1) _
      · rcases ih hsplit.2 with ⟨hkeys, hlines⟩ | hopen
        · left
          rw [hkeys] at hslash ⊢
          exact ⟨rfl, by rw [dropLineComments.go, if_neg hslash, hlines]⟩
        · right
          rw [dropLineComments.go, if_neg hslash]
          exact hopen

/-! ## Bare tokens -/

/-- What a bare token is found as. -/
theorem exists_token {blanks : List Char} {n : Nat} (h : bareToken? text = some (blanks, n)) :
    ∃ token after, text = blanks ++ token ++ after ∧ n = (blanks ++ token).length ∧
      (∀ c ∈ blanks, isBlank c = true) ∧ token ∈ bareTokens := by
  obtain ⟨token, hfind, heq⟩ := Option.map_eq_some_iff.mp h
  cases heq
  have hprefix := List.find?_some hfind
  rw [Bool.and_eq_true, List.isPrefixOf_iff_prefix] at hprefix
  obtain ⟨⟨after, hafter⟩, -⟩ := hprefix
  refine ⟨token, after, ?_, by rw [List.length_append], List.all_eq_true.mp List.all_takeWhile,
    List.mem_of_find?_eq_some hfind⟩
  rw [List.append_assoc, hafter, List.takeWhile_append_dropWhile]

/-- A null in the place of a bare token leaves strings where they are. -/
theorem run_token {token : List Char} (h : token ∈ bareTokens) (s : LexState) :
    s.run token = s.run ['n', 'u', 'l', 'l'] := by
  simp only [bareTokens, List.mem_cons, List.not_mem_nil, or_false] at h
  rcases h with rfl | rfl <;> cases s <;> decide

theorem nullTokensFrom_take (n : Nat) (text : List Char) :
    nullTokensFrom n 0 text = text.take n ++ nullTokensFrom 0 0 (text.drop n) := by
  induction text generalizing n with
  | nil => cases n <;> rfl
  | cons c text ih =>
    cases n with
    | zero => rfl
    | succ n => rw [nullTokensFrom, ih, List.take_succ_cons, List.drop_succ_cons, List.cons_append]

/-- **Nulls in their place leave strings where they are**, in any text. -/
theorem run_nullTokens (s : LexState) (text : List Char) : s.run (nullTokensFrom 0 0 text) = s.run text := by
  induction hlength : text.length using Nat.strongRecOn generalizing s text with
  | ind length ih =>
    subst hlength
    cases text with
    | nil => rfl
    | cons c rest =>
      rw [nullTokensFrom]
      split
      · -- a string is copied
        have hlater := ih (rest.drop ((literalLength? rest).getD 0)).length
          (Nat.lt_succ_of_le (by simp)) ((s.next c).run (rest.take ((literalLength? rest).getD 0))) _ rfl
        rw [run_cons, run_cons, nullTokensFrom_take, run_append, hlater, ← run_append, List.take_append_drop]
      have hlater := ih rest.length (Nat.lt_succ_self _) (s.next c) rest rfl
      split
      · split
        · rename_i blanks n hfound
          obtain ⟨token, after, rfl, rfl, -, htoken⟩ := exists_token hfound
          have hbehind := ih after.length (by simp; omega) ((s.next c).run (blanks ++ token)) after rfl
          have hnull : (s.next c).run (blanks ++ ['n', 'u', 'l', 'l']) = (s.next c).run (blanks ++ token) := by
            rw [run_append, run_append, run_token htoken]
          rw [nullTokensFrom_skip, run_cons, run_cons, run_append, hnull, hbehind, ← run_append]
        · rw [run_cons, run_cons, hlater]
      · rw [run_cons, run_cons, hlater]

/-- Compact text has no bare token. -/
theorem not_fits_of_token {blanks : List Char} {n : Nat} (h : s.Ready) (found : bareToken? text = some (blanks, n)) :
    s.fits text = false := by
  obtain ⟨token, after, rfl, -, hblank, htoken⟩ := exists_token found
  have hbare : (s.run blanks).fits token = false := by
    simp only [bareTokens, List.mem_cons, List.not_mem_nil, or_false] at htoken
    rcases ready_blanks h hblank with hend | hend <;> rw [hend] <;> rcases htoken with rfl | rfl <;> decide
  rw [fits_append, fits_append, hbare, Bool.and_false, Bool.false_and]

theorem inside_cases (h : LexState.inside.next c ≠ .broken) :
    c = '\\' ∨ c = '"' ∨ LexState.inside.next c = .inside := by
  by_cases hbackslash : c = '\\'
  · exact .inl hbackslash
  by_cases hquote : c = '"'
  · exact .inr (.inl hquote)
  by_cases hshown : 0x20 ≤ c.toNat
  · exact .inr (.inr (inside_plain hquote hbackslash hshown))
  · exact absurd (by rw [next, if_neg hbackslash, if_neg hquote, if_pos (by omega)]) h

/-- A string that is closed ends at the same quote for the correction. -/
theorem literalLength?_of_settled (h : (LexState.inside.run text).Settled) :
    ∃ body after, text = body ++ '"' :: after ∧ literalLength? text = some (body.length + 1) ∧
      LexState.inside.run body = .inside := by
  induction text using literalLength?.induct with
  | case1 => exact absurd h (by decide)
  | case2 after => exact ⟨[], after, rfl, rfl, rfl⟩
  | case3 rest => exact absurd rfl (not_broken_of_settled (s := .escaped) h)
  | case4 c rest hline ih =>
    have hescaped : (LexState.inside.next '\\').next c = .inside :=
      if_neg fun hcontrol => not_broken_of_settled (s := .escaped) h (if_pos hcontrol)
    rw [run_cons, run_cons, hescaped] at h
    obtain ⟨body, after, rfl, hlength, hbody⟩ := ih h
    refine ⟨'\\' :: c :: body, after, rfl, ?_, ?_⟩
    · rw [literalLength?, if_neg hline, hlength]
      rfl
    · rw [run_cons, run_cons, hescaped, hbody]
  | case5 rest _ hend =>
    cases rest with
    | nil => exact absurd h (by decide)
    | cons c rest => exact (hend c rest rfl rfl).elim
  | case6 c rest hquote _ hbackslash ih =>
    have hinside : LexState.inside.next c = .inside := by
      rcases inside_cases (not_broken_of_settled h) with hc | hc | hc
      · exact absurd hc hbackslash
      · exact (hquote hc).elim
      · exact hc
    rw [run_cons, hinside] at h
    obtain ⟨body, after, rfl, hlength, hbody⟩ := ih h
    refine ⟨c :: body, after, rfl, ?_, ?_⟩
    · rw [literalLength?_cons hquote hbackslash, hlength]
      rfl
    · rw [run_cons, hinside, hbody]

/-- **Compact text stays as it is where bare tokens become nulls**, if its strings are closed. -/
theorem nullTokens_of_fits (between : s.Between) (fits : s.fits text = true) (settled : (s.run text).Settled) :
    nullTokensFrom 0 0 text = text := by
  induction hlength : text.length using Nat.strongRecOn generalizing s text with
  | ind length ih =>
    subst hlength
    cases text with
    | nil => rfl
    | cons c rest =>
      have hnext := not_broken_of_settled settled
      rw [LexState.fits, Bool.and_eq_true] at fits
      rw [nullTokensFrom]
      split
      · rename_i hquote
        subst hquote
        have hinside : s.next '"' = .inside := by
          rcases between with rfl | rfl | rfl <;> decide
        rw [run_cons, hinside] at settled
        obtain ⟨body, after, rfl, hlength, hbody⟩ := literalLength?_of_settled settled
        have hcopy := nullTokensFrom_copy (body ++ ['"']) after
        simp only [List.length_append, List.length_singleton, List.append_assoc, List.singleton_append] at hcopy
        rw [run_append, hbody, run_cons] at settled
        rw [hinside, fits_append, hbody, LexState.fits, Bool.and_eq_true, Bool.and_eq_true] at fits
        have hafter := ih after.length (by simp; omega) (.inr (.inl rfl)) fits.2.2.2 settled rfl
        rw [hlength, Option.getD_some, hcopy, hafter]
      · rename_i hquote
        have hrest := ih rest.length (Nat.lt_succ_self _) (between.next hquote hnext) fits.2 settled rfl
        split
        · rename_i hfronts
          split
          · rename_i hfound
            rw [not_fits_of_token (between.fronts hfronts) hfound] at fits
            exact absurd fits.2 (by decide)
          · rw [hrest]
        · rw [hrest]

end Correction

end JsonMend
