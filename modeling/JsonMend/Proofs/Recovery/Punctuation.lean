import JsonMend.Proofs.Recovery.Corrector
/-
  Trailing commas, quotes and bare keys are corrected where they stand.

  Behind a comma comes a value, a key, or white space and a closing bracket: this is all that the first and the
  third of these corrections look for.  They pass over a string because it is untouched and nothing that they
  look for reaches over a quote.

  1. **Commas** (`commaCorrector`)
  2. **Quotes** (`quoteCorrector`)
  3. **Keys** (`keyCorrector`) — a bare word behind a comma is a key only if a colon follows; behind a value there
     is none (`NoKey`).
-/
namespace JsonMend

open Relaxed

/-! ## What a character stops -/

section
variable {c : Char} {cs rest : List Char} {p : Char → Bool}

theorem dropWhile_stop (stop : p c = false) :
    (cs ++ c :: rest).dropWhile p = cs.dropWhile p ++ c :: rest := by
  induction cs with
  | nil => simp [stop]
  | cons x cs ih => cases hx : p x <;> simp [hx, ih]

theorem takeWhile_stop (stop : p c = false) : (cs ++ c :: rest).takeWhile p = cs.takeWhile p := by
  induction cs with
  | nil => simp [stop]
  | cons x cs ih => cases hx : p x <;> simp [hx, ih]

end

namespace Correction

variable {c : Char} {cs cs' rest : List Char}

/-! ## Commas -/

theorem closesNext_blank (blank : ∀ c ∈ cs, isBlank c = true) :
    closesNext (cs ++ rest) = closesNext rest := by
  rw [closesNext, closesNext, List.dropWhile_append_of_pos blank]

theorem closesNext_closer (h : c = ']' ∨ c = '\x7d') : closesNext (c :: rest) = true := by
  have hshown : isBlank c = false := by rcases h with rfl | rfl <;> decide
  simpa [closesNext, hshown] using h

theorem closesNext_lead (lead : IsLead c) : closesNext (c :: rest) = false := by
  simp [closesNext, lead.shown, lead.noBracket, lead.noBrace]

/-- Only what stands in front of a lead character matters. -/
theorem closesNext_stop (lead : IsLead c) : closesNext (cs ++ c :: rest) = closesNext cs := by
  rw [closesNext, closesNext, dropWhile_stop lead.shown]
  cases cs.dropWhile isBlank with
  | nil => simp [lead.noBracket, lead.noBrace]
  | cons => rfl

theorem dropTrailingCommas_cons (quiet : c ≠ ',') :
    dropTrailingCommas (c :: rest) = c :: dropTrailingCommas rest := by
  simp [dropTrailingCommas, quiet]

theorem corrects_commas (quiet : ',' ∉ cs) : Corrects dropTrailingCommas Anything cs cs := by
  intro rest _
  induction cs with
  | nil => rfl
  | cons x cs ih =>
    rw [List.mem_cons, not_or] at quiet
    rw [List.cons_append, dropTrailingCommas_cons (Ne.symm quiet.1), ih quiet.2, List.cons_append]

theorem dropTrailingCommas_stop (lead : IsLead c) :
    dropTrailingCommas (cs ++ c :: rest) = dropTrailingCommas cs ++ c :: dropTrailingCommas rest := by
  induction cs with
  | nil => exact dropTrailingCommas_cons lead.noComma
  | cons x cs ih =>
    rw [List.cons_append, dropTrailingCommas, dropTrailingCommas, closesNext_stop lead, ih]
    split <;> rfl

/-- A comma stays where nothing closes behind it. -/
theorem corrects_commas_cons {Q : List Char → Prop} (stays : ∀ rest, closesNext (cs ++ rest) = false)
    (h : Corrects dropTrailingCommas Q cs cs') : Corrects dropTrailingCommas Q (c :: cs) (c :: cs') := by
  intro rest hrest
  rw [List.cons_append, dropTrailingCommas, stays rest, h rest hrest]
  simp

end Correction

namespace Relaxed

open Correction

variable {rest : List Char}

/-! ### Margins -/

theorem Stage.isRemark (s : Stage) {text : List Char} (h : IsRemark text) : IsRemark (s.remark text) := by
  unfold remark
  split
  · exact h
  · intro c hc
    obtain ⟨d, hd, rfl⟩ := List.mem_map.mp hc
    split
    · decide
    · exact h d hd

/-- A margin holds nothing that separates or opens. -/
theorem Stage.not_mem_margin (s : Stage) (m : Margin) {c : Char} (h : c = ',' ∨ c = '\x7b') :
    c ∉ s.margin m := by
  have hgap : ∀ g : Gap, c ∉ g.chars := by
    intro g
    rcases h with rfl | rfl <;> exact g.inert.not_mem rfl
  have hremark : ∀ {text}, IsRemark text → c ∉ s.remark text := by
    intro text hremark hc
    obtain ⟨-, -, hcomma, hbrace⟩ := s.isRemark hremark c hc
    rcases h with rfl | rfl
    · exact hcomma rfl
    · exact hbrace rfl
  have hcomment : ∀ remarked, c ∉ s.comment remarked := by
    intro remarked
    cases remarked with
    | line text htext _ =>
      rw [comment]
      split <;> rcases h with rfl | rfl <;> simp [hremark htext]
    | block text htext =>
      rw [comment]
      split <;> rcases h with rfl | rfl <;> simp [hremark htext]
  obtain ⟨gap, _ | ⟨remarked, behind⟩⟩ := m
  · simpa [margin] using hgap gap
  · simp [margin, hgap, hcomment]

/-! ### Trailing commas -/

theorem bounds_of_start {c : Char} (h : isKeyStart c = true) : 65 ≤ c.toNat ∧ c.toNat ≤ 122 := by
  rw [isKeyStart, Bool.or_eq_true, decide_eq_true_eq] at h
  rcases h with hletter | rfl
  · rcases (Bool.or_eq_true _ _).mp hletter with hupper | hlower
    · obtain ⟨hleast, hgreatest⟩ : 'A'.val ≤ c.val ∧ c.val ≤ 'Z'.val := of_decide_eq_true hupper
      have hbounds : 65 ≤ c.toNat ∧ c.toNat ≤ 90 :=
        ⟨UInt32.le_iff_toNat_le.mp hleast, UInt32.le_iff_toNat_le.mp hgreatest⟩
      omega
    · obtain ⟨hleast, hgreatest⟩ := (Bool.and_eq_true _ _).mp hlower
      have hbounds : 97 ≤ c.toNat ∧ c.toNat ≤ 122 :=
        ⟨UInt32.le_iff_toNat_le.mp (of_decide_eq_true hleast), UInt32.le_iff_toNat_le.mp (of_decide_eq_true hgreatest)⟩
      omega
  · decide

theorem bounds_of_keyChar {c : Char} (h : isKeyChar c = true) : 48 ≤ c.toNat ∧ c.toNat ≤ 122 := by
  rw [isKeyChar, Bool.or_eq_true, decide_eq_true_eq] at h
  rcases h with hword | rfl
  · rcases (Bool.or_eq_true _ _).mp hword with hletter | hdigit
    · have hbounds := bounds_of_start (c := c) (by rw [isKeyStart, hletter, Bool.true_or])
      omega
    · obtain ⟨hleast, hgreatest⟩ := (Bool.and_eq_true _ _).mp hdigit
      have hbounds : 48 ≤ c.toNat ∧ c.toNat ≤ 57 :=
        ⟨UInt32.le_iff_toNat_le.mp (of_decide_eq_true hleast), UInt32.le_iff_toNat_le.mp (of_decide_eq_true hgreatest)⟩
      omega
  · decide

theorem isBlank_of_keyChar {c : Char} (h : isKeyChar c = true) : isBlank c = false := by
  have hbounds := bounds_of_keyChar h
  exact isBlank_of_shown (by omega) (by omega)

theorem isLead_of_start {c : Char} (h : isKeyStart c = true) : IsLead c := by
  refine ⟨isBlank_of_keyChar (isKeyChar_of_start h), ?_, ?_, ?_, ?_⟩ <;>
  · rintro rfl
    revert h
    decide

theorem closesNext_value (s : Stage) (x : Node) : closesNext (x.chars s ++ rest) = false := by
  obtain ⟨c, cs, hchars, hlead⟩ := x.lead s
  rw [hchars, List.cons_append, closesNext_lead hlead]

theorem closesNext_key (k : Key) : closesNext (Stage.relaxed.key k ++ rest) = false := by
  have hname : ∃ c cs, IsLead c ∧ Stage.relaxed.keyName k.lead k.trail k.name = k.lead.chars ++ c :: cs := by
    cases k.name with
    | quoted q l =>
      exact ⟨_, l.body ++ [Stage.relaxed.mark q] ++ k.trail.chars ++ [':'], Stage.relaxed.isLead_mark q,
        by simp [Stage.keyName, Stage.literal]⟩
    | bare i =>
      exact ⟨i.first, i.others ++ k.trail.chars ++ [':'], isLead_of_start i.starts,
        by simp [Stage.keyName, Stage.relaxed, Identifier.chars]⟩
  obtain ⟨c, cs, hlead, hname⟩ := hname
  rw [Stage.key, hname, List.append_assoc, List.append_assoc, closesNext_blank k.lead.isBlank,
    List.cons_append, closesNext_lead hlead]

/-- **Trailing commas are dropped.** -/
theorem commaCorrector : Corrector dropTrailingCommas .relaxed .afterCommas Anything := by
  have words : Stage.relaxed.words = Stage.afterCommas.words := rfl
  have inert : ∀ cs, Inert cs → Corrects dropTrailingCommas Anything cs cs :=
    fun cs hcs => corrects_commas (hcs.not_mem rfl)
  have literal : ∀ q l, Corrects dropTrailingCommas Anything (Stage.relaxed.literal q l)
      (Stage.afterCommas.literal q l) := by
    intro q l rest _
    have hmark : Stage.afterCommas.mark q = Stage.relaxed.mark q := by cases q <;> rfl
    have hlead := Stage.relaxed.isLead_mark q
    simp only [Stage.literal, hmark, List.cons_append, List.append_assoc, List.nil_append]
    rw [dropTrailingCommas_cons hlead.noComma, dropTrailingCommas_stop hlead, l.untouched.commas]
  have margin : ∀ m, Corrects dropTrailingCommas Anything (Stage.relaxed.margin m)
      (Stage.afterCommas.margin m) :=
    fun m => corrects_commas (Stage.relaxed.not_mem_margin m (.inl rfl))
  refine ⟨rfl, inert, literal, ?_, ?_, ?_, fun m => (margin m).anyway, fun _ _ _ => trivial, ?_⟩
  · intro c cs h g
    have hgap : ',' ∉ g.chars := g.inert.not_mem rfl
    refine corrects_commas ?_
    rcases h with ⟨rfl, rfl⟩ | ⟨rfl, rfl⟩ <;> simp [hgap]
  · intro c _ lead x hx
    refine corrects_commas_cons (fun rest => ?_)
      ((inert _ lead.inert).andThen (corrects_value inert words hx))
    rw [List.append_assoc, closesNext_blank lead.isBlank, closesNext_value]
  · intro c _ k x hx
    have hname := corrects_keyName inert (corrects_commas (by decide)) (corrects_commas (by decide)) literal
      rfl k.lead k.trail k.name
    refine corrects_commas_cons (fun rest => ?_)
      ((hname.andThen (margin k.margin)).andThen (corrects_value inert words hx))
    rw [List.append_assoc, closesNext_key]
  · intro comma c hc
    have hclose : Inert [c] := inert_of_all (by rcases hc with rfl | rfl <;> decide)
    cases comma with
    | none => exact inert _ hclose
    | some g =>
      intro rest _
      have hcloses : closesNext (g.chars ++ [c] ++ rest) = true := by
        rw [List.append_assoc, closesNext_blank g.isBlank]
        exact closesNext_closer hc
      show dropTrailingCommas (',' :: (g.chars ++ [c] ++ rest)) = _
      rw [dropTrailingCommas, hcloses]
      exact inert _ (g.inert.append hclose) rest trivial

end Relaxed

/-! ## Quotes -/

namespace Correction

variable {c : Char} {cs cs' : List Char}

theorem doubleQuotes_append : doubleQuotes (cs ++ cs') = doubleQuotes cs ++ doubleQuotes cs' :=
  List.map_append

theorem doubleQuotes_quiet (quiet : '\x27' ∉ cs) : doubleQuotes cs = cs := by
  induction cs with
  | nil => rfl
  | cons c cs ih =>
    rw [List.mem_cons, not_or] at quiet
    rw [doubleQuotes, List.map_cons, if_neg (Ne.symm quiet.1)]
    exact congrArg _ (ih quiet.2)

theorem corrects_quotes {Q : List Char → Prop} (h : doubleQuotes cs = cs') :
    Corrects doubleQuotes Q cs cs' := by
  intro rest _
  rw [doubleQuotes_append, h]

end Correction

namespace Relaxed

open Correction

theorem doubleQuotes_literal (q : Quote) (l : Literal) :
    doubleQuotes (Stage.afterCommas.literal q l) = Stage.afterQuotes.literal q l := by
  have hmark : doubleQuotes [Stage.afterCommas.mark q] = [Stage.afterQuotes.mark q] := by
    cases q <;> decide
  have hbody := doubleQuotes_quiet l.untouched.quotes
  calc doubleQuotes ([Stage.afterCommas.mark q] ++ (l.body ++ [Stage.afterCommas.mark q]))
      = [Stage.afterQuotes.mark q] ++ (l.body ++ [Stage.afterQuotes.mark q]) := by
        rw [doubleQuotes_append, doubleQuotes_append, hmark, hbody]

theorem doubleQuotes_comment (remarked : Comment) :
    doubleQuotes (Stage.afterCommas.comment remarked) = Stage.afterQuotes.comment remarked := by
  cases remarked with
  | line text =>
    show doubleQuotes (['/', '/'] ++ (text ++ ['\n'])) = ['/', '/'] ++ (doubleQuotes text ++ ['\n'])
    rw [doubleQuotes_append, doubleQuotes_append]
    rfl
  | block text =>
    show doubleQuotes (['/', '*'] ++ (text ++ ['*', '/'])) = ['/', '*'] ++ (doubleQuotes text ++ ['*', '/'])
    rw [doubleQuotes_append, doubleQuotes_append]
    rfl

/-- **Every string stands in double quotes.** -/
theorem quoteCorrector : TokenCorrector doubleQuotes .afterCommas .afterQuotes where
  nil := rfl
  inert cs hcs := corrects_quotes (doubleQuotes_quiet (hcs.not_mem rfl))
  separator := by
    rintro c (rfl | rfl | rfl | rfl | rfl) <;> exact corrects_quotes (by decide)
  literal q l := corrects_quotes (doubleQuotes_literal q l)
  comment remarked := corrects_quotes (doubleQuotes_comment remarked)
  commas := rfl
  keys := rfl
  words := rfl

end Relaxed

/-! ## Keys -/

namespace Correction

variable {c d : Char} {cs cs' rest : List Char} {n : Nat}

theorem corrects_keys (quiet : ',' ∉ cs) (quiet' : '\x7b' ∉ cs) :
    Corrects (quoteKeysFrom 0) Anything cs cs := by
  intro rest _
  induction cs with
  | nil => rfl
  | cons x cs ih =>
    rw [List.mem_cons, not_or] at quiet quiet'
    rw [List.cons_append, quoteKeysFrom, ih quiet.2 quiet'.2]
    simp [Ne.symm quiet.1, Ne.symm quiet'.1]

/-- Skipping a text leaves what follows it. -/
theorem quoteKeysFrom_skip (cs rest : List Char) :
    quoteKeysFrom cs.length (cs ++ rest) = quoteKeysFrom 0 rest := by
  induction cs with
  | nil => rfl
  | cons c cs ih => exact ih

/-- Where no key follows, a brace or a comma stays as it is. -/
theorem corrects_keys_cons {Q : List Char → Prop} (none : ∀ rest, Q rest → bareKeyLength? (cs ++ rest) = none)
    (h : Corrects (quoteKeysFrom 0) Q cs cs') : Corrects (quoteKeysFrom 0) Q (c :: cs) (c :: cs') := by
  intro rest hrest
  rw [List.cons_append, quoteKeysFrom, none rest hrest, h rest hrest]
  simp

/-! ### What is no key -/

theorem dropWhile_blank (blank : ∀ c ∈ cs, isBlank c = true) (shown : isBlank d = false) :
    (cs ++ d :: rest).dropWhile isBlank = d :: rest := by
  rw [List.dropWhile_append_of_pos blank, List.dropWhile_cons_of_neg (by simp [shown])]

theorem bareKeyLength?_of_no_start (blank : ∀ c ∈ cs, isBlank c = true) (shown : isBlank d = false)
    (start : isKeyStart d = false) : bareKeyLength? (cs ++ d :: rest) = none := by
  unfold bareKeyLength?
  rw [dropWhile_blank blank shown]
  dsimp only
  split
  · rename_i first _ _ hkey _
    have hfirst : first = d := by
      rw [List.takeWhile_cons] at hkey
      split at hkey
      · exact (List.cons.inj hkey).1.symm
      · cases hkey
    rw [hfirst, start]
    rfl
  · rfl

/-- What follows a word so that it is no key: the word ends, and no colon comes next. -/
def NoKey (rest : List Char) : Prop :=
  (∀ c, rest.head? = some c → isKeyChar c = false) ∧
    ∀ c, (rest.dropWhile isBlank).head? = some c → c ≠ ':'

theorem bareKeyLength?_of_noKey {word : List Char} (blank : ∀ c ∈ cs, isBlank c = true)
    (shown : isBlank d = false) (key : ∀ c ∈ d :: word, isKeyChar c = true) (ends : NoKey rest) :
    bareKeyLength? (cs ++ (d :: word ++ rest)) = none := by
  obtain ⟨-, hbehind⟩ := span_append key ends.1
  unfold bareKeyLength?
  rw [List.cons_append, dropWhile_blank blank shown, ← List.cons_append]
  dsimp only
  rw [hbehind]
  split
  · rename_i hcolon
    exact absurd rfl (ends.2 ':' (by rw [hcolon]; rfl))
  · rfl

/-- A key with the blanks around it and its colon. -/
theorem bareKeyLength?_of_key {word trail : List Char} (blank : ∀ c ∈ cs, isBlank c = true)
    (shown : isBlank d = false) (start : isKeyStart d = true) (key : ∀ c ∈ d :: word, isKeyChar c = true)
    (blank' : ∀ c ∈ trail, isBlank c = true ∧ isKeyChar c = false) :
    bareKeyLength? (cs ++ (d :: word ++ (trail ++ ':' :: rest))) =
      some (d :: word, (cs ++ (d :: word ++ (trail ++ [':']))).length) := by
  have hends : ∀ c, (trail ++ ':' :: rest).head? = some c → isKeyChar c = false := by
    cases trail with
    | nil => rintro _ ⟨⟩; decide
    | cons c trail => rintro _ ⟨⟩; exact (blank' _ List.mem_cons_self).2
  obtain ⟨hword, hbehind⟩ := span_append key hends
  unfold bareKeyLength?
  rw [List.cons_append, dropWhile_blank blank shown, ← List.cons_append]
  dsimp only
  rw [hword, hbehind, dropWhile_blank (fun c hc => (blank' c hc).1) (by decide)]
  simp only [start, if_true]
  congr 2
  simp only [List.length_append, List.length_cons, List.length_nil]
  omega

/-! ### Over a quote -/

theorem bareKeyLength?_stop : bareKeyLength? (cs ++ '"' :: rest) = bareKeyLength? cs := by
  have hblank : isBlank '"' = false := by decide
  have hkey : isKeyChar '"' = false := by decide
  unfold bareKeyLength?
  dsimp only
  rw [dropWhile_stop hblank, takeWhile_stop hkey, dropWhile_stop hkey, dropWhile_stop hblank]
  cases hfirst : (cs.dropWhile isBlank).takeWhile isKeyChar with
  | nil => rfl
  | cons first others =>
    cases hbehind : ((cs.dropWhile isBlank).dropWhile isKeyChar).dropWhile isBlank with
    | nil => rfl
    | cons c after =>
      by_cases hc : c = ':'
      · subst hc
        show (if isKeyStart first = true then
            some (first :: others, (cs ++ '"' :: rest).length - (after ++ '"' :: rest).length) else none) =
          if isKeyStart first = true then some (first :: others, cs.length - after.length) else none
        rw [List.length_append, List.length_append, Nat.add_sub_add_right]
      · rw [List.cons_append]
        split
        · rename_i heq
          exact absurd (List.cons.inj heq).1 hc
        · split
          · rename_i heq
            exact absurd (List.cons.inj heq).1 hc
          · rfl

theorem bareKeyLength?_le {key : List Char} (h : bareKeyLength? cs = some (key, n)) : n ≤ cs.length := by
  unfold bareKeyLength? at h
  dsimp only at h
  split at h
  · split at h
    · cases h
      exact Nat.sub_le _ _
    · cases h
  · cases h

/-- Bare keys on the two sides of a quote are told apart. -/
theorem quoteKeysFrom_stop (h : n ≤ cs.length) :
    quoteKeysFrom n (cs ++ '"' :: rest) = quoteKeysFrom n cs ++ '"' :: quoteKeysFrom 0 rest := by
  induction cs generalizing n with
  | nil =>
    cases Nat.le_zero.mp h
    simp [quoteKeysFrom]
  | cons c cs ih =>
    cases n with
    | succ n => exact ih (Nat.le_of_succ_le_succ h)
    | zero =>
      rw [List.cons_append, quoteKeysFrom, quoteKeysFrom, bareKeyLength?_stop]
      split
      · cases hkey : bareKeyLength? cs with
        | none => simp [ih (Nat.zero_le _)]
        | some found =>
          obtain ⟨key, n⟩ := found
          simp [ih (bareKeyLength?_le hkey)]
      · rw [ih (Nat.zero_le _), List.cons_append]

end Correction

namespace Relaxed

open Correction

/-! ### Keys of a document -/

section
variable {rest : List Char}

theorem Gap.isKeyChar_eq_false (g : Gap) {c : Char} (hc : c ∈ g.chars) : isKeyChar c = false := by
  cases hkey : isKeyChar c with
  | false => rfl
  | true =>
    have hblank := g.isBlank c hc
    rw [isBlank_of_keyChar hkey] at hblank
    cases hblank

theorem noKey_gap (g : Gap) (h : NoKey rest) : NoKey (g.chars ++ rest) := by
  constructor
  · cases hg : g.chars with
    | nil => exact h.1
    | cons c cs =>
      rintro _ ⟨⟩
      exact g.isKeyChar_eq_false (by rw [hg]; exact List.mem_cons_self)
  · rw [List.dropWhile_append_of_pos g.isBlank]
    exact h.2

theorem noKey_cons {c : Char} (key : isKeyChar c = false) (shown : isBlank c = false) (colon : c ≠ ':') :
    NoKey (c :: rest) := by
  constructor
  · rintro _ ⟨⟩
    exact key
  · rw [List.dropWhile_cons_of_neg (by simp [shown])]
    rintro _ ⟨⟩
    exact colon

theorem Closing.noKey (h : Closing rest) : NoKey rest := by
  obtain ⟨g, tail, rfl, htail⟩ := h
  refine noKey_gap g ?_
  cases tail with
  | nil => exact ⟨by simp, by simp⟩
  | cons c tail =>
    rcases htail c rfl with rfl | rfl | rfl <;> exact noKey_cons (by decide) (by decide) (by decide)

theorem noKey_margin (m : Margin) (h : Closing rest) : NoKey (Stage.afterQuotes.margin m ++ rest) := by
  obtain ⟨gap, _ | ⟨remarked, behind⟩⟩ := m
  · rw [Stage.margin, List.append_nil]
    exact noKey_gap gap h.noKey
  · rw [Stage.margin, List.append_assoc]
    refine noKey_gap gap ?_
    cases remarked <;> exact noKey_cons (by decide) (by decide) (by decide)

theorem isKeyStart_of_digit {c : Char} (h : isAsciiDigit c = true) : isKeyStart c = false := by
  have hbounds := bounds_of_digit h
  cases hstart : isKeyStart c with
  | false => rfl
  | true =>
    have hletter := bounds_of_start hstart
    omega

/-- Behind a comma, a value is not taken for a key. -/
theorem bareKeyLength?_value (lead : Gap) (x : Node) (h : NoKey rest) :
    bareKeyLength? (lead.chars ++ (x.chars .afterQuotes ++ rest)) = none := by
  have noStart : ∀ c cs, x.chars .afterQuotes = c :: cs → isKeyStart c = false →
      bareKeyLength? (lead.chars ++ (x.chars .afterQuotes ++ rest)) = none := by
    intro c cs hchars hstart
    obtain ⟨d, ds, hlead, hshown⟩ := x.lead .afterQuotes
    rw [hchars] at hlead ⊢
    cases hlead
    exact bareKeyLength?_of_no_start lead.isBlank hshown.shown hstart
  cases x with
  | null w =>
    cases w <;> exact bareKeyLength?_of_noKey lead.isBlank (by decide) (by simp; decide) h
  | bool b =>
    cases b <;> rw [Node.chars] <;>
      exact bareKeyLength?_of_noKey lead.isBlank (by decide) (by simp; decide) h
  | num t =>
    obtain ⟨c, cs, hchars, rfl | hdigit⟩ := t.lead
    · exact noStart '-' cs hchars (by decide)
    · exact noStart c cs hchars (isKeyStart_of_digit hdigit)
  | str q l => exact noStart '"' _ (by cases q <;> rfl) (by decide)
  | emptyArr | arr | emptyObj | obj => exact noStart _ _ (by rw [Node.chars]) (by decide)

end

theorem Stage.literal_double (s : Stage) (h : s.quotes = false) (q : Quote) (l : Literal) :
    s.literal q l = '"' :: (l.body ++ ['"']) := by
  cases q <;> simp [literal, mark, h]

theorem corrects_literal_keys (q : Quote) (l : Literal) : Corrects (quoteKeysFrom 0) Anything
    (Stage.afterQuotes.literal q l) (Stage.afterKeys.literal q l) := by
  have hkeys : quoteKeysFrom 0 l.body = l.body := l.untouched.keys
  intro rest _
  rw [Stage.literal_double _ rfl, Stage.literal_double _ rfl]
  simp only [List.cons_append, List.append_assoc, List.nil_append]
  rw [quoteKeysFrom, quoteKeysFrom_stop (Nat.zero_le _), hkeys]
  rfl

/-- A key behind a brace or a comma: what is quoted stays, what is bare is put in quotes. -/
theorem corrects_keyName_keys {c : Char} (hc : c = '\x7b' ∨ c = ',') (lead trail : Gap) (name : KeyName) :
    Corrects (quoteKeysFrom 0) Anything (c :: Stage.afterQuotes.keyName lead trail name)
      (c :: Stage.afterKeys.keyName lead trail name) := by
  have inert : ∀ cs, Inert cs → Corrects (quoteKeysFrom 0) Anything cs cs :=
    fun cs hcs => corrects_keys (hcs.not_mem rfl) (hcs.not_mem rfl)
  cases name with
  | quoted q l =>
    have hcolon : Corrects (quoteKeysFrom 0) Anything [':'] [':'] := corrects_keys (by decide) (by decide)
    refine corrects_keys_cons (fun rest _ => ?_) ((((inert _ lead.inert).andThen
      (corrects_literal_keys q l)).andThen (inert _ trail.inert)).andThen hcolon)
    have hmark : Stage.afterQuotes.mark q = '"' := by cases q <;> rfl
    simp only [Stage.keyName, Stage.literal, List.append_assoc, List.cons_append, hmark]
    exact bareKeyLength?_of_no_start lead.isBlank (by decide) (by decide)
  | bare i =>
    intro rest _
    have hfound : bareKeyLength? (lead.chars ++ (i.chars ++ (trail.chars ++ ':' :: rest))) =
        some (i.chars, (lead.chars ++ (i.chars ++ (trail.chars ++ [':']))).length) :=
      bareKeyLength?_of_key lead.isBlank (isLead_of_start i.starts).shown i.starts i.isKeyChar
        fun d hd => ⟨trail.isBlank d hd, trail.isKeyChar_eq_false hd⟩
    have hskip := quoteKeysFrom_skip (lead.chars ++ (i.chars ++ (trail.chars ++ [':']))) rest
    have hopen : (c = '\x7b' || c = ',') = true := by simpa using hc
    simp only [List.append_assoc, List.cons_append, List.nil_append] at hskip
    simp only [Stage.keyName, Stage.afterQuotes, Stage.afterKeys, if_true, Bool.false_eq_true, if_false,
      List.append_assoc, List.cons_append, List.nil_append]
    rw [quoteKeysFrom, if_pos hopen, hfound]
    dsimp only
    rw [hskip]

/-- **Every key stands in quotes.** -/
theorem keyCorrector : Corrector (quoteKeysFrom 0) .afterQuotes .afterKeys NoKey := by
  have words : Stage.afterQuotes.words = Stage.afterKeys.words := rfl
  have inert : ∀ cs, Inert cs → Corrects (quoteKeysFrom 0) Anything cs cs :=
    fun cs hcs => corrects_keys (hcs.not_mem rfl) (hcs.not_mem rfl)
  have margin : ∀ m, Corrects (quoteKeysFrom 0) Anything (Stage.afterQuotes.margin m)
      (Stage.afterKeys.margin m) :=
    fun m => corrects_keys (Stage.afterQuotes.not_mem_margin m (.inl rfl))
      (Stage.afterQuotes.not_mem_margin m (.inr rfl))
  refine ⟨rfl, inert, corrects_literal_keys, ?_, ?_, ?_, fun m => (margin m).anyway,
    fun m _ => noKey_margin m, ?_⟩
  · rintro c cs (⟨rfl, rfl⟩ | ⟨rfl, rfl⟩) g
    · have hcomma : ',' ∉ g.chars := g.inert.not_mem rfl
      have hbrace : '\x7b' ∉ g.chars := g.inert.not_mem rfl
      exact corrects_keys (by simp [hcomma]) (by simp [hbrace])
    · refine corrects_keys_cons (fun rest _ => ?_) (inert _ (g.inert.append (inert_of_all (by decide))))
      rw [List.append_assoc]
      exact bareKeyLength?_of_no_start g.isBlank (by decide) (by decide)
  · intro c _ lead x hx
    refine corrects_keys_cons (fun rest hrest => ?_)
      ((inert _ lead.inert).andThen (corrects_value inert words hx)).anyway
    rw [List.append_assoc]
    exact bareKeyLength?_value lead x hrest
  · intro c hc k x hx
    have hfield := ((corrects_keyName_keys hc k.lead k.trail k.name).andThen (margin k.margin)).andThen
      (corrects_value inert words hx)
    exact hfield.anyway
  · intro comma c hc
    have hclose : Inert [c] := inert_of_all (by rcases hc with rfl | rfl <;> decide)
    cases comma with
    | none => exact inert _ hclose
    | some g => exact inert _ (g.inert.append hclose)

end Relaxed

end JsonMend
