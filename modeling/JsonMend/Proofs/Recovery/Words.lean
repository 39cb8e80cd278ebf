import JsonMend.Proofs.Recovery.Comments
/-
  Bare tokens become nulls, and this is the last correction.

  It is the one that heeds strings: what the strict reader takes for a string, up to the same quote, is copied
  (`quotable_of_body`).  Outside of strings a token counts only behind a colon, a comma or an opening
  bracket, so a value is seen together with what stands in front of it.

  1. **Strings** (`corrects_quoted`)
  2. **Values** (`corrects_word_value`)
  3. **Documents** (`wordCorrector`)
-/
namespace JsonMend

open Relaxed

namespace Correction

variable {c d : Char} {cs cs' rest : List Char} {units : List Nat}

/-! ## Strings -/

theorem literalLength?_cons (quote : c ≠ '"') (backslash : c ≠ '\\') :
    literalLength? (c :: cs) = (literalLength? cs).map (· + 1) := by
  rw [literalLength?.eq_def]
  split
  · cases ‹_ = _›
  · cases ‹_ = _›
    exact absurd rfl quote
  · cases ‹_ = _›
    exact absurd rfl backslash
  · cases ‹_ = _›
    rw [if_neg backslash]

theorem plain_of_hexValue {n : Nat} (h : hexValue? c = some n) : c ≠ '"' ∧ c ≠ '\\' := by
  constructor <;> rintro rfl <;> cases h

/-- A text between double quotes that the correction takes for one string. -/
def Quotable (body : List Char) : Prop :=
  ∀ rest, literalLength? (body ++ '"' :: rest) = some (body.length + 1)

/-- A string that is read ends at the same quote for the correction. -/
theorem quotable_of_body (h : StringBody cs units) : Quotable cs := by
  intro rest
  induction h with
  | nil => rfl
  | @unit a b c d _ _ _ hunit _ ih =>
    have hplain : ∀ x ∈ [a, b, c, d], x ≠ '"' ∧ x ≠ '\\' := fun x hx =>
      plain_of_hexValue (hexValue_of_hexUnit hunit x hx).choose_spec
    simp only [List.forall_mem_cons] at hplain
    obtain ⟨ha, hb, hc, hd, -⟩ := hplain
    simp only [List.cons_append]
    rw [literalLength?, if_neg (by decide), literalLength?_cons ha.1 ha.2, literalLength?_cons hb.1 hb.2,
      literalLength?_cons hc.1 hc.2, literalLength?_cons hd.1 hd.2, ih]
    rfl
  | @letter e _ _ _ hescape _ ih =>
    have hline : e ≠ '\n' := by
      rintro rfl
      cases hescape
    simp only [List.cons_append]
    rw [literalLength?, if_neg hline, ih]
    rfl
  | plain hquote hbackslash _ _ ih =>
    rw [List.cons_append, literalLength?_cons hquote hbackslash, ih]
    rfl

theorem quotable_of_plain (plain : ∀ c ∈ cs, c ≠ '"' ∧ c ≠ '\\') : Quotable cs := by
  intro rest
  induction cs with
  | nil => rfl
  | cons c cs ih =>
    rw [List.forall_mem_cons] at plain
    rw [List.cons_append, literalLength?_cons plain.1.1 plain.1.2, ih plain.2]
    rfl

theorem quotable_of_reads {text : List Char} (reads : ∀ rest, readString (cs ++ '"' :: rest) = some (text, rest)) :
    Quotable cs := by
  obtain ⟨body, _, hcs, hbody, -⟩ := StringBody.of_readString (reads [])
  rw [List.append_cancel_right hcs]
  exact quotable_of_body hbody

theorem quotable_literal (l : Literal) : Quotable l.body := quotable_of_reads l.reads

theorem quotable_identifier (i : Identifier) : Quotable i.chars := by
  refine quotable_of_plain fun c hc => ?_
  have hkey := i.isKeyChar c hc
  constructor <;> rintro rfl <;> revert hkey <;> decide

theorem nullTokensFrom_copy (cs rest : List Char) :
    nullTokensFrom cs.length 0 (cs ++ rest) = cs ++ nullTokensFrom 0 0 rest := by
  induction cs with
  | nil => rfl
  | cons c cs ih => rw [List.length_cons, List.cons_append, nullTokensFrom_copying, ih, List.cons_append]

theorem nullTokensFrom_skip (cs rest : List Char) :
    nullTokensFrom 0 cs.length (cs ++ rest) = nullTokensFrom 0 0 rest := by
  induction cs with
  | nil => rfl
  | cons c cs ih => rw [List.length_cons, List.cons_append, nullTokensFrom_skipping, ih]

/-- Strings are left alone. -/
theorem corrects_quoted (h : Quotable cs) :
    Corrects (nullTokensFrom 0 0) Anything ('"' :: (cs ++ ['"'])) ('"' :: (cs ++ ['"'])) := by
  intro rest _
  have hcopy := nullTokensFrom_copy (cs ++ ['"']) rest
  rw [List.length_append, List.length_singleton, List.append_assoc] at hcopy
  have hlength : literalLength? (cs ++ (['"'] ++ rest)) = some (cs.length + 1) := h rest
  rw [List.cons_append, List.append_assoc, nullTokensFrom_cons, if_pos rfl, hlength, Option.getD_some, hcopy,
    List.cons_append]

/-! ## Values -/

/-- A character in front of a bare token. -/
def frontsWord (c : Char) : Bool := c = ':' || c = '[' || c = ','

theorem noQuote_of_fronts (fronts : frontsWord c = true) : c ≠ '"' := by
  rintro rfl
  cases fronts

theorem words_cons (quote : c ≠ '"') (quiet : frontsWord c = false) :
    nullTokensFrom 0 0 (c :: rest) = c :: nullTokensFrom 0 0 rest := by
  have hquiet : (c = ':' || c = '[' || c = ',') = false := quiet
  rw [nullTokensFrom_cons, if_neg quote, hquiet]
  rfl

theorem corrects_words (inert : Inert cs) : Corrects (nullTokensFrom 0 0) Anything cs cs := by
  intro rest _
  induction cs with
  | nil => rfl
  | cons c cs ih =>
    have hc : isSpecial c = false := inert c List.mem_cons_self
    have hquote : c ≠ '"' := by
      rintro rfl
      cases hc
    have hquiet : frontsWord c = false := by
      simp only [isSpecial, Bool.or_eq_false_iff] at hc
      simp [frontsWord, hc]
    rw [List.cons_append, words_cons hquote hquiet, ih fun d hd => inert d (List.mem_cons_of_mem _ hd),
      List.cons_append]

/-- Without a bare token behind it, a character stays. -/
theorem corrects_words_cons {Q : List Char → Prop} (quote : c ≠ '"')
    (none : ∀ rest, Q rest → bareToken? (cs ++ rest) = none) (h : Corrects (nullTokensFrom 0 0) Q cs cs') :
    Corrects (nullTokensFrom 0 0) Q (c :: cs) (c :: cs') := by
  intro rest hrest
  rw [List.cons_append, nullTokensFrom_cons, if_neg quote, none rest hrest, h rest hrest]
  simp

/-- The bare tokens start with one of two letters. -/
theorem bareToken?_of_lead (blank : ∀ c ∈ cs, isBlank c = true) (shown : isBlank d = false)
    (undefined : d ≠ 'u') (nan : d ≠ 'N') : bareToken? (cs ++ d :: rest) = none := by
  unfold bareToken?
  rw [dropWhile_blank blank shown]
  simp [bareTokens, Ne.symm undefined, Ne.symm nan]

/-- A bare token is found behind blanks, where the word ends with it. -/
theorem bareToken?_of_token {token : List Char} (blank : ∀ c ∈ cs, isBlank c = true)
    (htoken : token = NullWord.undefined.chars ∨ token = NullWord.nan.chars) (ends : endsWord rest = true) :
    bareToken? (cs ++ (token ++ rest)) = some (cs, (cs ++ token).length) := by
  have hshown : isBlank 'u' = false ∧ isBlank 'N' = false := by decide
  unfold bareToken?
  rw [List.length_append]
  rcases htoken with rfl | rfl
  · simp [NullWord.chars, bareTokens, List.takeWhile_append_of_pos blank, List.dropWhile_append_of_pos blank,
      hshown.1, ends]
  · simp [NullWord.chars, bareTokens, List.takeWhile_append_of_pos blank, List.dropWhile_append_of_pos blank,
      hshown.2, ends]

/-- What ends a word. -/
def EndsWord (rest : List Char) : Prop := endsWord rest = true

/-- A bare token becomes a null. -/
theorem corrects_token {token : List Char} (fronts : frontsWord c = true) (blank : ∀ c ∈ cs, isBlank c = true)
    (htoken : token = NullWord.undefined.chars ∨ token = NullWord.nan.chars) :
    Corrects (nullTokensFrom 0 0) EndsWord (c :: (cs ++ token)) (c :: (cs ++ NullWord.null.chars)) := by
  intro rest hrest
  have hquote := noQuote_of_fronts fronts
  have hskip := nullTokensFrom_skip (cs ++ token) rest
  have hfronts : (c = ':' || c = '[' || c = ',') = true := fronts
  rw [List.append_assoc] at hskip
  rw [List.cons_append, List.append_assoc, nullTokensFrom_cons, if_neg hquote, if_pos hfronts,
    bareToken?_of_token blank htoken hrest]
  dsimp only
  rw [hskip]
  simp [NullWord.chars]

end Correction

namespace Relaxed

open Correction

theorem Node.lead_of_value (s : Stage) {x : Node} (h : x.isNull = false) :
    ∃ c cs, x.chars s = c :: cs ∧ isBlank c = false ∧ c ≠ 'u' ∧ c ≠ 'N' := by
  obtain ⟨c, cs, hchars, hlead⟩ := x.lead s
  refine ⟨c, cs, hchars, hlead.shown, ?_⟩
  cases x with
  | null => cases h
  | bool b => cases b <;> cases hchars <;> decide
  | num t =>
    obtain ⟨d, ds, hnumeral, hd⟩ := t.lead
    rw [chars, hnumeral] at hchars
    cases hchars
    constructor <;> rintro rfl <;> rcases hd with hd | hd <;> cases hd
  | str q l =>
    cases hchars
    cases q with
    | single => cases hquotes : s.quotes <;> simp [Stage.mark, hquotes]
    | double => simp [Stage.mark]
  | emptyArr | arr | emptyObj | obj => cases hchars; decide

/-- A value that starts like no bare token stays as it is, behind a bracket, a comma or a colon. -/
theorem corrects_fronted_value {c d : Char} {cs cs' ds : List Char} (fronts : frontsWord c = true) (g : Gap)
    (hchars : cs = d :: ds) (hlead : isBlank d = false ∧ d ≠ 'u' ∧ d ≠ 'N')
    (h : Corrects (nullTokensFrom 0 0) Anything cs cs') :
    Corrects (nullTokensFrom 0 0) EndsWord (c :: (g.chars ++ cs)) (c :: (g.chars ++ cs')) := by
  obtain ⟨hshown, hu, hn⟩ := hlead
  refine (corrects_words_cons (noQuote_of_fronts fronts) (fun rest _ => ?_)
    ((corrects_words g.inert).andThen h)).anyway
  rw [List.append_assoc, hchars]
  exact bareToken?_of_lead g.isBlank hshown hu hn

/-- A null in any spelling becomes one, behind a bracket, a comma or a colon. -/
theorem corrects_fronted_word {c : Char} (fronts : frontsWord c = true) (g : Gap) (w : NullWord) :
    Corrects (nullTokensFrom 0 0) EndsWord (c :: (g.chars ++ w.chars)) (c :: (g.chars ++ NullWord.null.chars)) := by
  cases w with
  | null => exact corrects_fronted_value fronts g rfl (by decide) (corrects_words NullWord.null.inert)
  | undefined => exact corrects_token fronts g.isBlank (.inl rfl)
  | nan => exact corrects_token fronts g.isBlank (.inr rfl)

/-- A value behind a bracket, a comma or a colon: a bare token becomes a null. -/
theorem corrects_fronted {c : Char} {x : Node} (fronts : frontsWord c = true) (g : Gap)
    (hx : x.isNull = false → Corrects (nullTokensFrom 0 0) Anything (x.chars .afterBlocks) (x.chars .strict)) :
    Corrects (nullTokensFrom 0 0) EndsWord (c :: (g.chars ++ x.chars .afterBlocks))
      (c :: (g.chars ++ x.chars .strict)) := by
  cases hnull : x.isNull with
  | false =>
    obtain ⟨d, ds, hchars, hlead⟩ := Node.lead_of_value .afterBlocks hnull
    exact corrects_fronted_value fronts g hchars hlead (hx hnull)
  | true =>
    cases x with
    | null w => exact corrects_fronted_word fronts g w
    | bool | num | str | emptyArr | arr | emptyObj | obj => cases hnull

/-! ## Documents -/

/-- Once all keys stand in double quotes, a key is a string with a colon behind it. -/
theorem Stage.exists_keyName (s : Stage) (quotes : s.quotes = false) (keys : s.keys = false) (lead trail : Gap)
    (name : KeyName) : ∃ (g g' : Gap) (body : List Char), Quotable body ∧
      s.keyName lead trail name = g.chars ++ ('"' :: (body ++ ['"']) ++ (g'.chars ++ [':'])) := by
  cases name with
  | quoted q l =>
    exact ⟨lead, trail, l.body, quotable_literal l, by simp [keyName, s.literal_double quotes]⟩
  | bare i => exact ⟨.none, .none, i.chars, quotable_identifier i, by simp [keyName, keys, Gap.none]⟩

theorem endsWord_gap {rest : List Char} (g : Gap) (h : EndsWord rest) : EndsWord (g.chars ++ rest) := by
  cases hg : g.chars with
  | nil => exact h
  | cons c cs =>
    have hspace : isJsonSpace c = true := g.blank c (by rw [hg]; exact List.mem_cons_self)
    have hcases : c = ' ' ∨ c = '\t' ∨ c = '\n' ∨ c = '\r' := by
      simpa [isJsonSpace, or_assoc] using hspace
    have hword : isWordChar c = false := by
      rcases hcases with rfl | rfl | rfl | rfl <;> decide
    simp [EndsWord, endsWord, hword]

theorem Closing.endsWord {rest : List Char} (h : Closing rest) : EndsWord rest := by
  obtain ⟨g, tail, rfl, htail⟩ := h
  refine endsWord_gap g ?_
  cases tail with
  | nil => rfl
  | cons c tail =>
    have hword : isWordChar c = false := by
      rcases htail c rfl with rfl | rfl | rfl <;> decide
    simp [EndsWord, Correction.endsWord, hword]

theorem Stage.strictMargin_afterBlocks (m : Margin) : Stage.afterBlocks.strictMargin m = true := by
  obtain ⟨gap, _ | ⟨_ | _, behind⟩⟩ := m <;> rfl

theorem Stage.margin_afterBlocks (m : Margin) : Stage.strict.margin m = Stage.afterBlocks.margin m := by
  obtain ⟨gap, _ | ⟨_ | _, behind⟩⟩ := m <;> rfl

theorem Stage.key_afterBlocks (k : Key) : Stage.strict.key k = Stage.afterBlocks.key k := by
  have hname : Stage.strict.keyName k.lead k.trail k.name = Stage.afterBlocks.keyName k.lead k.trail k.name := by
    cases k.name with
    | quoted q l => cases q <;> rfl
    | bare i => rfl
  rw [Stage.key, Stage.key, hname, Stage.margin_afterBlocks]

/-- A member: its key is left alone, and its value stands behind a colon. -/
theorem corrects_field {c : Char} (hc : c = '\x7b' ∨ c = ',') (k : Key) {x : Node}
    (hx : x.isNull = false → Corrects (nullTokensFrom 0 0) Anything (x.chars .afterBlocks) (x.chars .strict)) :
    Corrects (nullTokensFrom 0 0) EndsWord (c :: (Stage.afterBlocks.key k ++ x.chars .afterBlocks))
      (c :: (Stage.strict.key k ++ x.chars .strict)) := by
  obtain ⟨g, g', body, hbody, hname⟩ := Stage.afterBlocks.exists_keyName rfl rfl k.lead k.trail k.name
  obtain ⟨behind, hbehind⟩ := Stage.gap_of_strictMargin (Stage.strictMargin_afterBlocks k.margin)
  have hquote : c ≠ '"' := by rcases hc with rfl | rfl <;> decide
  have hfront := corrects_words_cons (Q := Anything) hquote (fun rest _ => by
    rw [List.append_assoc]
    exact bareToken?_of_lead g.isBlank (by decide) (by decide) (by decide))
    ((corrects_words g.inert).andThen ((corrects_quoted hbody).andThen (corrects_words g'.inert)))
  have hall := hfront.andThen (corrects_fronted (c := ':') (by decide) behind hx)
  rw [Stage.key_afterBlocks, Stage.key, hname, hbehind]
  simpa only [List.cons_append, List.append_assoc, List.nil_append] using hall

/-- **Every null is spelled as such.** -/
theorem wordCorrector : Corrector (nullTokensFrom 0 0) .afterBlocks .strict EndsWord := by
  have margin : ∀ m, Corrects (nullTokensFrom 0 0) Anything (Stage.afterBlocks.margin m) (Stage.strict.margin m) := by
    intro m
    obtain ⟨g, hg⟩ := Stage.gap_of_strictMargin (Stage.strictMargin_afterBlocks m)
    rw [Stage.margin_afterBlocks, hg]
    exact corrects_words g.inert
  refine ⟨rfl, fun cs => corrects_words, ?_, ?_, ?_, ?_, fun m => (margin m).anyway, ?_, ?_⟩
  · intro q l
    rw [Stage.literal_double _ rfl, Stage.literal_double _ rfl]
    exact corrects_quoted (quotable_literal l)
  · intro c cs h g
    have hquote : c ≠ '"' := by rcases h with ⟨rfl, -⟩ | ⟨rfl, -⟩ <;> decide
    refine corrects_words_cons hquote (fun rest _ => ?_) (corrects_words (g.inert.append ?_))
    · rw [List.append_assoc]
      rcases h with ⟨-, rfl⟩ | ⟨-, rfl⟩ <;>
        exact bareToken?_of_lead g.isBlank (by decide) (by decide) (by decide)
    · rcases h with ⟨-, rfl⟩ | ⟨-, rfl⟩ <;> exact inert_of_all (by decide)
  · intro c hc lead x hx
    exact corrects_fronted (by rcases hc with rfl | rfl <;> decide) lead hx
  · intro c hc k x hx
    exact corrects_field hc k hx
  · exact fun m rest hrest => by
      obtain ⟨g, hg⟩ := Stage.gap_of_strictMargin (Stage.strictMargin_afterBlocks m)
      rw [hg]
      exact endsWord_gap g hrest.endsWord
  · intro comma c hc
    have hclose : Inert [c] := inert_of_all (by rcases hc with rfl | rfl <;> decide)
    cases comma with
    | none => exact corrects_words hclose
    | some g => exact corrects_words (g.inert.append hclose)

end Relaxed

end JsonMend
