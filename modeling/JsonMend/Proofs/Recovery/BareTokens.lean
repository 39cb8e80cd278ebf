import JsonMend.Proofs.Recovery.Spelled
/-
  Replacing bare tokens is exact.

  The correction goes through a text once and knows no grammar.  On a text that is strict but for its bare tokens it
  enters each string at its opening quote and leaves it at its closing one, so every bare token becomes a null and
  nothing else changes, whatever the strings hold.

  1. **Strings** (`Quoted.corrects`)
  2. **Values** (`Node.corrects`) — by induction on the tree, each entry together with what stands in front of it.
  3. **Documents** (`nullBareTokens_exact`) — the texts that are read strictly are the ones that come out.
-/
namespace JsonMend

open Relaxed Correction

namespace Spelling

/-! ## Strings -/

theorem Quoted.corrects (q : Quoted) : Corrects (nullTokensFrom 0 0) Anything q.chars q.chars :=
  corrects_quoted (quotable_of_reads q.reads)

/-! ## Values -/

/-- Whether a value is a null. -/
def Node.isNull : Node → Bool
  | .null _ => true
  | _ => false

theorem Node.lead_of_value (s : Style) {x : Node} (h : x.isNull = false) :
    ∃ c cs, x.chars s = c :: cs ∧ isBlank c = false ∧ c ≠ 'u' ∧ c ≠ 'N' := by
  obtain ⟨c, cs, hchars, hlead⟩ := x.lead s
  refine ⟨c, cs, hchars, hlead.shown, ?_⟩
  cases x with
  | null w => cases h
  | bool b => cases b <;> cases hchars <;> decide
  | num t =>
    obtain ⟨d, ds, hnumeral, hd⟩ := t.lead
    rw [chars, hnumeral] at hchars
    cases hchars
    constructor <;> rintro rfl <;> rcases hd with hd | hd <;> cases hd
  | str | emptyArr | arr | emptyObj | obj => cases hchars; decide

/-- A value behind a bracket, a comma or a colon. -/
theorem corrects_fronted {c : Char} {x : Node} (fronts : frontsWord c = true) (g : Gap)
    (hx : x.isNull = false → Corrects (nullTokensFrom 0 0) Anything (x.chars .bare) (x.chars .plain)) :
    Corrects (nullTokensFrom 0 0) EndsWord (c :: (g.chars ++ x.chars .bare)) (c :: (g.chars ++ x.chars .plain)) := by
  cases hnull : x.isNull with
  | false =>
    obtain ⟨d, ds, hchars, hlead⟩ := x.lead_of_value .bare hnull
    exact corrects_fronted_value fronts g hchars hlead (hx hnull)
  | true =>
    cases x with
    | null w => exact corrects_fronted_word fronts g w
    | bool | num | str | emptyArr | arr | emptyObj | obj => cases hnull

/-- A member: its label is left alone, and its value stands behind a colon. -/
theorem corrects_field {c : Char} (hc : c = '\x7b' ∨ c = ',') (l : Label) {x : Node}
    (hx : x.isNull = false → Corrects (nullTokensFrom 0 0) Anything (x.chars .bare) (x.chars .plain)) :
    Corrects (nullTokensFrom 0 0) EndsWord (c :: (l.chars ++ x.chars .bare)) (c :: (l.chars ++ x.chars .plain)) := by
  have hquote : c ≠ '"' := by rcases hc with rfl | rfl <;> decide
  have hkey : Corrects (nullTokensFrom 0 0) Anything (c :: (l.lead.chars ++ (l.key.chars ++ l.trail.chars)))
      (c :: (l.lead.chars ++ (l.key.chars ++ l.trail.chars))) := by
    refine corrects_words_cons hquote (fun rest _ => ?_)
      ((corrects_words l.lead.inert).andThen (l.key.corrects.andThen (corrects_words l.trail.inert)))
    rw [List.append_assoc]
    exact bareToken?_of_lead l.lead.isBlank (by decide) (by decide) (by decide)
  have hall := hkey.andThen (corrects_fronted (c := ':') (by decide) l.behind hx)
  simpa only [Label.chars, List.cons_append, List.append_assoc] using hall

/-- An entry of a container, the white space behind it, and what closes it or separates it from the next. -/
theorem corrects_entry {entry entry' behind behind' : List Char}
    (hentry : Corrects (nullTokensFrom 0 0) EndsWord entry entry') (g : Gap)
    (hbehind : Corrects (nullTokensFrom 0 0) Anything behind behind') (closing : ∀ rest, Closing (behind ++ rest)) :
    Corrects (nullTokensFrom 0 0) Anything (entry ++ (g.chars ++ behind)) (entry' ++ (g.chars ++ behind')) := by
  refine hentry.append ((corrects_words g.inert).andThen hbehind) fun rest _ => ?_
  rw [List.append_assoc]
  exact endsWord_gap g (closing rest).endsWord

/-- A bracket that opens a container with nothing in it. -/
theorem corrects_empty {c d : Char} (h : c = '[' ∧ d = ']' ∨ c = '\x7b' ∧ d = '\x7d') (g : Gap) :
    Corrects (nullTokensFrom 0 0) Anything (c :: (g.chars ++ [d])) (c :: (g.chars ++ [d])) := by
  have hquote : c ≠ '"' := by rcases h with ⟨rfl, -⟩ | ⟨rfl, -⟩ <;> decide
  have hclose : Inert [d] := by rcases h with ⟨-, rfl⟩ | ⟨-, rfl⟩ <;> exact inert_of_all (by decide)
  refine corrects_words_cons hquote (fun rest _ => ?_) (corrects_words (g.inert.append hclose))
  rw [List.append_assoc]
  rcases h with ⟨-, rfl⟩ | ⟨-, rfl⟩ <;> exact bareToken?_of_lead g.isBlank (by decide) (by decide) (by decide)

theorem corrects_close {c : Char} (hc : c = ']' ∨ c = '\x7d') : Corrects (nullTokensFrom 0 0) Anything [c] [c] :=
  corrects_words (by rcases hc with rfl | rfl <;> exact inert_of_all (by decide))

mutual
theorem Node.corrects : ∀ x : Node, x.isNull = false →
    Corrects (nullTokensFrom 0 0) Anything (x.chars .bare) (x.chars .plain)
  | .null _, hnull => by cases hnull
  | .bool true, _ | .bool false, _ => corrects_words (inert_of_all (by rw [Node.chars]; decide))
  | .num t _, _ => corrects_words t.inert
  | .str q, _ => q.corrects
  | .emptyArr g, _ => corrects_empty (.inl ⟨rfl, rfl⟩) g
  | .emptyObj g, _ => corrects_empty (.inr ⟨rfl, rfl⟩) g
  | .arr its, _ => its.corrects '[' (.inl rfl)
  | .obj fs, _ => fs.corrects '\x7b' (.inl rfl)
theorem Items.corrects : ∀ (its : Items) (c : Char), c = '[' ∨ c = ',' →
    Corrects (nullTokensFrom 0 0) Anything (c :: (its.chars .bare ++ [']'])) (c :: (its.chars .plain ++ [']']))
  | .last lead x trail, c, hc => by
    have hitem := corrects_fronted (c := c) (by rcases hc with rfl | rfl <;> decide) lead x.corrects
    have hlast := corrects_entry hitem trail (corrects_close (.inl rfl)) fun rest => closing_cons (.inr (.inl rfl))
    simpa only [Items.chars, List.cons_append, List.append_assoc] using hlast
  | .cons lead x trail more, c, hc => by
    have hitem := corrects_fronted (c := c) (by rcases hc with rfl | rfl <;> decide) lead x.corrects
    have hmore := corrects_entry hitem trail (more.corrects ',' (.inr rfl)) fun rest => closing_cons (.inl rfl)
    simpa only [Items.chars, List.cons_append, List.append_assoc] using hmore
theorem Fields.corrects : ∀ (fs : Fields) (c : Char), c = '\x7b' ∨ c = ',' →
    Corrects (nullTokensFrom 0 0) Anything (c :: (fs.chars .bare ++ ['\x7d'])) (c :: (fs.chars .plain ++ ['\x7d']))
  | .last label x trail, c, hc => by
    have hlast := corrects_entry (corrects_field hc label x.corrects) trail (corrects_close (.inr rfl))
      fun rest => closing_cons (.inr (.inr rfl))
    simpa only [Fields.chars, List.cons_append, List.append_assoc] using hlast
  | .cons label x trail more, c, hc => by
    have hmore := corrects_entry (corrects_field hc label x.corrects) trail (more.corrects ',' (.inr rfl))
      fun rest => closing_cons (.inl rfl)
    simpa only [Fields.chars, List.cons_append, List.append_assoc] using hmore
end

/-! ## Documents -/

theorem Document.nullBareTokens_bare (d : Document) : nullBareTokens (d.chars .bare) = d.chars .plain := by
  have hroot : Corrects (nullTokensFrom 0 0) Anything (d.root.chars .bare) (d.root.chars .plain) := by
    cases hnull : d.root.isNull with
    | false => exact d.root.corrects hnull
    | true =>
      obtain ⟨lead, root, trail, strict⟩ := d
      cases root with
      | null w =>
        -- no bare token stands alone
        cases strict w rfl
        exact corrects_words NullWord.null.inert
      | bool | num | str | emptyArr | arr | emptyObj | obj => cases hnull
  have hall := ((corrects_words d.lead.inert).andThen (hroot.andThen (corrects_words d.trail.inert))) [] trivial
  simpa only [nullBareTokens, Document.chars, nullTokensFrom, List.append_nil] using hall

/-- **Replacing bare tokens is exact.**  Where any of the nulls below the root of a strict text are spelled as bare
tokens, the correction gives back that text, strings and all, and so the value; and each text that is read strictly is
such a text. -/
theorem nullBareTokens_exact :
    (∀ d : Document, nullBareTokens (d.chars .bare) = d.chars .plain ∧
      Json.parseChars? (nullBareTokens (d.chars .bare)) = some d.json) ∧
    ∀ (text : List Char) (v : Json), Json.parseChars? text = some v ↔
      ∃ d : Document, d.chars .plain = text ∧ d.json = v := by
  refine ⟨fun d => ⟨d.nullBareTokens_bare, ?_⟩, fun text v => parseChars?_eq_some_iff⟩
  rw [d.nullBareTokens_bare]
  exact d.parseChars?_plain

/-- Tokens next to each other, and between quotes that are escaped. -/
example : nullBareTokens "[NaN,undefined, \x7b\"[NaN\" :\tNaN\x7d, \"\\\\\\\", NaN\\\\\",NaN ]".toList =
    "[null,null, \x7b\"[NaN\" :\tnull\x7d, \"\\\\\\\", NaN\\\\\",null ]".toList := by decide +kernel

end Spelling

end JsonMend
