import JsonMend.Proofs.Json.Canonical
import JsonMend.Proofs.Recovery.Syntax
/-
  How a correction goes through a document.

  A correction reads a text from left to right, so what it makes of a text is put together from what it makes of
  the parts, if it can be said what may stand behind a part (`Corrects.append`).

  1. **Inert text** — none of the corrections looks for anything in it.
  2. **Correctors** (`Corrector`) — what a correction must make of the tokens to take a document from one stage
     to the next.  An item is seen together with the bracket or the comma in front of it, and a comma together
     with the bracket behind it, because this is how far the corrections look.
  3. **Documents** (`Corrector.document`) — then it does so for all trees, by induction.
-/
namespace JsonMend

/-! ## Inert text -/

/-- A character that a correction looks for. -/
def isSpecial (c : Char) : Bool :=
  c = ',' || c = '\x27' || c = '"' || c = '\x7b' || c = '[' || c = ':' || c = '/'

/-- A text without the characters that the corrections look for. -/
def Inert (cs : List Char) : Prop := ∀ c ∈ cs, isSpecial c = false

section
variable {c : Char} {cs cs' : List Char}

theorem Inert.not_mem (h : Inert cs) (special : isSpecial c = true) : c ∉ cs := by
  intro hc
  rw [h c hc] at special
  cases special

theorem inert_of_all (h : cs.all (!isSpecial ·) = true) : Inert cs := by
  intro c hc
  simpa using List.all_eq_true.mp h c hc

theorem inert_nil : Inert [] := by rintro _ ⟨⟩

theorem Inert.cons (hc : isSpecial c = false) (h : Inert cs) : Inert (c :: cs) :=
  List.forall_mem_cons.mpr ⟨hc, h⟩

theorem Inert.append (h : Inert cs) (h' : Inert cs') : Inert (cs ++ cs') :=
  List.forall_mem_append.mpr ⟨h, h'⟩

theorem special_cases (h : isSpecial c = true) :
    c = ',' ∨ c = '\x27' ∨ c = '"' ∨ c = '\x7b' ∨ c = '[' ∨ c = ':' ∨ c = '/' := by
  simpa [isSpecial, or_assoc] using h

theorem isSpecial_of_digit (h : isAsciiDigit c = true) : isSpecial c = false := by
  cases hspecial : isSpecial c with
  | false => rfl
  | true => rcases special_cases hspecial with rfl | rfl | rfl | rfl | rfl | rfl | rfl <;> cases h

theorem isSpecial_of_space (h : isJsonSpace c = true) : isSpecial c = false := by
  cases hspecial : isSpecial c with
  | false => rfl
  | true => rcases special_cases hspecial with rfl | rfl | rfl | rfl | rfl | rfl | rfl <;> cases h

theorem ExponentText.inert (e : ExponentText) : Inert e.chars := by
  have hmark : isSpecial e.mark = false := by rcases e.isMark with h | h <;> rw [h] <;> decide
  have hsign : Inert (signText e.sign) := by
    rcases e.sign with _ | _ | _ <;> exact inert_of_all (by decide)
  exact .cons hmark (hsign.append fun c hc => isSpecial_of_digit (e.ascii c hc))

theorem JsonNumeral.inert (t : JsonNumeral) : Inert t.chars := by
  have hsign : Inert (signChars t.negative) := by
    cases t.negative <;> exact inert_of_all (by decide)
  have hwhole : Inert t.whole := fun c hc => isSpecial_of_digit (t.whole_ascii c hc)
  have hfraction : Inert t.fractionChars := by
    unfold fractionChars
    split
    · exact inert_nil
    · exact .cons (by decide) fun c hc => isSpecial_of_digit (t.fraction_ascii c hc)
  have hexponent : Inert t.exponentChars := by
    unfold exponentChars
    cases t.exponent with
    | none => exact inert_nil
    | some e => exact e.inert
  exact hsign.append (hwhole.append (hfraction.append hexponent))

end

namespace Relaxed

theorem Gap.inert (g : Gap) : Inert g.chars := fun c hc => isSpecial_of_space (g.blank c hc)

theorem Gap.isBlank (g : Gap) : ∀ c ∈ g.chars, JsonMend.isBlank c = true :=
  fun c hc => isBlank_of_isJsonSpace (g.blank c hc)

theorem NullWord.inert (w : NullWord) : Inert w.chars := by cases w <;> exact inert_of_all (by decide)

theorem Stage.word_inert (s : Stage) (w : NullWord) : Inert (s.word w) := by
  unfold word
  split
  · exact w.inert
  · exact NullWord.null.inert

end Relaxed

/-! ## Corrections of texts -/

/-- A correction makes one text of another, where what follows is as asked. -/
def Corrects (f : List Char → List Char) (Follows : List Char → Prop) (cs cs' : List Char) : Prop :=
  ∀ rest, Follows rest → f (cs ++ rest) = cs' ++ f rest

/-- Anything may follow. -/
def Anything (_ : List Char) : Prop := True

namespace Corrects

variable {f : List Char → List Char} {P Q : List Char → Prop} {cs cs' ds ds' : List Char} {c : Char}

theorem append (h : Corrects f P cs cs') (h' : Corrects f Q ds ds')
    (link : ∀ rest, Q rest → P (ds ++ rest)) : Corrects f Q (cs ++ ds) (cs' ++ ds') := by
  intro rest hrest
  rw [List.append_assoc, h _ (link rest hrest), h' rest hrest, List.append_assoc]

/-- Where the first part asks for nothing, it can stand in front of any other. -/
theorem andThen (h : Corrects f Anything cs cs') (h' : Corrects f Q ds ds') :
    Corrects f Q (cs ++ ds) (cs' ++ ds') :=
  h.append h' fun _ _ => trivial

theorem cons (h : Corrects f Anything [c] [c]) (h' : Corrects f Q ds ds') :
    Corrects f Q (c :: ds) (c :: ds') :=
  h.andThen h'

theorem anyway (h : Corrects f Anything cs cs') : Corrects f Q cs cs' := fun rest _ => h rest trivial

end Corrects

/-! ## Correctors -/

namespace Relaxed

/-- What stands behind a value and its margin: after white space a comma or a closing bracket, or nothing. -/
def Closing (rest : List Char) : Prop := ∃ (g : Gap) (tail : List Char), rest = g.chars ++ tail ∧ ClosesValue tail

def Gap.none : Gap := ⟨[], by simp⟩

def Gap.append (g g' : Gap) : Gap := ⟨g.chars ++ g'.chars, List.forall_mem_append.mpr ⟨g.blank, g'.blank⟩⟩

section
variable {c : Char} {rest : List Char}

theorem closing_nil : Closing [] := ⟨.none, [], rfl, closesValue_nil⟩

theorem closing_cons (h : c = ',' ∨ c = ']' ∨ c = '\x7d') : Closing (c :: rest) :=
  ⟨.none, c :: rest, rfl, closesValue_cons h⟩

theorem closing_gap (g : Gap) (h : Closing rest) : Closing (g.chars ++ rest) := by
  obtain ⟨g', tail, rfl, htail⟩ := h
  exact ⟨g.append g', tail, (List.append_assoc ..).symm, htail⟩

/-- What stands behind the last margin. -/
theorem closing_comma (s : Stage) (comma : Option Gap) (h : c = ']' ∨ c = '\x7d') :
    Closing (s.comma comma ++ c :: rest) := by
  have hclose : Closing (c :: rest) := closing_cons (.inr h)
  cases comma with
  | none => exact hclose
  | some g =>
    unfold Stage.comma
    dsimp only
    split
    · exact closing_cons (.inl rfl)
    · exact closing_gap g hclose

end

/-- What starts no comment. -/
def NoSlash (rest : List Char) : Prop := ∀ c, rest.head? = some c → c ≠ '/'

theorem noSlash_lead {c : Char} {rest : List Char} (h : IsLead c) : NoSlash (c :: rest) := by
  rintro _ ⟨⟩
  exact h.noSlash

theorem noSlash_gap {rest : List Char} (g : Gap) (h : NoSlash rest) : NoSlash (g.chars ++ rest) := by
  cases hg : g.chars with
  | nil => exact h
  | cons c cs =>
    rintro _ ⟨⟩ rfl
    have hslash : '/' ∉ g.chars := g.inert.not_mem rfl
    exact hslash (by rw [hg]; exact List.mem_cons_self)

theorem Closing.noSlash {rest : List Char} (h : Closing rest) : NoSlash rest := by
  obtain ⟨g, tail, rfl, htail⟩ := h
  refine noSlash_gap g fun c hc hslash => ?_
  subst hslash
  rcases htail _ hc with h | h | h <;> cases h

/-- Whether a value is a null. -/
def Node.isNull : Node → Bool
  | .null _ => true
  | _ => false

/-- A correction that takes documents from one stage to another.  `Ends` is what it asks for behind a value. -/
structure Corrector (f : List Char → List Char) (s s' : Stage) (Ends : List Char → Prop) : Prop where
  nil : f [] = []
  inert : ∀ cs, Inert cs → Corrects f Anything cs cs
  literal : ∀ q l, Corrects f Anything (s.literal q l) (s'.literal q l)
  empty : ∀ (c : Char) (cs : List Char), c = '[' ∧ cs = [']'] ∨ c = '\x7b' ∧ cs = ['\x7d'] → ∀ g : Gap,
    Corrects f Anything (c :: (g.chars ++ cs)) (c :: (g.chars ++ cs))
  item : ∀ c, c = '[' ∨ c = ',' → ∀ (lead : Gap) (x : Node),
    (x.isNull = false → Corrects f Anything (x.chars s) (x.chars s')) →
    Corrects f Ends (c :: (lead.chars ++ x.chars s)) (c :: (lead.chars ++ x.chars s'))
  field : ∀ c, c = '\x7b' ∨ c = ',' → ∀ (k : Key) (x : Node),
    (x.isNull = false → Corrects f Anything (x.chars s) (x.chars s')) →
    Corrects f Ends (c :: (s.key k ++ x.chars s)) (c :: (s'.key k ++ x.chars s'))
  margin : ∀ m, Corrects f Closing (s.margin m) (s'.margin m)
  ends : ∀ m rest, Closing rest → Ends (s.margin m ++ rest)
  comma : ∀ (comma : Option Gap) (c : Char), c = ']' ∨ c = '\x7d' →
    Corrects f Anything (s.comma comma ++ [c]) (s'.comma comma ++ [c])

namespace Corrector

variable {f : List Char → List Char} {s s' : Stage} {Ends : List Char → Prop}

/-- An entry of a container, then its margin, then what may stand behind a margin. -/
theorem entry {entry entry' behind behind' : List Char} (h : Corrector f s s' Ends)
    (hentry : Corrects f Ends entry entry') (m : Margin) (hbehind : Corrects f Anything behind behind')
    (closing : ∀ rest, Closing (behind ++ rest)) :
    Corrects f Anything (entry ++ (s.margin m ++ behind)) (entry' ++ (s'.margin m ++ behind')) := by
  refine hentry.append ((h.margin m).append hbehind fun rest _ => closing rest) fun rest _ => ?_
  rw [List.append_assoc]
  exact h.ends m _ (closing rest)

mutual
theorem node (h : Corrector f s s' Ends) :
    ∀ x : Node, x.isNull = false → Corrects f Anything (x.chars s) (x.chars s')
  | .null _, hnull => by cases hnull
  | .bool true, _ | .bool false, _ => h.inert _ (inert_of_all (by rw [Node.chars]; decide))
  | .num t, _ => h.inert _ t.inert
  | .str q l, _ => h.literal q l
  | .emptyArr g, _ => h.empty _ _ (.inl ⟨rfl, rfl⟩) g
  | .emptyObj g, _ => h.empty _ _ (.inr ⟨rfl, rfl⟩) g
  | .arr its, _ => h.items its '[' (.inl rfl)
  | .obj fs, _ => h.fields fs '\x7b' (.inl rfl)
theorem items (h : Corrector f s s' Ends) : ∀ (its : Items) (c : Char), c = '[' ∨ c = ',' →
    Corrects f Anything (c :: (its.chars s ++ [']'])) (c :: (its.chars s' ++ [']']))
  | .last lead x m comma, c, hc => by
    have hlast := h.entry (h.item c hc lead x (h.node x)) m (h.comma comma ']' (.inl rfl)) fun rest => by
      rw [List.append_assoc]
      exact closing_comma s comma (.inl rfl)
    simpa only [Items.chars, List.cons_append, List.append_assoc] using hlast
  | .cons lead x m more, c, hc => by
    have hmore := h.entry (h.item c hc lead x (h.node x)) m (h.items more ',' (.inr rfl)) fun rest =>
      closing_cons (.inl rfl)
    simpa only [Items.chars, List.cons_append, List.append_assoc] using hmore
theorem fields (h : Corrector f s s' Ends) : ∀ (fs : Fields) (c : Char), c = '\x7b' ∨ c = ',' →
    Corrects f Anything (c :: (fs.chars s ++ ['\x7d'])) (c :: (fs.chars s' ++ ['\x7d']))
  | .last k x m comma, c, hc => by
    have hlast := h.entry (h.field c hc k x (h.node x)) m (h.comma comma '\x7d' (.inr rfl)) fun rest => by
      rw [List.append_assoc]
      exact closing_comma s comma (.inr rfl)
    simpa only [Fields.chars, List.cons_append, List.append_assoc] using hlast
  | .cons k x m more, c, hc => by
    have hmore := h.entry (h.field c hc k x (h.node x)) m (h.fields more ',' (.inr rfl)) fun rest =>
      closing_cons (.inl rfl)
    simpa only [Fields.chars, List.cons_append, List.append_assoc] using hmore
end

/-- **A corrector takes a document from the one stage to the other.** -/
theorem document (h : Corrector f s s' Ends) (d : Document) : f (d.chars s) = d.chars s' := by
  have hroot : Corrects f Anything (d.root.chars s) (d.root.chars s') := by
    cases hnull : d.root.isNull with
    | false => exact h.node d.root hnull
    | true =>
      obtain ⟨lead, root, margin, plain⟩ := d
      cases root with
      | null w =>
        -- by itself a null is spelled as such, at all stages
        cases plain w rfl
        have hword : ∀ s : Stage, s.word .null = NullWord.null.chars := fun s => by
          rw [Stage.word, ite_self]
        show Corrects f Anything (s.word .null) (s'.word .null)
        rw [hword, hword]
        exact h.inert _ NullWord.null.inert
      | bool | num | str | emptyArr | arr | emptyObj | obj => cases hnull
  have hall := ((h.inert _ d.lead.inert).andThen (hroot.andThen (h.margin d.margin))) [] closing_nil
  rwa [List.append_nil, h.nil, List.append_nil] at hall

end Corrector

/-! ### Keys -/

section
variable {f : List Char → List Char} {s s' : Stage}

/-- A value at two stages that spell nulls alike. -/
theorem corrects_value (inert : ∀ cs, Inert cs → Corrects f Anything cs cs) (words : s.words = s'.words)
    {x : Node} (h : x.isNull = false → Corrects f Anything (x.chars s) (x.chars s')) :
    Corrects f Anything (x.chars s) (x.chars s') := by
  cases x with
  | null w =>
    show Corrects f Anything (s.word w) (s'.word w)
    rw [Stage.word, Stage.word, words]
    exact inert _ (s'.word_inert w)
  | bool | num | str | emptyArr | arr | emptyObj | obj => exact h rfl

theorem isSpecial_of_keyChar {c : Char} (h : Correction.isKeyChar c = true) : isSpecial c = false := by
  cases hspecial : isSpecial c with
  | false => rfl
  | true =>
    rcases special_cases hspecial with rfl | rfl | rfl | rfl | rfl | rfl | rfl <;> revert h <;> decide

theorem isKeyChar_of_start {c : Char} (h : Correction.isKeyStart c = true) :
    Correction.isKeyChar c = true := by
  rw [Correction.isKeyStart, Bool.or_eq_true] at h
  rw [Correction.isKeyChar, Bool.or_eq_true]
  rcases h with hletter | hline
  · exact .inl ((Bool.or_eq_true _ _).mpr (.inl hletter))
  · exact .inr hline

theorem Identifier.isKeyChar (i : Identifier) : ∀ c ∈ i.chars, Correction.isKeyChar c = true :=
  List.forall_mem_cons.mpr ⟨isKeyChar_of_start i.starts, i.goesOn⟩

theorem Identifier.inert (i : Identifier) : Inert i.chars :=
  fun c hc => isSpecial_of_keyChar (i.isKeyChar c hc)

/-- A key at two stages that spell bare keys alike. -/
theorem corrects_keyName (inert : ∀ cs, Inert cs → Corrects f Anything cs cs)
    (colon : Corrects f Anything [':'] [':']) (quote : Corrects f Anything ['"'] ['"'])
    (literal : ∀ q l, Corrects f Anything (s.literal q l) (s'.literal q l)) (keys : s.keys = s'.keys)
    (lead trail : Gap) (name : KeyName) :
    Corrects f Anything (s.keyName lead trail name) (s'.keyName lead trail name) := by
  cases name with
  | quoted q l =>
    exact (((inert _ lead.inert).andThen (literal q l)).andThen (inert _ trail.inert)).andThen colon
  | bare i =>
    unfold Stage.keyName
    dsimp only
    rw [keys]
    split
    · exact (((inert _ lead.inert).andThen (inert _ i.inert)).andThen (inert _ trail.inert)).andThen colon
    · exact quote.cons ((inert _ i.inert).andThen (quote.cons colon))

/-! ### Corrections that look at no separator -/

/-- What a correction must make of the tokens that passes over separators. -/
structure TokenCorrector (f : List Char → List Char) (s s' : Stage) : Prop where
  nil : f [] = []
  inert : ∀ cs, Inert cs → Corrects f Anything cs cs
  separator : ∀ c, c = '[' ∨ c = '\x7b' ∨ c = ',' ∨ c = ':' ∨ c = '"' → Corrects f Anything [c] [c]
  literal : ∀ q l, Corrects f Anything (s.literal q l) (s'.literal q l)
  comment : ∀ remarked, Corrects f NoSlash (s.comment remarked) (s'.comment remarked)
  commas : s.commas = s'.commas
  keys : s.keys = s'.keys
  words : s.words = s'.words

theorem TokenCorrector.margin (h : TokenCorrector f s s') (m : Margin) :
    Corrects f NoSlash (s.margin m) (s'.margin m) := by
  obtain ⟨gap, _ | ⟨remarked, behind⟩⟩ := m
  · simpa only [Stage.margin, List.append_nil] using (h.inert _ gap.inert).anyway
  · exact (h.inert _ gap.inert).andThen
      ((h.comment remarked).append (h.inert _ behind.inert).anyway fun rest => noSlash_gap behind)

theorem TokenCorrector.corrector (h : TokenCorrector f s s') : Corrector f s s' Anything where
  nil := h.nil
  inert := h.inert
  literal := h.literal
  empty := by
    rintro c cs (⟨rfl, rfl⟩ | ⟨rfl, rfl⟩) g
    · exact (h.separator _ (by simp)).cons (h.inert _ (g.inert.append (inert_of_all (by decide))))
    · exact (h.separator _ (by simp)).cons (h.inert _ (g.inert.append (inert_of_all (by decide))))
  item c hc lead x hx := by
    have hsep : Corrects f Anything [c] [c] := h.separator c (by rcases hc with rfl | rfl <;> simp)
    exact hsep.cons ((h.inert _ lead.inert).andThen (corrects_value h.inert h.words hx))
  field c hc k x hx := by
    have hsep : Corrects f Anything [c] [c] := h.separator c (by rcases hc with rfl | rfl <;> simp)
    have hname := corrects_keyName h.inert (h.separator ':' (by simp)) (h.separator '"' (by simp))
      h.literal h.keys k.lead k.trail k.name
    refine hsep.cons ((hname.andThen (h.margin k.margin)).append (corrects_value h.inert h.words hx)
      fun rest _ => ?_)
    obtain ⟨d, ds, hchars, hlead⟩ := x.lead s
    rw [hchars]
    exact noSlash_lead hlead
  margin m rest hrest := h.margin m rest hrest.noSlash
  ends _ _ _ := trivial
  comma comma c hc := by
    have hclose : Inert [c] := inert_of_all (by rcases hc with rfl | rfl <;> decide)
    cases comma with
    | none => exact h.inert _ hclose
    | some g =>
      unfold Stage.comma
      dsimp only
      rw [h.commas]
      split
      · exact (h.separator ',' (by simp)).cons (h.inert _ (g.inert.append hclose))
      · exact h.inert _ (g.inert.append hclose)

end

end Relaxed

end JsonMend
