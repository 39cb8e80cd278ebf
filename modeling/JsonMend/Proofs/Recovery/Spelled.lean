import JsonMend.Proofs.Recovery.Spelling
/-
  What the strict reader takes has been spelled.

  1. **Strings** (`exists_quoted`) — what was read up to a quote is read in the same way in front of any other text.
  2. **Numerals** (`exists_numeral`) — the parts that were read make up the text.
  3. **Values** (`spells_of_read`) — by induction on the fuel, for the three readers at once.
  4. **Texts** (`parseChars?_eq_some_iff`) — so the plain texts of documents are the texts that are read, and no others.
-/
namespace JsonMend

open Relaxed

namespace Spelling

/-! ## Strings -/

section
variable {cs after : List Char}

/-- What was read up to a quote is read in front of any other text. -/
theorem exists_quoted {text : List Char} (h : readString cs = some (text, after)) :
    ∃ q : Quoted, cs = q.body ++ '"' :: after ∧ q.text = String.ofList text := by
  obtain ⟨body, units, hcs, hbody, rfl⟩ := StringBody.of_readString h
  refine ⟨⟨String.ofList (joinUnits units), body, fun rest => ?_⟩, hcs, rfl⟩
  rw [readString, hbody.readUnits_append, String.toList_ofList]
  rfl

end

/-! ## Numerals -/

section
variable {text rest : List Char}

theorem spanDigits_fst (text : List Char) : ∀ c ∈ (spanDigits text).1, isAsciiDigit c = true :=
  List.all_eq_true.mp List.all_takeWhile

theorem spanDigits_split (text : List Char) : text = (spanDigits text).1 ++ (spanDigits text).2 :=
  List.takeWhile_append_dropWhile.symm

/-- The whole part has a digit, and starts with a zero only where it is that zero. -/
theorem whole_of_read {whole : List Char} (h : readWhole? text = some (whole, rest)) :
    text = whole ++ rest ∧ (∀ c ∈ whole, isAsciiDigit c = true) ∧ whole ≠ [] ∧
      (whole.head? = some '0' → whole = ['0']) := by
  unfold readWhole? at h
  split at h
  · cases h
    exact ⟨rfl, List.forall_mem_singleton.mpr rfl, by decide, fun _ => rfl⟩
  · rename_i hzero
    have hsplit := spanDigits_split text
    have hascii := spanDigits_fst text
    split at h
    · cases h
    · rename_i hnone
      rw [Option.some.injEq] at h
      rw [h] at hsplit hascii
      refine ⟨hsplit, hascii, ?_, fun hhead => ?_⟩
      · rintro rfl
        exact hnone _ h
      · obtain ⟨tail, htail⟩ := List.head?_eq_some_iff.mp hhead
        exact absurd (hsplit.trans (by rw [htail]; rfl)) (hzero _)

theorem fraction_of_read (text : List Char) :
    text = (if (readFraction text).1 = [] then [] else '.' :: (readFraction text).1) ++ (readFraction text).2 ∧
      ∀ c ∈ (readFraction text).1, isAsciiDigit c = true := by
  unfold readFraction
  split
  · rename_i after
    split
    · exact ⟨rfl, fun c hc => absurd hc List.not_mem_nil⟩
    · rename_i hnone
      refine ⟨?_, spanDigits_fst after⟩
      rw [if_neg fun h => hnone _ (Prod.ext h rfl), List.cons_append, ← spanDigits_split]
  · exact ⟨rfl, fun c hc => absurd hc List.not_mem_nil⟩

theorem exponent_of_read (text : List Char) : ∃ e : Option ExponentText,
    (readExponent text).1 = e.map ExponentText.value ∧ text = (e.map ExponentText.chars).getD [] ++ (readExponent text).2 := by
  unfold readExponent
  split
  · rename_i mark after
    split
    · rename_i hmark
      split
      rename_i negative digits heq
      obtain ⟨sign, hafter, hnegative⟩ : ∃ sign : Option Bool, after = ExponentText.signText sign ++ digits ∧
          (negative = true ↔ sign = some true) := by
        split at heq
        · cases heq
          exact ⟨some true, rfl, by decide⟩
        · cases heq
          exact ⟨some false, rfl, by decide⟩
        · cases heq
          exact ⟨none, rfl, by decide⟩
      split
      · exact ⟨none, rfl, rfl⟩
      · rename_i found behind hnone hspan
        have hsplit := spanDigits_split digits
        have hascii := spanDigits_fst digits
        rw [hspan] at hsplit hascii
        refine ⟨some ⟨mark, sign, found, hmark, hascii, hnone⟩, ?_, ?_⟩
        · simp [ExponentText.value, hnegative]
        · simp [ExponentText.chars, hafter, hsplit]
    · exact ⟨none, rfl, rfl⟩
  · exact ⟨none, rfl, rfl⟩

theorem exists_numeral {n : Number} (h : readNumber? text = some (n, rest)) :
    ∃ t : JsonNumeral, text = t.chars ++ rest ∧ t.number = n ∧ t.number.isReadable = true := by
  unfold readNumber? at h
  split at h
  rename_i negative unsigned hsign
  have htext : text = signChars negative ++ unsigned := by
    split at hsign <;> cases hsign <;> rfl
  obtain ⟨⟨whole, afterWhole⟩, hwhole, h⟩ := Option.bind_eq_some_iff.mp h
  obtain ⟨hunsigned, hascii, hne, hlead⟩ := whole_of_read hwhole
  obtain ⟨hfraction, hascii'⟩ := fraction_of_read afterWhole
  obtain ⟨e, hvalue, hexponent⟩ := exponent_of_read (readFraction afterWhole).2
  let t : JsonNumeral := ⟨negative, whole, (readFraction afterWhole).1, e, hascii, hne, hlead, hascii'⟩
  have hchars : text = t.chars ++ (readExponent (readFraction afterWhole).2).2 := by
    calc text = signChars negative ++ (whole ++ (t.fractionChars ++ (readFraction afterWhole).2)) := by
          rw [htext, hunsigned]
          exact congrArg (fun cs => signChars negative ++ (whole ++ cs)) hfraction
      _ = signChars negative ++ (whole ++ (t.fractionChars ++
            (t.exponentChars ++ (readExponent (readFraction afterWhole).2).2))) := by
          exact congrArg (fun cs => signChars negative ++ (whole ++ (t.fractionChars ++ cs))) hexponent
      _ = t.chars ++ (readExponent (readFraction afterWhole).2).2 := by
          simp [JsonNumeral.chars, t]
  dsimp only at h
  rw [hvalue] at h
  change (if (t.fraction.isEmpty && (t.exponent.map ExponentText.value).isNone) = true then _ else _) = _ at h
  rw [t.isInteger_eq] at h
  by_cases hint : t.IsInteger
  · rw [if_pos (decide_eq_true hint)] at h
    split at h
    · cases h
    · rename_i hshort
      cases h
      exact ⟨t, hchars, if_pos hint, (t.isReadable_number hint).mpr hshort⟩
  · rw [if_neg (by rwa [decide_eq_true_eq])] at h
    cases h
    have hnumber : t.number = .real t.decimal.toBinary64 := if_neg hint
    exact ⟨t, hchars, hnumber, by rw [hnumber]; rfl⟩

end

/-! ## Values -/

section
variable {text rest : List Char} {fuel : Nat}

theorem exists_gap (text : List Char) : ∃ g : Gap, text = g.chars ++ skipSpaces text :=
  ⟨⟨text.takeWhile isJsonSpace, List.all_eq_true.mp List.all_takeWhile⟩, List.takeWhile_append_dropWhile.symm⟩

/-- What is read as a value is one that is spelled. -/
def SpellsValue (fuel : Nat) : Prop := ∀ {text v rest}, readValue fuel text = some (v, rest) →
  ∃ x : Node, text = x.chars .plain ++ rest ∧ x.json = v

/-- What is read as items, white space in front of them, is spelled up to the bracket. -/
def SpellsItems (fuel : Nat) : Prop := ∀ {text xs rest}, readItems fuel text = some (xs, rest) →
  ∀ g : Gap, ∃ its : Items, g.chars ++ text = its.chars .plain ++ ']' :: rest ∧ its.json = xs

/-- What is read as members, white space in front of them, is spelled up to the brace. -/
def SpellsMembers (fuel : Nat) : Prop := ∀ {text ms rest}, readMembers fuel text = some (ms, rest) →
  ∀ g : Gap, ∃ fs : Fields, g.chars ++ text = fs.chars .plain ++ '\x7d' :: rest ∧ fs.json = ms

theorem spellsValue (items : SpellsItems fuel) (members : SpellsMembers fuel) : SpellsValue (fuel + 1) := by
  intro text v rest h
  rw [readValue.eq_def] at h
  dsimp only at h
  split at h
  · cases h
    exact ⟨.null .null, rfl, rfl⟩
  · cases h
    exact ⟨.bool true, rfl, rfl⟩
  · cases h
    exact ⟨.bool false, rfl, rfl⟩
  · obtain ⟨⟨text, after⟩, hread, heq⟩ := Option.map_eq_some_iff.mp h
    cases heq
    obtain ⟨q, rfl, htext⟩ := exists_quoted hread
    exact ⟨.str q, by simp [Node.chars, Quoted.chars], by rw [Node.json, htext]⟩
  · rename_i inside
    obtain ⟨g, hinside⟩ := exists_gap inside
    split at h
    · rename_i hclose
      cases h
      refine ⟨.emptyArr g, ?_, rfl⟩
      rw [hinside, hclose]
      simp [Node.chars]
    · obtain ⟨⟨found, after⟩, hread, heq⟩ := Option.map_eq_some_iff.mp h
      cases heq
      obtain ⟨its, hchars, hjson⟩ := items hread g
      refine ⟨.arr its, ?_, by rw [Node.json, hjson]⟩
      rw [hinside, hchars]
      simp [Node.chars]
  · rename_i inside
    obtain ⟨g, hinside⟩ := exists_gap inside
    split at h
    · rename_i hclose
      cases h
      refine ⟨.emptyObj g, ?_, rfl⟩
      rw [hinside, hclose]
      simp [Node.chars]
    · obtain ⟨⟨found, after⟩, hread, heq⟩ := Option.map_eq_some_iff.mp h
      cases heq
      obtain ⟨fs, hchars, hjson⟩ := members hread g
      refine ⟨.obj fs, ?_, by rw [Node.json, hjson]⟩
      rw [hinside, hchars]
      simp [Node.chars]
  · obtain ⟨⟨m, after⟩, hread, heq⟩ := Option.map_eq_some_iff.mp h
    cases heq
    obtain ⟨t, hchars, hnumber, hreadable⟩ := exists_numeral hread
    exact ⟨.num t hreadable, hchars, by rw [Node.json, hnumber]⟩

theorem spellsItems (value : SpellsValue fuel) (items : SpellsItems fuel) : SpellsItems (fuel + 1) := by
  intro text xs rest h g
  rw [readItems] at h
  obtain ⟨⟨item, after⟩, hitem, h⟩ := Option.bind_eq_some_iff.mp h
  obtain ⟨x, rfl, rfl⟩ := value hitem
  obtain ⟨trail, hafter⟩ := exists_gap after
  dsimp only at h
  split at h
  · rename_i hclose
    cases h
    refine ⟨.last g x trail, ?_, rfl⟩
    rw [hafter, hclose]
    simp [Items.chars]
  · rename_i behind hcomma
    obtain ⟨⟨others, final⟩, hread, h⟩ := Option.bind_eq_some_iff.mp h
    cases h
    obtain ⟨lead, hbehind⟩ := exists_gap behind
    obtain ⟨more, hchars, hjson⟩ := items hread lead
    refine ⟨.cons g x trail more, ?_, by rw [Items.json, hjson]⟩
    rw [hafter, hcomma, hbehind, hchars]
    simp [Items.chars]
  · cases h

theorem spellsMembers (value : SpellsValue fuel) (members : SpellsMembers fuel) : SpellsMembers (fuel + 1) := by
  intro text ms rest h g
  rw [readMembers.eq_def] at h
  dsimp only at h
  split at h
  · rename_i quotedKey
    obtain ⟨⟨key, afterKey⟩, hkey, h⟩ := Option.bind_eq_some_iff.mp h
    obtain ⟨q, hquoted, htext⟩ := exists_quoted hkey
    obtain ⟨gap, hafterKey⟩ := exists_gap afterKey
    dsimp only at h
    split at h
    · rename_i afterColon hcolon
      obtain ⟨behind, hafterColon⟩ := exists_gap afterColon
      obtain ⟨⟨v, after⟩, hvalue, h⟩ := Option.bind_eq_some_iff.mp h
      obtain ⟨x, hx, rfl⟩ := value hvalue
      obtain ⟨trail, hafter⟩ := exists_gap after
      let label : Label := ⟨g, q, gap, behind⟩
      have hlabel : g.chars ++ '"' :: quotedKey = label.chars ++ (x.chars .plain ++ after) := by
        rw [hquoted, hafterKey, hcolon, hafterColon, hx]
        simp [label, Label.chars, Quoted.chars]
      rw [hlabel]
      rw [← htext] at h
      dsimp only at h
      split at h
      · rename_i hclose
        cases h
        refine ⟨.last label x trail, ?_, rfl⟩
        rw [hafter, hclose]
        simp [Fields.chars]
      · rename_i next hcomma
        obtain ⟨⟨others, final⟩, hread, h⟩ := Option.bind_eq_some_iff.mp h
        cases h
        obtain ⟨lead, hnext⟩ := exists_gap next
        obtain ⟨more, hchars, hjson⟩ := members hread lead
        refine ⟨.cons label x trail more, ?_, by rw [Fields.json, hjson]⟩
        rw [hafter, hcomma, hnext, hchars]
        simp [Fields.chars]
      · cases h
    · cases h
  · cases h

/-- What each of the readers has read has been spelled. -/
theorem spells_of_read (fuel : Nat) : SpellsValue fuel ∧ SpellsItems fuel ∧ SpellsMembers fuel := by
  induction fuel with
  | zero =>
    refine ⟨?_, ?_, ?_⟩
    · intro text v rest h; cases h
    · intro text xs rest h; cases h
    · intro text ms rest h; cases h
  | succ fuel ih =>
    obtain ⟨hvalue, hitems, hmembers⟩ := ih
    exact ⟨spellsValue hitems hmembers, spellsItems hvalue hitems, spellsMembers hvalue hmembers⟩

end

/-! ## Texts -/

/-- By itself, a null can be spelled as such. -/
theorem Node.exists_strict (x : Node) : ∃ root : Node, (∀ word, root = .null word → word = .null) ∧
    root.chars .plain = x.chars .plain ∧ root.json = x.json := by
  cases x with
  | null w =>
    refine ⟨.null .null, ?_, rfl, rfl⟩
    rintro _ ⟨⟩
    rfl
  | bool | num | str | emptyArr | arr | emptyObj | obj =>
    refine ⟨_, ?_, rfl, rfl⟩
    rintro _ ⟨⟩

/-- **The plain texts of documents are the texts that are read**, each as the value that it spells. -/
theorem parseChars?_eq_some_iff {text : List Char} {v : Json} :
    Json.parseChars? text = some v ↔ ∃ d : Document, d.chars .plain = text ∧ d.json = v := by
  constructor
  · intro h
    obtain ⟨⟨value, rest⟩, hread, h⟩ := Option.bind_eq_some_iff.mp h
    dsimp only at h
    split at h
    · rename_i hrest
      cases h
      obtain ⟨x, hchars, hjson⟩ := (spells_of_read _).1 hread
      obtain ⟨lead, hlead⟩ := exists_gap text
      obtain ⟨trail, htrail⟩ := exists_gap rest
      rw [List.isEmpty_iff.mp hrest, List.append_nil] at htrail
      obtain ⟨root, strict, hroot, hvalue⟩ := x.exists_strict
      refine ⟨⟨lead, root, trail, strict⟩, ?_, hvalue.trans hjson⟩
      rw [Document.chars, hroot, ← htrail, ← hchars]
      exact hlead.symm
    · cases h
  · rintro ⟨d, rfl, rfl⟩
    exact d.parseChars?_plain

end Spelling

end JsonMend
