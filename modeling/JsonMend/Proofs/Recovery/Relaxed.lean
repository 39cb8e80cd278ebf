import JsonMend.Proofs.Recovery.Reading
/-
  Relaxed documents are recovered.

  1. **Strings** (`Literal.ofSpelling`) — whatever way a text without separators is spelled in, the corrections
     leave the string alone.
  2. **Corrections** (`Document.applyAll_chars`) — together they take a document from its relaxed text to its
     strict text.
  3. **Recovery** (`Recovery.ofText_relaxed`) — so the value that is spelled is recovered, and the diagnostics
     tell whether the text was strict already.
-/
namespace JsonMend

open Relaxed

/-! ## Strings -/

section
variable {c : Char} {cs : List Char} {units : List Nat} {n : Nat}

/-- A character that the corrections would act on inside a string. -/
def isSeparator (c : Char) : Bool := c = ',' || c = '\x27' || c = '\x7b' || c = '/'

theorem not_separator_of_hexValue (h : hexValue? c = some n) : isSeparator c = false := by
  cases hsep : isSeparator c with
  | false => rfl
  | true =>
    have hcases : c = ',' ∨ c = '\x27' ∨ c = '\x7b' ∨ c = '/' := by
      simpa [isSeparator, or_assoc] using hsep
    rcases hcases with rfl | rfl | rfl | rfl <;> cases h

/-- The one separator that can be escaped stands for itself. -/
theorem eq_of_simpleEscape {d : Char} (h : simpleEscape? c = some d) (hc : isSeparator c = true) : d = c := by
  have hcases : c = ',' ∨ c = '\x27' ∨ c = '\x7b' ∨ c = '/' := by
    simpa [isSeparator, or_assoc] using hc
  rcases hcases with rfl | rfl | rfl | rfl <;> cases h
  rfl

/-- A separator in a spelled string is a unit of it. -/
theorem mem_units_of_separator (hc : isSeparator c = true) (h : StringBody cs units) (hmem : c ∈ cs) :
    c.toNat ∈ units := by
  induction h with
  | nil => cases hmem
  | @unit a b x d _ body _ hunit _ ih =>
    have hsplit : c ∈ ['\\', 'u'] ∨ c ∈ [a, b, x, d] ∨ c ∈ body := by simpa [or_assoc] using hmem
    rcases hsplit with hlead | hdigit | hrest
    · rcases List.mem_cons.mp hlead with rfl | hlead
      · cases hc
      · cases List.mem_singleton.mp hlead
        cases hc
    · obtain ⟨_, hvalue⟩ := hexValue_of_hexUnit hunit c hdigit
      rw [not_separator_of_hexValue hvalue] at hc
      cases hc
    · exact List.mem_cons_of_mem _ (ih hrest)
  | letter hescape _ ih =>
    rcases List.mem_cons.mp hmem with rfl | hmem
    · cases hc
    rcases List.mem_cons.mp hmem with rfl | hrest
    · rw [eq_of_simpleEscape hescape hc]
      exact List.mem_cons_self
    · exact List.mem_cons_of_mem _ (ih hrest)
  | plain _ _ _ _ ih =>
    rcases List.mem_cons.mp hmem with rfl | hrest
    · exact List.mem_cons_self
    · exact List.mem_cons_of_mem _ (ih hrest)

/-- What is half of no pair stands for itself. -/
theorem mem_joinUnits (high : isHighHalf n = false) (low : isLowHalf n = false) (h : n ∈ units) :
    unitChar n ∈ joinUnits units := by
  induction units using joinUnits.induct with
  | case1 => cases h
  | case2 m =>
    rw [List.mem_singleton.mp h]
    exact List.mem_singleton_self _
  | case3 first second rest hpair ih =>
    rw [Bool.and_eq_true] at hpair
    rw [joinUnits, if_pos (by simpa using hpair)]
    rcases List.mem_cons.mp h with rfl | h
    · rw [high] at hpair
      cases hpair.1
    rcases List.mem_cons.mp h with rfl | h
    · rw [low] at hpair
      cases hpair.2
    · exact List.mem_cons_of_mem _ (ih h)
  | case4 first second rest hpair ih =>
    rw [joinUnits, if_neg hpair]
    rcases List.mem_cons.mp h with rfl | h
    · exact List.mem_cons_self
    · exact List.mem_cons_of_mem _ (ih h)

/-- A string is spelled with no separator that is not in its text. -/
theorem mem_text_of_separator {text : List Char} (hread : readString (cs ++ ['"']) = some (text, []))
    (hc : isSeparator c = true) (hmem : c ∈ cs) : c ∈ text := by
  obtain ⟨body, units, hcs, hbody, rfl⟩ := StringBody.of_readString hread
  cases List.append_cancel_right hcs
  have hunit := mem_units_of_separator hc hbody hmem
  have hascii : c.toNat < 0xD800 := by
    have hcases : c = ',' ∨ c = '\x27' ∨ c = '\x7b' ∨ c = '/' := by
      simpa [isSeparator, or_assoc] using hc
    rcases hcases with rfl | rfl | rfl | rfl <;> decide
  have hjoin := mem_joinUnits (by simp [isHighHalf]; omega) (by simp [isLowHalf]; omega) hunit
  rwa [unitChar_toNat] at hjoin

end

namespace Relaxed

open Correction

/-- Without separators, the corrections find nothing between quotes. -/
theorem untouched_of_plain {body : List Char} (plain : ∀ c ∈ body, isSeparator c = false) : Untouched body := by
  have hquiet : ∀ c, isSeparator c = true → c ∉ body := fun c hc hmem => by
    rw [plain c hmem] at hc
    cases hc
  have hcomma := hquiet ',' (by decide)
  have hslash := hquiet '/' (by decide)
  refine ⟨?_, hquiet '\x27' (by decide), ?_, fun h => hslash (h.subset List.mem_cons_self),
    fun h => hslash (h.subset List.mem_cons_self)⟩
  · simpa [dropTrailingCommas] using corrects_commas hcomma [] trivial
  · simpa [quoteBareKeys, quoteKeysFrom] using corrects_keys hcomma (hquiet '\x7b' (by decide)) [] trivial

/-- Any strict spelling of a text without separators, with escapes or without. -/
def Literal.ofSpelling (text : String) (body : List Char)
    (reads : ∀ rest, readString (body ++ '"' :: rest) = some (text.toList, rest))
    (plain : ∀ c ∈ text.toList, isSeparator c = false) : Literal where
  text := text
  body := body
  reads := reads
  untouched := untouched_of_plain fun c hc => by
    cases hsep : isSeparator c with
    | false => rfl
    | true => rw [← plain c (mem_text_of_separator (reads []) hsep hc), hsep]

/-- A character that stands for itself between quotes of either kind, and that no correction looks for. -/
def isPlain (c : Char) : Bool := !isSeparator c && c ≠ '"' && c ≠ '\\' && 0x20 ≤ c.toNat

/-- A text of such characters, spelled as it is. -/
def Literal.ofPlain (text : String) (plain : text.toList.all isPlain = true) : Literal :=
  have hplain : ∀ c ∈ text.toList, isSeparator c = false ∧ c ≠ '"' ∧ c ≠ '\\' ∧ 0x20 ≤ c.toNat := by
    simpa [isPlain, and_assoc] using plain
  .ofSpelling text text.toList (fun _ => readString_of_plain fun c hc => (hplain c hc).2) fun c hc => (hplain c hc).1

/-! ## Corrections -/

/-- **The corrections take the relaxed text of a document to its strict text.** -/
theorem Document.applyAll_chars (d : Document) : applyAll (d.chars .relaxed) = d.chars .strict := by
  have hcommas : dropTrailingCommas (d.chars .relaxed) = d.chars .afterCommas := commaCorrector.document d
  have hquotes : doubleQuotes (d.chars .afterCommas) = d.chars .afterQuotes :=
    quoteCorrector.corrector.document d
  have hkeys : quoteBareKeys (d.chars .afterQuotes) = d.chars .afterKeys := keyCorrector.document d
  have hlines : dropLineComments (d.chars .afterKeys) = d.chars .afterLines := lineCorrector.corrector.document d
  have hblocks : dropBlockComments (d.chars .afterLines) = d.chars .afterBlocks :=
    blockCorrector.corrector.document d
  have hwords : nullBareTokens (d.chars .afterBlocks) = d.chars .strict := wordCorrector.document d
  calc applyAll (d.chars .relaxed)
      = nullBareTokens (dropComments (quoteBareKeys (doubleQuotes (dropTrailingCommas (d.chars .relaxed))))) := rfl
    _ = d.chars .strict := by rw [hcommas, hquotes, hkeys, dropComments, hlines, hblocks, hwords]

theorem Stage.strictMargin_strict (m : Margin) : Stage.strict.strictMargin m = true := by
  obtain ⟨gap, _ | ⟨_ | _, behind⟩⟩ := m <;> rfl

theorem Stage.strictKey_strict (k : Key) : Stage.strict.strictKey k = true := by
  have hname : Stage.strict.strictName k.name = true := by
    cases k.name with
    | quoted q => cases q <;> rfl
    | bare => rfl
  rw [strictKey, hname, strictMargin_strict]
  rfl

theorem Stage.strictComma_strict (comma : Option Gap) : Stage.strict.strictComma comma = true := Bool.or_true _

mutual
/-- What is corrected takes no liberty. -/
theorem Node.isStrict_strict : ∀ x : Node, x.isStrict .strict = true
  | .null _ => Bool.or_true _
  | .str _ _ => Bool.or_true _
  | .arr its => its.isStrict_strict
  | .obj fs => fs.isStrict_strict
  | .bool _ | .num _ | .emptyArr _ | .emptyObj _ => rfl
theorem Items.isStrict_strict : ∀ its : Items, its.isStrict .strict = true
  | .last _ x m comma => by
    rw [Items.isStrict, x.isStrict_strict, Stage.strictMargin_strict, Stage.strictComma_strict]
    rfl
  | .cons _ x m more => by
    rw [Items.isStrict, x.isStrict_strict, Stage.strictMargin_strict, more.isStrict_strict]
    rfl
theorem Fields.isStrict_strict : ∀ fs : Fields, fs.isStrict .strict = true
  | .last k x m comma => by
    rw [Fields.isStrict, Stage.strictKey_strict, x.isStrict_strict, Stage.strictMargin_strict,
      Stage.strictComma_strict]
    rfl
  | .cons k x m more => by
    rw [Fields.isStrict, Stage.strictKey_strict, x.isStrict_strict, Stage.strictMargin_strict,
      more.isStrict_strict]
    rfl
end

theorem Document.isStrict_strict (d : Document) : d.isStrict .strict = true := by
  rw [Document.isStrict, d.root.isStrict_strict, Stage.strictMargin_strict]
  rfl

end Relaxed

/-! ## Recovery -/

namespace Recovery

/-- Recovery from the relaxed text of a document: only an integer with too many digits is in the way. -/
theorem ofChars_chars (d : Document) (distinct : d.json.Distinct) :
    ofChars (d.chars .relaxed) =
      if d.json.isReadable then ⟨some d.json, if d.isStrict .relaxed then [] else [strictFailed, repaired]⟩
      else ⟨none, [strictFailed, unrepairable]⟩ := by
  rw [ofChars, d.applyAll_chars, d.parseChars?_chars .relaxed distinct, d.parseChars?_chars .strict distinct,
    d.isStrict_strict]
  cases d.isStrict .relaxed <;> cases d.json.isReadable <;> rfl

/-- **Relaxed text is accepted for the value that it spells**, and nothing is said of a text that is strict. -/
theorem ofText_relaxed {v : Json} (distinct : v.Distinct) (readable : v.isReadable = true) (d : Document)
    (spells : d.json = v) : ofText (String.ofList (d.chars .relaxed)) =
      ⟨some v, if d.isStrict .relaxed then [] else [strictFailed, repaired]⟩ := by
  subst spells
  rw [ofText, String.toList_ofList, ofChars_chars d distinct, if_pos readable]

/-- A document that takes each liberty once. -/
def everyLiberty : Document where
  lead := .none
  root := .obj <|
    .cons ⟨.none, .bare ⟨'a', ['1'], by decide, List.forall_mem_singleton.mpr (by decide)⟩, .none, ⟨space, none⟩⟩
      (.str .single (.ofPlain "x y" (by decide +kernel))) ⟨.none, none⟩ <|
    .last ⟨space, .quoted .double (.ofPlain "b" (by decide +kernel)), space,
        ⟨space, some (.block ['c', '\x27'] (List.forall_mem_cons.mpr ⟨by decide, List.forall_mem_singleton.mpr (by decide)⟩), space)⟩⟩
      (.arr <|
        .cons .none (.null .undefined) ⟨space, some (.line ['d'] (List.forall_mem_singleton.mpr (by decide)) (by decide), .none)⟩ <|
        .last .none (.null .nan) ⟨.none, none⟩ (some space))
      ⟨.none, none⟩ (some .none)
  margin := ⟨.none, none⟩
  plain := by rintro _ ⟨⟩
where
  space : Gap := ⟨[' '], List.forall_mem_singleton.mpr (by decide)⟩

theorem ofText_everyLiberty : everyLiberty.json.Distinct ∧ everyLiberty.json.isReadable = true ∧
    ofText "\x7ba1: 'x y', \"b\" : /*c'*/ [undefined //d\n,NaN, ],\x7d" =
      ⟨some (.obj [("a1", .str "x y"), ("b", .arr [.null, .null])]), [strictFailed, repaired]⟩ := by
  have hchars : String.ofList (everyLiberty.chars .relaxed) =
    "\x7ba1: 'x y', \"b\" : /*c'*/ [undefined //d\n,NaN, ],\x7d" := by decide +kernel
  have hrecovered := ofText_relaxed (by decide) (by decide) everyLiberty rfl
  rw [hchars] at hrecovered
  exact ⟨by decide, by decide, hrecovered⟩

end Recovery

end JsonMend
