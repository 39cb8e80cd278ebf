import JsonMend.Recovery.Basic
import JsonMend.Proofs.Recovery.Compact
/-
  The text of a value with one comma too many, in front of the bracket that closes it.

  The corrections know nothing of strings, the last one apart, so what a string holds can be taken for syntax and be
  corrected with it.  Three of them can do so in silence: the text that they leave may be read, as another value.
  The other two cannot.

  1. **The comma** (`dropTrailingCommas_extraComma`, `not_parsed_extraComma`) — it goes, and it has to: with it the
     text is not read.
  2. **Recovery** (`ofText_extraComma`) — where the three find nothing else to correct, the value is recovered as it
     was or recovery fails, and both cases are told apart.
  3. **What they do to strings** (`ofText_extraComma_lossy`) — for each of the three, a value that comes back changed.
-/
namespace JsonMend

open Relaxed Correction

variable {c : Char} {cs text : List Char}

/-- A text with a comma in front of its last character. -/
def withExtraComma (text : List Char) : List Char := text.dropLast ++ ',' :: text.getLast?.toList

theorem withExtraComma_closed (cs : List Char) (c : Char) : withExtraComma (cs ++ [c]) = cs ++ [',', c] := by
  simp [withExtraComma]

/-! ## The comma -/

theorem closesNext_extraComma (h : closesNext (cs ++ [',', c]) = true) : closesNext (cs ++ [c]) = true := by
  unfold closesNext at h ⊢
  induction cs with
  | nil => cases h
  | cons d cs ih =>
    rw [List.cons_append] at h ⊢
    cases hd : isBlank d with
    | true =>
      rw [List.dropWhile_cons_of_pos hd] at h ⊢
      exact ih h
    | false =>
      rw [List.dropWhile_cons_of_neg (by simp [hd])] at h ⊢
      exact h

theorem length_dropTrailingCommas (text : List Char) : (dropTrailingCommas text).length ≤ text.length := by
  induction text with
  | nil => exact Nat.le_refl _
  | cons c text ih =>
    rw [dropTrailingCommas]
    split
    · exact Nat.le_succ_of_le ih
    · exact Nat.succ_le_succ ih

/-- Where no other comma trails, the text is the one without the comma. -/
theorem dropTrailingCommas_extraComma (hc : c = ']' ∨ c = '\x7d') (h : dropTrailingCommas (cs ++ [c]) = cs ++ [c]) :
    dropTrailingCommas (cs ++ [',', c]) = cs ++ [c] := by
  induction cs with
  | nil =>
    have hcloses : closesNext [c] = true := closesNext_closer hc
    rw [List.nil_append, dropTrailingCommas, hcloses]
    exact h
  | cons d cs ih =>
    rw [List.cons_append, dropTrailingCommas] at h ⊢
    have hstays : ¬(d = ',' && closesNext (cs ++ [c])) = true := by
      intro hdrop
      rw [if_pos hdrop] at h
      have hlength := length_dropTrailingCommas (cs ++ [c])
      rw [h, List.length_cons] at hlength
      omega
    rw [if_neg hstays] at h
    rw [if_neg fun hdrop => ?_, ih (List.cons.inj h).2, List.cons_append]
    rw [Bool.and_eq_true] at hdrop hstays
    exact hstays ⟨hdrop.1, closesNext_extraComma hdrop.2⟩

/-- With the comma, the text is not read. -/
theorem not_parsed_extraComma (hc : c = ']' ∨ c = '\x7d') (h : (LexState.outside.run (cs ++ [c])).Settled) :
    Json.parseChars? (cs ++ [',', c]) = none := by
  have hbroken : ∀ s : LexState, (s.run [c]).Settled → ¬(s.run [',', c]).Settled := by
    intro s
    rcases hc with rfl | rfl <;> cases s <;> decide
  cases hparse : Json.parseChars? (cs ++ [',', c]) with
  | none => rfl
  | some v =>
    have hsettled := settled_of_parse hparse
    rw [LexState.run_append] at h hsettled
    exact absurd hsettled (hbroken _ h)

/-- An array or an object is closed by its last character. -/
theorem Json.exists_closer {v : Json} (container : (∃ xs, v = .arr xs) ∨ ∃ ms, v = .obj ms) (style : JsonStyle) :
    ∃ cs c, v.writeChars style = cs ++ [c] ∧ (c = ']' ∨ c = '\x7d') := by
  rcases container with ⟨_ | ⟨x, xs⟩, rfl⟩ | ⟨_ | ⟨⟨key, x⟩, ms⟩, rfl⟩
  · exact ⟨['['], ']', rfl, .inl rfl⟩
  · exact ⟨'[' :: (x.writeChars style ++ writeItems style xs), ']', by simp [writeChars], .inl rfl⟩
  · exact ⟨['\x7b'], '\x7d', rfl, .inr rfl⟩
  · exact ⟨'\x7b' :: (writeString style.asciiOnly key.toList ++ style.keySeparator ++ x.writeChars style ++
      writeMembers style ms), '\x7d', by simp [writeChars], .inr rfl⟩

/-! ## Recovery -/

/-- The corrections of commas, quotes and block comments find nothing to do, each when its turn comes. -/
structure Correction.Spares (text : List Char) : Prop where
  commas : dropTrailingCommas text = text
  quotes : doubleQuotes text = text
  blocks : dropBlockComments (dropLineComments (quoteBareKeys text)) = dropLineComments (quoteBareKeys text)

/-- The compact text of a value with a comma in front of its last character. -/
def Json.extraComma (ascii : Bool) (v : Json) : String := String.ofList (withExtraComma (v.compactChars ascii))

namespace Correction

/-- The comma goes, and then there is work left for three corrections only. -/
theorem applyAll_extraComma (hc : c = ']' ∨ c = '\x7d') (spares : Spares (cs ++ [c])) :
    applyAll (cs ++ [',', c]) = nullBareTokens (dropLineComments (quoteBareKeys (cs ++ [c]))) := by
  calc applyAll (cs ++ [',', c])
      = nullBareTokens (dropComments (quoteBareKeys (doubleQuotes (dropTrailingCommas (cs ++ [',', c]))))) := rfl
    _ = nullBareTokens (dropLineComments (quoteBareKeys (cs ++ [c]))) := by
      rw [dropTrailingCommas_extraComma hc spares.commas, spares.quotes, dropComments, spares.blocks]

/-- **What is left of compact text is the same text, or it is not read.** -/
theorem parseChars?_corrected (fits : LexState.outside.fits text = true) (settled : (LexState.outside.run text).Settled) :
    Json.parseChars? (nullBareTokens (dropLineComments (quoteBareKeys text))) =
      if quoteBareKeys text = text ∧ dropLineComments text = text then Json.parseChars? text else none := by
  by_cases hkept : quoteBareKeys text = text ∧ dropLineComments text = text
  · have hwords : nullBareTokens text = text := nullTokens_of_fits (.inl rfl) fits settled
    rw [if_pos hkept, hkept.1, hkept.2, hwords]
  · rw [if_neg hkept]
    have hunsettled : ¬(LexState.outside.run (dropLineComments (quoteBareKeys text))).Settled :=
      (unchanged_or_unsettled fits).resolve_left hkept
    cases hparse : Json.parseChars? (nullBareTokens (dropLineComments (quoteBareKeys text))) with
    | none => rfl
    | some v =>
      have hsettled := settled_of_parse hparse
      rw [nullBareTokens, run_nullTokens] at hsettled
      exact absurd hsettled hunsettled

end Correction

namespace Recovery

/-- **A value with one comma too many is recovered as it was, or not at all**, where only keys, line comments and bare
tokens are left to be corrected.  It is not recovered if something inside a string is taken for a key or for such a
comment, or if an integer has too many digits. -/
theorem ofText_extraComma {v : Json} (container : (∃ xs, v = .arr xs) ∨ ∃ ms, v = .obj ms) (distinct : v.Distinct)
    (finite : v.Finite) {ascii : Bool} (spares : Spares (v.compactChars ascii)) :
    ofText (v.extraComma ascii) =
      if (quoteBareKeys (v.compactChars ascii) = v.compactChars ascii ∧
          dropLineComments (v.compactChars ascii) = v.compactChars ascii) ∧ v.isReadable then
        ⟨some v, [strictFailed, repaired]⟩
      else ⟨none, [strictFailed, unrepairable]⟩ := by
  have hparse : Json.parseChars? (v.compactChars ascii) = if v.isReadable then some v else none :=
    Json.parseChars?_written (.compact ascii) distinct finite
  obtain ⟨_, settled, fits, rfl⟩ := compact_written (v := v) finite .outside (.inl rfl)
  obtain ⟨cs, c, htext, hc⟩ : ∃ cs c, v.compactChars ascii = cs ++ [c] ∧ _ := Json.exists_closer container _
  have hcorrected := parseChars?_corrected fits settled
  rw [hparse, ← ite_and] at hcorrected
  rw [htext] at settled spares
  have hextra : v.extraComma ascii = String.ofList (cs ++ [',', c]) := by
    rw [Json.extraComma, htext, withExtraComma_closed]
  rw [hextra, ofText, String.toList_ofList, ofChars, not_parsed_extraComma hc settled, applyAll_extraComma hc spares,
    ← htext, hcorrected]
  split_ifs <;> rfl

/-- Strings that hold what reads like a bare token, quotes and a slash. -/
def noted : Json := .obj [("note", .str "a, undefined \"b\" /c"), ("x", .arr [.num (.int 1), .null])]

/-- A string that holds what reads like a key. -/
def keyed : Json := .arr [.str "\x7ba: 1\x7d"]

theorem ofText_extraComma_noted :
    ((noted.Distinct ∧ noted.Finite ∧ Spares (noted.compactChars false)) ∧ keyed.Distinct ∧ keyed.Finite ∧
      Spares (keyed.compactChars false)) ∧
    noted.extraComma false = "\x7b\"note\":\"a, undefined \\\"b\\\" /c\",\"x\":[1,null],\x7d" ∧
    ofText (noted.extraComma false) = ⟨some noted, [strictFailed, repaired]⟩ ∧
    ofText (keyed.extraComma false) = ⟨none, [strictFailed, unrepairable]⟩ := by
  have hnoted : noted.Distinct ∧ noted.Finite ∧ Spares (noted.compactChars false) :=
    ⟨by decide, by decide, by decide +kernel, by decide +kernel, by decide +kernel⟩
  have hkeyed : keyed.Distinct ∧ keyed.Finite ∧ Spares (keyed.compactChars false) :=
    ⟨by decide, by decide, by decide +kernel, by decide +kernel, by decide +kernel⟩
  have hkept := ofText_extraComma (.inr ⟨_, rfl⟩) hnoted.1 hnoted.2.1 hnoted.2.2
  have hfailed := ofText_extraComma (.inl ⟨_, rfl⟩) hkeyed.1 hkeyed.2.1 hkeyed.2.2
  rw [if_pos (by decide +kernel)] at hkept
  rw [if_neg (by decide +kernel)] at hfailed
  exact ⟨⟨hnoted, hkeyed⟩, by decide +kernel, hkept, hfailed⟩

/-- What a string holds is corrected as syntax by each of the three corrections, and comes back as something else. -/
theorem ofText_extraComma_lossy :
    (ofText ((Json.arr [.str "a,]"]).extraComma false) = ⟨some (.arr [.str "a]"]), [strictFailed, repaired]⟩ ∧
      Json.arr [.str "a]"] ≠ .arr [.str "a,]"]) ∧
    (ofText ((Json.arr [.str "a','b"]).extraComma false) =
        ⟨some (.arr [.str "a", .str "b"]), [strictFailed, repaired]⟩ ∧
      Json.arr [.str "a", .str "b"] ≠ .arr [.str "a','b"]) ∧
    (ofText ((Json.arr [.str "a/**/b"]).extraComma false) = ⟨some (.arr [.str "ab"]), [strictFailed, repaired]⟩ ∧
      Json.arr [.str "ab"] ≠ .arr [.str "a/**/b"]) := by
  refine ⟨⟨?_, ?_⟩, ⟨?_, ?_⟩, ?_, ?_⟩ <;> decide +kernel

end Recovery

end JsonMend
