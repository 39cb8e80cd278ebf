import JsonMend.Proofs.Recovery.Punctuation
/-
  Comments are dropped, those to the end of a line first.

  Outside of comments slashes stand in strings only, one at a time.  What a comment says holds neither a slash nor
  an asterisk, so it ends where it is meant to; and no slash stands behind a comment, or the end of one would
  open another.

  1. **To the end of a line** (`lineCorrector`) — the end of the line stays.
  2. **Blocks** (`blockCorrector`)
-/
namespace JsonMend

open Relaxed

namespace Correction

variable {c : Char} {cs rest : List Char}

/-! ## To the end of a line -/

theorem lines_cons (quiet : c ≠ '/') :
    dropLineComments.go false (c :: rest) = c :: dropLineComments.go false rest := by
  simp [dropLineComments.go_text, quiet]

/-- A slash without another one behind it stays. -/
theorem lines_slash (single : NoSlash rest) :
    dropLineComments.go false ('/' :: rest) = '/' :: dropLineComments.go false rest := by
  have hhead : rest.head? ≠ some '/' := fun h => single '/' h rfl
  simp [dropLineComments.go_text, hhead]

theorem corrects_lines (quiet : '/' ∉ cs) : Corrects (dropLineComments.go false) Anything cs cs := by
  intro rest _
  induction cs with
  | nil => rfl
  | cons x cs ih =>
    rw [List.mem_cons, not_or] at quiet
    rw [List.cons_append, lines_cons (Ne.symm quiet.1), ih quiet.2, List.cons_append]

theorem lines_skip (oneLine : '\n' ∉ cs) :
    dropLineComments.go true (cs ++ '\n' :: rest) = '\n' :: dropLineComments.go false rest := by
  induction cs with
  | nil => simp [dropLineComments.go_comment]
  | cons x cs ih =>
    rw [List.mem_cons, not_or] at oneLine
    rw [List.cons_append, dropLineComments.go_comment, if_neg (Ne.symm oneLine.1), ih oneLine.2]

theorem corrects_slash : Corrects (dropLineComments.go false) NoSlash ['/'] ['/'] := fun _ => lines_slash

/-- A comment is dropped up to the end of its line. -/
theorem corrects_line (oneLine : '\n' ∉ cs) :
    Corrects (dropLineComments.go false) Anything ('/' :: '/' :: (cs ++ ['\n'])) ['\n'] := by
  intro rest _
  simp only [List.cons_append, List.append_assoc, List.nil_append]
  rw [← lines_skip oneLine]
  simp [dropLineComments.go_text, dropLineComments.go_comment]

/-- Single slashes in front of a quote stay. -/
theorem lines_stop (single : ¬['/', '/'] <:+: cs) :
    dropLineComments.go false (cs ++ '"' :: rest) = cs ++ '"' :: dropLineComments.go false rest := by
  induction cs with
  | nil => exact lines_cons (by decide)
  | cons x cs ih =>
    have hrest : ¬['/', '/'] <:+: cs := fun h => single (h.trans (List.suffix_cons x cs).isInfix)
    rw [List.cons_append, List.cons_append, ← ih hrest]
    by_cases hx : x = '/'
    · subst hx
      refine lines_slash ?_
      rintro d hd rfl
      cases cs with
      | nil => cases hd
      | cons y cs =>
        cases hd
        exact single ⟨[], cs, rfl⟩
    · exact lines_cons hx

/-! ## Blocks -/

theorem blocks_cons (quiet : c ≠ '/') :
    dropBlockComments.go .outside (c :: rest) = c :: dropBlockComments.go .outside rest := by
  simp [dropBlockComments.go_outside, quiet]

theorem corrects_blocks (quiet : '/' ∉ cs) :
    Corrects (dropBlockComments.go .outside) Anything cs cs := by
  intro rest _
  induction cs with
  | nil => rfl
  | cons x cs ih =>
    rw [List.mem_cons, not_or] at quiet
    rw [List.cons_append, blocks_cons (Ne.symm quiet.1), ih quiet.2, List.cons_append]

theorem closesBlock_append : closesBlock (cs ++ '*' :: '/' :: rest) = true := by
  induction cs with
  | nil => simp [closesBlock]
  | cons x cs ih => rw [List.cons_append, closesBlock, ih, Bool.or_true]

theorem blocks_skip (quiet : '*' ∉ cs) : dropBlockComments.go .inside (cs ++ '*' :: '/' :: rest) =
    dropBlockComments.go .outside rest := by
  induction cs with
  | nil => simp [dropBlockComments.go_inside, dropBlockComments.go_closing]
  | cons x cs ih =>
    rw [List.mem_cons, not_or] at quiet
    rw [List.cons_append, dropBlockComments.go_inside, ← ih quiet.2]
    simp [Ne.symm quiet.1]

/-- A block without an asterisk in it is dropped. -/
theorem corrects_block (quiet : '*' ∉ cs) : Corrects (dropBlockComments.go .outside) Anything
    ('/' :: '*' :: (cs ++ ['*', '/'])) [] := by
  intro rest _
  have hcloses : closesBlock (cs ++ '*' :: '/' :: rest) = true := closesBlock_append
  simp only [List.cons_append, List.append_assoc, List.nil_append]
  rw [dropBlockComments.go_outside]
  simp only [List.head?_cons, List.drop_succ_cons, List.drop_zero, hcloses, decide_true, Bool.and_true,
    if_true]
  rw [dropBlockComments.go_opening, blocks_skip quiet]

/-- A slash without an asterisk behind it stays. -/
theorem blocks_slash (single : rest.head? ≠ some '*') :
    dropBlockComments.go .outside ('/' :: rest) = '/' :: dropBlockComments.go .outside rest := by
  rw [dropBlockComments.go_outside, decide_eq_false single, Bool.and_false, Bool.false_and]
  rfl

theorem blocks_stop (single : ¬['/', '*'] <:+: cs) :
    dropBlockComments.go .outside (cs ++ '"' :: rest) = cs ++ '"' :: dropBlockComments.go .outside rest := by
  induction cs with
  | nil => exact blocks_cons (by decide)
  | cons x cs ih =>
    have hrest : ¬['/', '*'] <:+: cs := fun h => single (h.trans (List.suffix_cons x cs).isInfix)
    rw [List.cons_append, List.cons_append, ← ih hrest]
    by_cases hx : x = '/'
    · subst hx
      refine blocks_slash fun hd => ?_
      cases cs with
      | nil => cases hd
      | cons y cs =>
        cases hd
        exact single ⟨[], cs, rfl⟩
    · exact blocks_cons hx

end Correction

namespace Relaxed

open Correction

/-- What a comment says does not get another line when its quotes are corrected. -/
theorem not_mem_doubleQuotes {c : Char} {text : List Char} (h : c ∉ text) (other : c ≠ '"') :
    c ∉ doubleQuotes text := by
  intro hc
  obtain ⟨d, hd, hmap⟩ := List.mem_map.mp hc
  split at hmap
  · exact other hmap.symm
  · exact h (hmap ▸ hd)

/-- **Comments to the end of a line are dropped.** -/
theorem lineCorrector : TokenCorrector (dropLineComments.go false) .afterKeys .afterLines where
  nil := rfl
  inert cs hcs := corrects_lines (hcs.not_mem rfl)
  separator := by
    rintro c (rfl | rfl | rfl | rfl | rfl) <;> exact corrects_lines (by decide)
  literal q l := by
    intro rest _
    rw [Stage.literal_double _ rfl, Stage.literal_double _ rfl]
    simp only [List.cons_append, List.append_assoc, List.nil_append]
    rw [lines_cons (by decide), lines_stop l.untouched.lines]
  comment remarked := by
    cases remarked with
    | line text _ oneLine => exact (corrects_line (not_mem_doubleQuotes oneLine (by decide))).anyway
    | block text remark =>
      have hquiet : '/' ∉ '*' :: (doubleQuotes text ++ ['*']) := by
        have htext : '/' ∉ text := fun h => (remark _ h).1 rfl
        simpa using not_mem_doubleQuotes htext (by decide)
      -- neither the slash that opens the block nor the one that closes it has another one behind it
      have hblock := corrects_slash.append ((corrects_lines hquiet).andThen corrects_slash) fun rest _ => by
        rintro c ⟨⟩
        decide
      show Corrects _ NoSlash ('/' :: '*' :: (doubleQuotes text ++ ['*', '/']))
        ('/' :: '*' :: (doubleQuotes text ++ ['*', '/']))
      simpa using hblock
  commas := rfl
  keys := rfl
  words := rfl

/-- **Blocks are dropped.** -/
theorem blockCorrector : TokenCorrector (dropBlockComments.go .outside) .afterLines .afterBlocks where
  nil := rfl
  inert cs hcs := corrects_blocks (hcs.not_mem rfl)
  separator := by
    rintro c (rfl | rfl | rfl | rfl | rfl) <;> exact corrects_blocks (by decide)
  literal q l := by
    intro rest _
    rw [Stage.literal_double _ rfl, Stage.literal_double _ rfl]
    simp only [List.cons_append, List.append_assoc, List.nil_append]
    rw [blocks_cons (by decide), blocks_stop l.untouched.blocks]
  comment remarked := by
    cases remarked with
    | line text =>
      have hend : Corrects (dropBlockComments.go .outside) Anything ['\n'] ['\n'] :=
        corrects_blocks (by decide)
      exact hend.anyway
    | block text remark =>
      have htext : '*' ∉ text := fun h => (remark _ h).2.1 rfl
      exact (corrects_block (not_mem_doubleQuotes htext (by decide))).anyway
  commas := rfl
  keys := rfl
  words := rfl

end Relaxed

end JsonMend
