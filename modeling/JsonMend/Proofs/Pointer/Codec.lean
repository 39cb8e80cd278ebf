import Mathlib.Data.Set.Function
import JsonMend.Proofs.Pointer.Split
/-
  Which texts are escaped steps, and which lists of steps a pointer tells.

  1. **Escaping in two replacements** (`escapeChars_eq_replaceChar`, `unescapeChars_eq_replacePair`) — a text is
     escaped, and an escaped one read, by replacing first one thing everywhere, then the other.  The tildes go first
     in escaping and last in reading.
  2. **Escaped texts** (`escape_unescape_iff`) — reading and escaping again changes nothing exactly where there is no
     slash and no tilde without its digit.
  3. **Steps that a pointer tells** (`Telling`) — an empty step in front leaves the root, and the next step takes its
     place (`foldl_join_empty_cons`), unless there is none.  So each list of steps has the pointer of exactly one list
     that is told (`exists_telling`, `telling_injective`).  A report spells the steps out, so its pointer is the same
     one for these lists alone (`display_eq_ofSegments_iff`).
-/
namespace JsonMend

namespace Pointer

variable {c d : Char} {cs text rest : List Char}

/-! ## Escaping in two replacements -/

/-- A text with each character of a kind replaced by two. -/
def replaceChar (c first second : Char) (text : List Char) : List Char :=
  text.flatMap fun d => if d = c then [first, second] else [d]

/-- A text with each two characters of a kind, one behind the other, replaced by one, from left to right. -/
def replacePair (first second replacement : Char) : List Char → List Char
  | [] => []
  | [c] => [c]
  | c :: d :: rest =>
    if c = first ∧ d = second then replacement :: replacePair first second replacement rest
    else c :: replacePair first second replacement (d :: rest)

theorem escapeChars_eq_replaceChar (text : List Char) :
    escapeChars text = replaceChar '/' '~' '1' (replaceChar '~' '~' '0' text) := by
  induction text with
  | nil => rfl
  | cons c text ih =>
    by_cases htilde : c = '~'
    · subst htilde
      rw [escapeChars, ih]
      rfl
    · by_cases hslash : c = '/'
      · subst hslash
        rw [escapeChars, ih]
        rfl
      · rw [escapeChars_cons_of_plain htilde hslash, ih]
        simp [replaceChar, htilde, hslash]

section
variable {first second replacement : Char}

theorem replacePair_cons (h : c = first → text.head? ≠ some second) :
    replacePair first second replacement (c :: text) = c :: replacePair first second replacement text := by
  cases text with
  | nil => rfl
  | cons d rest =>
    rw [replacePair, if_neg]
    rintro ⟨rfl, rfl⟩
    exact h rfl rfl

/-- A replacement puts nothing in front that was not there, itself apart. -/
theorem head_of_replacePair (h : (replacePair first second replacement text).head? = some c)
    (other : c ≠ replacement) : text.head? = some c := by
  cases text with
  | nil => cases h
  | cons x text =>
    cases text with
    | nil => exact h
    | cons y rest =>
      rw [replacePair] at h
      split at h
      · exact absurd (Option.some.inj h).symm other
      · exact h

end

theorem unescapeChars_cons (h : c = '~' → text.head? ≠ some '0' ∧ text.head? ≠ some '1') :
    unescapeChars (c :: text) = c :: unescapeChars text := by
  rw [unescapeChars]
  · rintro rest rfl rfl
    exact (h rfl).2 rfl
  · rintro rest rfl rfl
    exact (h rfl).1 rfl

theorem unescapeChars_eq_replacePair (text : List Char) :
    unescapeChars text = replacePair '~' '0' '~' (replacePair '~' '1' '/' text) := by
  induction text using unescapeChars.induct with
  | case1 => rfl
  | case2 rest ih =>
    have hslash : '/' = '~' → (replacePair '~' '1' '/' rest).head? ≠ some '0' := fun h => absurd h (by decide)
    rw [unescapeChars, ih, replacePair, if_pos ⟨rfl, rfl⟩, replacePair_cons hslash]
  | case3 rest ih =>
    have hdigit : '0' = '~' → rest.head? ≠ some '1' := fun h => absurd h (by decide)
    rw [unescapeChars, ih, replacePair, if_neg (by decide), replacePair_cons hdigit, replacePair, if_pos ⟨rfl, rfl⟩]
  | case4 c rest hone hzero ih =>
    have hplain : c = '~' → rest.head? ≠ some '0' ∧ rest.head? ≠ some '1' := by
      rintro rfl
      cases rest with
      | nil => exact ⟨by simp, by simp⟩
      | cons d more =>
        refine ⟨fun h => hzero more rfl ?_, fun h => hone more rfl ?_⟩
        · rw [Option.some.inj h]
        · rw [Option.some.inj h]
    -- the first replacement brings no zero behind a tilde
    have hbehind : c = '~' → (replacePair '~' '1' '/' rest).head? ≠ some '0' := fun h hhead =>
      (hplain h).1 (head_of_replacePair hhead (by decide))
    rw [unescapeChars_cons hplain, ih, replacePair_cons fun h => (hplain h).2, replacePair_cons hbehind]

-- in the other order the digit of a tilde that was read would be taken for its own
example : replacePair '~' '1' '/' (replacePair '~' '0' '~' ['~', '0', '1']) = ['/'] ∧
    unescapeChars ['~', '0', '1'] = ['~', '1'] := by decide

/-! ## Escaped texts -/

/-- There is no slash, and behind each tilde stands one of its two digits. -/
def IsEscaped (text : List Char) : Prop :=
  '/' ∉ text ∧ ∀ front back, text = front ++ '~' :: back → back.head? = some '0' ∨ back.head? = some '1'

theorem isEscaped_nil : IsEscaped [] :=
  ⟨List.not_mem_nil, fun front back h => by cases front <;> cases h⟩

theorem isEscaped_cons : IsEscaped (c :: text) ↔
    c ≠ '/' ∧ (c = '~' → text.head? = some '0' ∨ text.head? = some '1') ∧ IsEscaped text := by
  constructor
  · rintro ⟨hslash, htilde⟩
    rw [List.mem_cons, not_or] at hslash
    refine ⟨Ne.symm hslash.1, ?_, hslash.2, fun front back h => htilde (c :: front) back (by rw [h]; rfl)⟩
    rintro rfl
    exact htilde [] text rfl
  · rintro ⟨hc, hbehind, hslash, htilde⟩
    refine ⟨List.not_mem_cons_of_ne_of_not_mem (Ne.symm hc) hslash, fun front back h => ?_⟩
    cases front with
    | nil =>
      cases h
      exact hbehind rfl
    | cons x front =>
      cases h
      exact htilde front back rfl

theorem isEscaped_escapeChars (text : List Char) : IsEscaped (escapeChars text) := by
  induction text with
  | nil => exact isEscaped_nil
  | cons c text ih =>
    by_cases htilde : c = '~'
    · subst htilde
      rw [escapeChars]
      exact isEscaped_cons.mpr ⟨by decide, fun _ => .inl rfl, isEscaped_cons.mpr ⟨by decide, by simp, ih⟩⟩
    · by_cases hslash : c = '/'
      · subst hslash
        rw [escapeChars]
        exact isEscaped_cons.mpr ⟨by decide, fun _ => .inr rfl, isEscaped_cons.mpr ⟨by decide, by simp, ih⟩⟩
      · rw [escapeChars_cons_of_plain htilde hslash]
        exact isEscaped_cons.mpr ⟨hslash, fun h => absurd h htilde, ih⟩

theorem escapeChars_unescapeChars (h : IsEscaped text) : escapeChars (unescapeChars text) = text := by
  induction text using unescapeChars.induct with
  | case1 => rfl
  | case2 rest ih =>
    rw [unescapeChars, escapeChars, ih (isEscaped_cons.mp (isEscaped_cons.mp h).2.2).2.2]
  | case3 rest ih =>
    rw [unescapeChars, escapeChars, ih (isEscaped_cons.mp (isEscaped_cons.mp h).2.2).2.2]
  | case4 c rest hone hzero ih =>
    obtain ⟨hslash, htilde, hrest⟩ := isEscaped_cons.mp h
    have hplain : c ≠ '~' := by
      rintro rfl
      cases rest with
      | nil => simp at htilde
      | cons d more =>
        rcases htilde rfl with hd | hd
        · exact hzero more rfl (by rw [Option.some.inj hd])
        · exact hone more rfl (by rw [Option.some.inj hd])
    rw [unescapeChars_cons fun h => absurd h hplain, escapeChars_cons_of_plain hplain hslash, ih hrest]

theorem unescape_escape (s : String) : unescape (escape s) = s := by
  rw [unescape, toList_escape, unescapeChars_escapeChars, String.ofList_toList]

/-- **What is read and escaped again is as it was exactly if it was escaped.** -/
theorem escape_unescape_iff {s : String} : escape (unescape s) = s ↔ IsEscaped s.toList := by
  rw [escape, unescape, String.toList_ofList]
  constructor
  · intro h
    rw [← h, String.toList_ofList]
    exact isEscaped_escapeChars _
  · intro h
    rw [escapeChars_unescapeChars h, String.ofList_toList]

/-! ## Steps that a pointer tells -/

/-- The first step is not empty, or it is the only one. -/
def Telling (segments : List String) : Prop := segments.head? ≠ some "" ∨ segments = [""]

section
variable {segment : String} {segments others more : List String}

theorem foldl_join_eq_below (segments : List String) (base : String) :
    segments.foldl join base = below base (segments.map .key) := by
  rw [below, List.foldl_map]
  rfl

theorem map_text_key (segments : List String) : (segments.map Segment.key).map Segment.text = segments := by
  rw [List.map_map]
  exact List.map_id segments

/-- Without an empty step in front, every step stands behind a slash of its own. -/
theorem foldl_join_of_head (h : segments.head? ≠ some "") : segments.foldl join "" = concat segments := by
  cases segments with
  | nil => rfl
  | cons segment rest =>
    have hsegment : (Segment.key segment).text ≠ "" := by
      rintro rfl
      exact h rfl
    rw [foldl_join_eq_below, List.map_cons, below_root hsegment, List.map_cons, map_text_key]
    rfl

/-- An empty step in front leaves the root, so the next step takes its place. -/
theorem foldl_join_empty_cons (h : segments ≠ []) : ("" :: segments).foldl join "" = segments.foldl join "" := by
  cases segments with
  | nil => exact absurd rfl h
  | cons segment rest => rfl

/-- Each list has the pointer of a list that its pointer tells. -/
theorem exists_telling (segments : List String) :
    ∃ others, Telling others ∧ others.foldl join "" = segments.foldl join "" := by
  induction segments with
  | nil => exact ⟨[], .inl (by simp), rfl⟩
  | cons segment rest ih =>
    by_cases hsegment : segment = ""
    · subst hsegment
      cases rest with
      | nil => exact ⟨[""], .inr rfl, rfl⟩
      | cons next more =>
        rw [foldl_join_empty_cons (List.cons_ne_nil _ _)]
        exact ih
    · exact ⟨segment :: rest, .inl (by simpa using hsegment), rfl⟩

theorem ofSegments_of_ne_nil (h : segments ≠ []) : ofSegments segments = concat segments := by
  rw [ofSegments, if_neg (by simpa using h)]

/-- The lists whose pointer tells them are shown as a report shows them. -/
theorem display_of_telling (h : Telling segments) : display (segments.foldl join "") = ofSegments segments := by
  rcases h with hhead | rfl
  · have hshown : ∀ step ∈ (segments.map Segment.key).head?, step.text ≠ "" := by
      rw [List.head?_map]
      rintro step hstep hempty
      obtain ⟨segment, hsegment, rfl⟩ := Option.map_eq_some_iff.mp hstep
      exact hhead (hempty ▸ hsegment)
    have hsame := shown_eq_ofPosition hshown
    rwa [shown, ofPosition, ← foldl_join_eq_below, map_text_key] at hsame
  · rfl

/-- **The pointers of the passes and of a report are shown alike for these lists only.** -/
theorem display_eq_ofSegments_iff : display (segments.foldl join "") = ofSegments segments ↔ Telling segments := by
  refine ⟨fun h => ?_, display_of_telling⟩
  by_cases hhead : segments.head? = some ""
  · -- some other list is told by the pointer, and a report would show that one so
    obtain ⟨others, htelling, hsame⟩ := exists_telling segments
    have hnonempty : segments ≠ [] := by
      rintro rfl
      cases hhead
    rw [← hsame, display_of_telling htelling, ofSegments_of_ne_nil hnonempty] at h
    cases others with
    | nil =>
      have hroot : concat [""] = concat segments := h
      exact .inr (concat_injective hroot).symm
    | cons segment rest =>
      rw [ofSegments_of_ne_nil (List.cons_ne_nil _ _)] at h
      rwa [← concat_injective h]
  · exact .inl hhead

theorem split_foldl_join_of_head (h : segments.head? ≠ some "") : split (segments.foldl join "") = segments := by
  rw [foldl_join_of_head h]
  cases segments with
  | nil => rfl
  | cons segment rest =>
    refine split_concat ?_ rest
    rintro rfl
    exact h rfl

/-- **A pointer gives back the steps that it was built from exactly if the first is not empty.** -/
theorem split_foldl_join_iff : split (segments.foldl join "") = segments ↔ segments.head? ≠ some "" := by
  refine ⟨fun h hhead => ?_, split_foldl_join_of_head⟩
  obtain ⟨others, htelling, hsame⟩ := exists_telling segments
  rw [← hsame] at h
  rcases htelling with hother | rfl
  · rw [split_foldl_join_of_head hother] at h
    rw [h] at hother
    exact hother hhead
  · have hroot : split ([""].foldl join "") = [] := rfl
    rw [hroot] at h
    rw [← h] at hhead
    cases hhead

/-- No two of these lists have one pointer. -/
theorem telling_injective : Set.InjOn (fun segments : List String => segments.foldl join "") {segments | Telling segments} := by
  -- the pointer of the empty step alone is the root's other spelling, which no other of these lists has
  have hslash : ∀ {segments : List String}, segments.head? ≠ some "" → segments.foldl join "" ≠ [""].foldl join "" := by
    intro segments hhead hsame
    rw [foldl_join_of_head hhead] at hsame
    have hone : concat segments = concat [""] := hsame
    rw [concat_injective hone] at hhead
    exact hhead rfl
  intro segments htelling others hothers hsame
  dsimp only at hsame
  rcases htelling with hhead | rfl
  · rcases hothers with hother | rfl
    · rw [← split_foldl_join_of_head hhead, hsame, split_foldl_join_of_head hother]
    · exact absurd hsame (hslash hhead)
  · rcases hothers with hother | rfl
    · exact absurd hsame.symm (hslash hother)
    · rfl

end

/-- **What pointers tell of the steps that they are built from, and how a step is escaped.** -/
theorem pointers_tell :
    (∀ segments : List String, split (segments.foldl join "") = segments ↔ segments.head? ≠ some "") ∧
    Set.InjOn (fun segments : List String => segments.foldl join "") {segments | Telling segments} ∧
    (∀ segments : List String, ∃ others, Telling others ∧ others.foldl join "" = segments.foldl join "") ∧
    (∀ segments : List String, display (segments.foldl join "") = ofSegments segments ↔ Telling segments) ∧
    (∀ s : String, unescape (escape s) = s) ∧
    (∀ s : String, escape (unescape s) = s ↔ IsEscaped s.toList) :=
  ⟨fun _ => split_foldl_join_iff, telling_injective, exists_telling, fun _ => display_eq_ofSegments_iff,
    unescape_escape, fun _ => escape_unescape_iff⟩

/-- Empty steps behind the first, and steps that look escaped, are told as well. -/
theorem pointers_tell_of_three : Telling ["a/b", "", "~01"] ∧ ["a/b", "", "~01"].foldl join "" = "/a~1b//~001" ∧
    split "/a~1b//~001" = ["a/b", "", "~01"] ∧
    ∀ others, Telling others → others.foldl join "" = "/a~1b//~001" → others = ["a/b", "", "~01"] := by
  have htelling : Telling ["a/b", "", "~01"] := .inl (by decide)
  have hpointer : ["a/b", "", "~01"].foldl join "" = "/a~1b//~001" := by decide +kernel
  obtain ⟨hsplit, hinjective, -⟩ := pointers_tell
  refine ⟨htelling, hpointer, ?_, fun others hothers hsame => ?_⟩
  · rw [← hpointer]
    exact (hsplit _).mpr (by decide)
  · exact hinjective hothers htelling (hsame.trans hpointer.symm)

/-- The list of the empty step alone is shown alike, although its pointer does not give it back. -/
theorem display_eq_ofSegments_of_empty_step :
    ¬ (∀ segments : List String, display (segments.foldl join "") = ofSegments segments ↔
      segments.head? ≠ some "") :=
  fun h => (h [""]).mp rfl rfl

end Pointer

end JsonMend
