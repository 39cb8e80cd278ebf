import JsonMend.Pointer
/-
  Taking a pointer apart gives back the steps it was built from.

  1. **Escaping** — `unescapeChars` undoes `escapeChars`, and no escaped step holds a slash, so a slash in
     a pointer always separates two steps.
  2. **Building** — a pointer built step by step from the root is every step behind a slash of its own
     (`below_root`), which is how a report writes it (`shown_eq_ofPosition`).  The one exception is a first
     step that is empty: the pointer is then `/`, which is also a spelling of the root, and the next step
     takes its place.
  3. **Taking apart** (`split_ofPosition`) — the pointer to a place splits into the texts of the place's
     steps, unless the first step is empty.
  4. **Telling places apart** (`texts_of_schemaFragment`, `texts_of_ofPosition`) — a fragment tells the texts of
     the steps, and so does a pointer if their number is known.
-/
namespace JsonMend

namespace Pointer

/-! ## Escaping -/

theorem escapeChars_cons_of_plain {c : Char} (htilde : c ≠ '~') (hslash : c ≠ '/')
    (cs : List Char) : escapeChars (c :: cs) = c :: escapeChars cs := by
  rw [escapeChars]
  · exact htilde
  · exact hslash

theorem unescapeChars_escapeChars (cs : List Char) : unescapeChars (escapeChars cs) = cs := by
  induction cs with
  | nil => rfl
  | cons c cs ih =>
    by_cases htilde : c = '~'
    · rw [htilde, escapeChars, unescapeChars, ih]
    · by_cases hslash : c = '/'
      · rw [hslash, escapeChars, unescapeChars, ih]
      · rw [escapeChars_cons_of_plain htilde hslash, unescapeChars, ih]
        · intro rest h
          exact absurd h htilde
        · intro rest h
          exact absurd h htilde

theorem slash_not_mem_escapeChars (cs : List Char) : '/' ∉ escapeChars cs := by
  induction cs with
  | nil => exact List.not_mem_nil
  | cons c cs ih =>
    by_cases htilde : c = '~'
    · rw [htilde, escapeChars]
      simp [ih]
    · by_cases hslash : c = '/'
      · rw [hslash, escapeChars]
        simp [ih]
      · rw [escapeChars_cons_of_plain htilde hslash, List.mem_cons, not_or]
        exact ⟨Ne.symm hslash, ih⟩

theorem escapeChars_eq_nil {cs : List Char} : escapeChars cs = [] ↔ cs = [] := by
  constructor
  · intro h
    rw [← unescapeChars_escapeChars cs, h]
    rfl
  · rintro rfl
    rfl

/-! ## Building -/

theorem toList_escape (segment : String) : (escape segment).toList = escapeChars segment.toList := by
  rw [escape, String.toList_ofList]

/-- The characters of several steps, each behind a slash of its own. -/
def concatChars : List String → List Char
  | [] => []
  | segment :: rest => '/' :: (escapeChars segment.toList ++ concatChars rest)

theorem toList_concat (segments : List String) : (concat segments).toList = concatChars segments := by
  induction segments with
  | nil => rfl
  | cons segment rest ih =>
    show ("/" ++ escape segment ++ concat rest).toList = _
    rw [String.toList_append, String.toList_append, toList_escape, ih]
    rfl

theorem isRoot_iff {path : String} : isRoot path = true ↔ path.toList = [] ∨ path.toList = ['/'] := by
  rw [isRoot, Bool.or_eq_true, decide_eq_true_eq, decide_eq_true_eq]
  constructor
  · rintro (rfl | rfl)
    · exact .inl rfl
    · exact .inr rfl
  · rintro (h | h)
    · exact .inl (String.toList_inj.mp h)
    · exact .inr (String.toList_inj.mp h)

theorem isRoot_eq_false_of_two {path : String} {c d : Char} {cs : List Char}
    (h : path.toList = c :: d :: cs) : isRoot path = false := by
  rw [← Bool.not_eq_true, isRoot_iff, h]
  simp

/-- A step that is put behind a pointer other than the root stands behind it as it is written, and the
pointer is again not the root. -/
theorem join_of_not_root {parent : String} (h : isRoot parent = false) (segment : String) :
    join parent segment = parent ++ "/" ++ escape segment ∧ isRoot (join parent segment) = false := by
  have hjoin : join parent segment = parent ++ "/" ++ escape segment := by
    rw [join, h, if_neg Bool.false_ne_true]
  refine ⟨hjoin, ?_⟩
  cases hchars : parent.toList with
  | nil =>
    rw [isRoot_iff.mpr (.inl hchars)] at h
    cases h
  | cons c cs =>
    have hlist : (join parent segment).toList = c :: (cs ++ '/' :: escapeChars segment.toList) := by
      rw [hjoin, String.toList_append, String.toList_append, hchars, toList_escape]
      simp
    cases cs with
    | nil => exact isRoot_eq_false_of_two hlist
    | cons d cs => exact isRoot_eq_false_of_two hlist

theorem below_of_not_root {base : String} (h : isRoot base = false) (place : Position) :
    below base place = base ++ concat (place.map Segment.text) := by
  induction place generalizing base with
  | nil => simp [below, concat]
  | cons step rest ih =>
    obtain ⟨hjoin, hroot⟩ := join_of_not_root h step.text
    show below (join base step.text) rest = _
    rw [ih hroot, hjoin]
    simp [concat, String.append_assoc]

/-- The pointer to a place whose first step is not empty is every step behind a slash of its own. -/
theorem below_root {step : Segment} (h : step.text ≠ "") (rest : Position) :
    below "" (step :: rest) = concat ((step :: rest).map Segment.text) := by
  have hjoin : join "" step.text = "/" ++ escape step.text := by
    simp [join, isRoot]
  -- an empty step would leave the root, and the next step would take its place
  have hroot : isRoot (join "" step.text) = false := by
    cases hchars : escapeChars step.text.toList with
    | nil =>
      rw [escapeChars_eq_nil] at hchars
      exact absurd (String.toList_inj.mp hchars) h
    | cons c cs =>
      apply isRoot_eq_false_of_two
      rw [hjoin, String.toList_append, toList_escape, hchars]
      rfl
  show below (join "" step.text) rest = _
  rw [below_of_not_root hroot, hjoin]
  simp [concat]

/-- The pointer to a place, as a ledger shows it. -/
def shown (place : Position) : String := display (below "" place)

/-- A ledger and a report show the same pointer to a place, unless its first step is empty. -/
theorem shown_eq_ofPosition {place : Position} (h : ∀ step ∈ place.head?, step.text ≠ "") :
    shown place = ofPosition place := by
  cases place with
  | nil => rfl
  | cons step rest =>
    rw [shown, below_root (h step rfl), List.map_cons]
    have hne : concat (step.text :: rest.map Segment.text) ≠ "" := by
      intro hempty
      have hchars := congrArg String.toList hempty
      rw [toList_concat] at hchars
      cases hchars
    rw [display, if_neg hne]
    rfl

/-! ## Taking apart -/

theorem splitSlashes_append {part : List Char} (h : '/' ∉ part) (rest : List Char) :
    splitSlashes (part ++ '/' :: rest) = part :: splitSlashes rest := by
  induction part with
  | nil => rfl
  | cons c part ih =>
    rw [List.mem_cons, not_or] at h
    rw [List.cons_append, splitSlashes, ih h.2]
    exact Ne.symm h.1

theorem splitSlashes_of_not_mem {part : List Char} (h : '/' ∉ part) : splitSlashes part = [part] := by
  induction part with
  | nil => rfl
  | cons c part ih =>
    rw [List.mem_cons, not_or] at h
    rw [splitSlashes, ih h.2]
    exact Ne.symm h.1

/-- Behind its first slash, a pointer is cut into the escaped steps. -/
theorem splitSlashes_concatChars (segment : String) (rest : List String) :
    splitSlashes (escapeChars segment.toList ++ concatChars rest) =
      (segment :: rest).map fun s => escapeChars s.toList := by
  induction rest generalizing segment with
  | nil =>
    rw [concatChars, List.append_nil, splitSlashes_of_not_mem (slash_not_mem_escapeChars _)]
    rfl
  | cons next rest ih =>
    rw [concatChars, splitSlashes_append (slash_not_mem_escapeChars _), ih]
    rfl

theorem dropWhile_slashes {segment : String} (h : segment ≠ "") (rest : List Char) :
    ('/' :: (escapeChars segment.toList ++ rest)).dropWhile (· == '/') =
      escapeChars segment.toList ++ rest := by
  rw [List.dropWhile_cons_of_pos (by rfl)]
  cases hchars : escapeChars segment.toList with
  | nil =>
    rw [escapeChars_eq_nil] at hchars
    exact absurd (String.toList_inj.mp hchars) h
  | cons c cs =>
    -- no escaped step begins with a slash, so only the first slash is dropped
    have hslash : c ≠ '/' := by
      rintro rfl
      apply slash_not_mem_escapeChars segment.toList
      rw [hchars]
      exact List.mem_cons_self
    rw [List.cons_append, List.dropWhile_cons_of_neg]
    simpa using hslash

theorem split_concat {segment : String} (h : segment ≠ "") (rest : List String) :
    split (concat (segment :: rest)) = segment :: rest := by
  have hlist : (concat (segment :: rest)).toList =
      '/' :: (escapeChars segment.toList ++ concatChars rest) := toList_concat _
  have hroot : isRoot (concat (segment :: rest)) = false := by
    rw [← Bool.not_eq_true, isRoot_iff, hlist]
    simp [escapeChars_eq_nil, h]
  rw [split, hroot, if_neg Bool.false_ne_true, hlist, dropWhile_slashes h, splitSlashes_concatChars,
    List.map_map]
  have hundo : ∀ s : String,
      ((fun part => String.ofList (unescapeChars part)) ∘ fun s : String => escapeChars s.toList) s
        = s := by
    intro s
    show String.ofList (unescapeChars (escapeChars s.toList)) = s
    rw [unescapeChars_escapeChars, String.ofList_toList]
  rw [List.map_congr_left (fun s _ => hundo s), List.map_id']

/-- The text of an index is never empty. -/
theorem index_text_ne (i : Nat) : (Segment.index i).text ≠ "" := by
  intro h
  have hdigits : Nat.toDigits 10 i = [] := by
    rw [← String.toList_ofList (l := Nat.toDigits 10 i)]
    exact congrArg String.toList h
  rw [Nat.toDigits_eq_if (by decide)] at hdigits
  split at hdigits
  · cases hdigits
  · exact List.append_ne_nil_of_right_ne_nil _ (List.cons_ne_nil _ _) hdigits

/-- **A pointer is taken apart into the steps it was built from**, unless the first of them is empty. -/
theorem split_ofPosition {place : Position} (h : ∀ step ∈ place.head?, step.text ≠ "") :
    split (ofPosition place) = place.map Segment.text := by
  cases place with
  | nil => rfl
  | cons step rest => exact split_concat (h step rfl) (rest.map Segment.text)

theorem split_display_below {place : Position} (h : ∀ step ∈ place.head?, step.text ≠ "") :
    split (display (below "" place)) = place.map Segment.text := by
  show split (shown place) = _
  rw [shown_eq_ofPosition h, split_ofPosition h]

/-! ## Telling places apart -/

theorem splitSlashes_concat (segments : List String) :
    splitSlashes (concatChars segments) = [] :: segments.map fun s => escapeChars s.toList := by
  cases segments with
  | nil => rfl
  | cons segment rest => rw [concatChars, splitSlashes, splitSlashes_concatChars]

theorem map_unescapeChars (segments : List String) :
    (segments.map fun s => escapeChars s.toList).map (fun part => String.ofList (unescapeChars part)) =
      segments := by
  simp [Function.comp_def, unescapeChars_escapeChars]

theorem concat_injective {segments others : List String} (h : concat segments = concat others) :
    segments = others := by
  have hchars : concatChars segments = concatChars others := by
    rw [← toList_concat, ← toList_concat, h]
  have hsplit := congrArg splitSlashes hchars
  rw [splitSlashes_concat, splitSlashes_concat, List.cons.injEq] at hsplit
  rw [← map_unescapeChars segments, hsplit.2, map_unescapeChars]

/-- A pointer into a schema tells the steps. -/
theorem texts_of_schemaFragment {place other : Position}
    (h : schemaFragment place = schemaFragment other) :
    place.map Segment.text = other.map Segment.text := by
  refine concat_injective (String.toList_inj.mp ?_)
  have hchars := congrArg String.toList h
  rw [schemaFragment, schemaFragment, String.toList_append, String.toList_append] at hchars
  exact List.append_cancel_left hchars

/-- A pointer into a value tells the steps, if their number is known: the root is shown as the place under the
empty key is. -/
theorem texts_of_ofPosition {place other : Position} (length : place.length = other.length)
    (h : ofPosition place = ofPosition other) : place.map Segment.text = other.map Segment.text := by
  cases place with
  | nil =>
    cases List.length_eq_zero_iff.mp length.symm
    rfl
  | cons step place =>
    cases other with
    | nil => cases length
    | cons step' other => exact concat_injective h

end Pointer

end JsonMend
