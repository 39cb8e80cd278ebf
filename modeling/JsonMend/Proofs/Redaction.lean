import JsonMend.Redaction
/-
  What is left of addresses in a log.

  1. **Exposed addresses** (`Exposed`) — an `@` between two address characters.  Text stays hidden where it is cut by a
     character that no address has (`hidden_seam`).
  2. **Runs** (`redactChars_plain`, `redactChars_address`) — a text is read one run of address characters at a time.
  3. **Redaction** (`redacts_redactChars`) — the leftmost address is replaced, as long as it can be, then the leftmost
     of the rest, and so on; everything else stays.  A mark stands between two brackets, so no seam makes an address
     (`Redacts.hidden`), and there is nothing to do a second time.
  4. **Previews** (`logs_hide_addresses`) — what is cut off is counted, and what is left exposes nothing either.
-/
namespace JsonMend

namespace Redaction

variable {c : Char} {run front rest text shown : List Char}

/-! ## Exposed addresses -/

/-- Somewhere an `@` has an address character on both sides. -/
def Exposed (text : List Char) : Prop :=
  ∃ front a b back, text = front ++ a :: '@' :: b :: back ∧ isAddressChar a = true ∧ isAddressChar b = true

theorem exposed_cons : Exposed (c :: text) ↔
    (isAddressChar c = true ∧ ∃ rest, text = '@' :: rest ∧ startsRun rest = true) ∨ Exposed text := by
  constructor
  · rintro ⟨front, a, b, back, h, ha, hb⟩
    cases front with
    | nil =>
      cases h
      exact .inl ⟨ha, b :: back, rfl, hb⟩
    | cons x front =>
      cases h
      exact .inr ⟨front, a, b, back, rfl, ha, hb⟩
  · rintro (⟨hc, rest, rfl, hrest⟩ | ⟨front, a, b, back, rfl, ha, hb⟩)
    · cases rest with
      | nil => cases hrest
      | cons b back => exact ⟨[], c, b, back, rfl, hc, hrest⟩
    · exact ⟨c :: front, a, b, back, rfl, ha, hb⟩

theorem exposed_append_left (h : Exposed text) : Exposed (text ++ rest) := by
  obtain ⟨front, a, b, back, rfl, ha, hb⟩ := h
  exact ⟨front, a, b, back ++ rest, by simp, ha, hb⟩

theorem not_exposed_of_not_mem (h : '@' ∉ text) : ¬Exposed text := by
  rintro ⟨front, a, b, back, rfl, -⟩
  exact h (by simp)

/-- A character that no address has cuts a text in two. -/
theorem hidden_seam (hfront : ¬Exposed front) (hrest : ¬Exposed rest) (hc : isAddressChar c = false) (noAt : c ≠ '@') :
    ¬Exposed (front ++ c :: rest) := by
  induction front with
  | nil =>
    rw [List.nil_append, exposed_cons, hc]
    rintro (⟨⟨⟩, -⟩ | h)
    exact hrest h
  | cons x front ih =>
    rw [exposed_cons, not_or] at hfront
    rw [List.cons_append, exposed_cons]
    rintro (⟨hx, more, hmore, hstarts⟩ | h)
    · cases front with
      | nil =>
        cases hmore
        exact noAt rfl
      | cons y front =>
        cases hmore
        refine hfront.1 ⟨hx, front, rfl, ?_⟩
        cases front with
        | nil =>
          have hcut : startsRun (c :: rest) = true := hstarts
          rw [startsRun, hc] at hcut
          cases hcut
        | cons b front => exact hstarts
    · exact ih hfront.2 h

/-- Characters of addresses, at least one. -/
def IsRun (run : List Char) : Prop := run ≠ [] ∧ ∀ c ∈ run, isAddressChar c = true

theorem at_not_mem (h : ∀ c ∈ run, isAddressChar c = true) : '@' ∉ run := fun hat => by
  have := h '@' hat
  revert this
  decide

theorem exposed_of_runs {name host : List Char} (hname : IsRun name) (hhost : IsRun host) :
    Exposed (front ++ (name ++ '@' :: (host ++ rest))) := by
  obtain ⟨b, back, rfl⟩ := List.exists_cons_of_ne_nil hhost.1
  obtain ⟨start, a, rfl⟩ : ∃ start a, name = start ++ [a] :=
    ⟨name.dropLast, name.getLast hname.1, (List.dropLast_concat_getLast hname.1).symm⟩
  exact ⟨front ++ start, a, b, back ++ rest, by simp, hname.2 a (by simp), hhost.2 b List.mem_cons_self⟩

/-- A run, a character that is none of it, and a rest that it opens no address with. -/
theorem hidden_behind (hrun : ∀ c ∈ run, isAddressChar c = true) (hc : isAddressChar c = false)
    (apart : c = '@' → run = [] ∨ startsRun rest = false) (hrest : ¬Exposed rest) : ¬Exposed (run ++ c :: rest) := by
  by_cases hat : c = '@'
  · subst hat
    have hlone : ¬Exposed ('@' :: rest) := by
      rw [exposed_cons, hc]
      rintro (⟨⟨⟩, -⟩ | h)
      exact hrest h
    induction run with
    | nil => exact hlone
    | cons x run ih =>
      rw [List.forall_mem_cons] at hrun
      have hstarts : startsRun rest = false := (apart rfl).resolve_left (List.cons_ne_nil _ _)
      rw [List.cons_append, exposed_cons]
      rintro (⟨-, more, hmore, hmoreStarts⟩ | h)
      · cases run with
        | nil =>
          cases hmore
          rw [hstarts] at hmoreStarts
          cases hmoreStarts
        | cons y run =>
          cases hmore
          exact at_not_mem hrun.2 List.mem_cons_self
      · exact ih hrun.2 (fun _ => .inr hstarts) h
  · exact hidden_seam (not_exposed_of_not_mem (at_not_mem hrun)) hrest hc hat

/-! ## Runs -/

/-- A text is one run throughout, or there is a first character that cuts it. -/
theorem run_or_cut (text : List Char) : (∀ c ∈ text, isAddressChar c = true) ∨
    ∃ run c rest, text = run ++ c :: rest ∧ (∀ c ∈ run, isAddressChar c = true) ∧ isAddressChar c = false := by
  induction text with
  | nil => exact .inl fun c hc => absurd hc List.not_mem_nil
  | cons c text ih =>
    cases hc : isAddressChar c with
    | false => exact .inr ⟨[], c, text, rfl, fun c hc => absurd hc List.not_mem_nil, hc⟩
    | true =>
      rcases ih with hrun | ⟨run, d, rest, rfl, hrun, hd⟩
      · exact .inl (List.forall_mem_cons.mpr ⟨hc, hrun⟩)
      · exact .inr ⟨c :: run, d, rest, rfl, List.forall_mem_cons.mpr ⟨hc, hrun⟩, hd⟩

/-- A run that a text starts with has an end. -/
theorem exists_host (h : startsRun text = true) :
    ∃ host behind, text = host ++ behind ∧ IsRun host ∧ startsRun behind = false := by
  rcases run_or_cut text with hrun | ⟨run, c, rest, rfl, hrun, hc⟩
  · refine ⟨text, [], (List.append_nil text).symm, ⟨?_, hrun⟩, rfl⟩
    rintro rfl
    cases h
  · refine ⟨run, c :: rest, rfl, ⟨?_, hrun⟩, hc⟩
    rintro rfl
    have hstarts : isAddressChar c = true := h
    rw [hc] at hstarts
    cases hstarts

theorem redactFrom_behindRun (hrun : ∀ c ∈ run, isAddressChar c = true) (text : List Char) :
    redactFrom (.behindRun run) text = redactChars (run.reverse ++ text) := by
  induction run generalizing text with
  | nil => rfl
  | cons c run ih =>
    rw [List.forall_mem_cons] at hrun
    rw [List.reverse_cons, List.append_assoc, List.singleton_append, ← ih hrun.2, redactFrom_behindRun_cons, if_pos hrun.1]

theorem redactChars_append (hrun : ∀ c ∈ run, isAddressChar c = true) (text : List Char) :
    redactChars (run ++ text) = redactFrom (.behindRun run.reverse) text := by
  rw [redactFrom_behindRun fun c hc => hrun c (List.mem_reverse.mp hc), List.reverse_reverse]

theorem redactFrom_inAddress (text : List Char) :
    redactFrom .inAddress text = redactChars (text.dropWhile isAddressChar) := by
  induction text with
  | nil => rfl
  | cons c text ih =>
    rw [redactFrom_inAddress_cons]
    cases hc : isAddressChar c with
    | true => rw [if_pos rfl, ih, List.dropWhile_cons_of_pos hc]
    | false =>
      have hlone : redactChars (c :: text) = c :: redactChars text := by
        simp [redactChars, redactFrom_behindRun_cons, hc]
      rw [if_neg Bool.false_ne_true, List.dropWhile_cons_of_neg (by simp [hc]), hlone]
      rfl

theorem redactChars_run (hrun : ∀ c ∈ run, isAddressChar c = true) : redactChars run = run := by
  have hend := redactChars_append hrun []
  rw [List.append_nil] at hend
  exact hend.trans (List.reverse_reverse run)

/-- Behind a run that is no address, the reading begins anew. -/
theorem redactChars_plain (hrun : ∀ c ∈ run, isAddressChar c = true) (hc : isAddressChar c = false)
    (apart : c = '@' → run = [] ∨ startsRun rest = false) :
    redactChars (run ++ c :: rest) = run ++ c :: redactChars rest := by
  have hno : (decide (c = '@') && !run.reverse.isEmpty && startsRun rest) = false := by
    by_cases hat : c = '@'
    · rcases apart hat with rfl | hstarts
      · simp
      · simp [hstarts]
    · simp [hat]
  rw [redactChars_append hrun, redactFrom_behindRun_cons, hc, hno, List.reverse_reverse]
  rfl

/-- An address is replaced to its end. -/
theorem redactChars_address {name host : List Char} (hname : IsRun name) (hhost : IsRun host)
    (stops : startsRun rest = false) :
    redactChars (name ++ '@' :: (host ++ rest)) = mark ++ redactChars rest := by
  have hdrop : (host ++ rest).dropWhile isAddressChar = rest := by
    rw [List.dropWhile_append_of_pos hhost.2]
    cases rest with
    | nil => rfl
    | cons d rest => exact List.dropWhile_cons_of_neg (by simpa [startsRun] using stops)
  have hstarts : startsRun (host ++ rest) = true := by
    obtain ⟨b, back, rfl⟩ := List.exists_cons_of_ne_nil hhost.1
    exact hhost.2 b List.mem_cons_self
  have hyes : (decide ('@' = '@') && !name.reverse.isEmpty && startsRun (host ++ rest)) = true := by
    simp [hname.1, hstarts]
  rw [redactChars_append hname.2, redactFrom_behindRun_cons, if_neg (by decide), if_pos hyes, redactFrom_inAddress, hdrop]

/-! ## Redaction -/

/-- What a text becomes whose leftmost addresses, each as long as it can be, are replaced one after the other: in front
of the one that is replaced next nothing is exposed, and no run that it is part of. -/
inductive Redacts : List Char → List Char → Prop
  | hidden {text : List Char} : ¬Exposed text → Redacts text text
  | address {front name host rest shown : List Char} : ¬Exposed (front ++ name) → startsRun front.reverse = false →
      IsRun name → IsRun host → startsRun rest = false → Redacts rest shown →
      Redacts (front ++ (name ++ '@' :: (host ++ rest))) (front ++ (mark ++ shown))

theorem startsRun_append (h : front ≠ []) : startsRun (front ++ rest) = startsRun front := by
  cases front with
  | nil => exact absurd rfl h
  | cons c front => rfl

/-- What is redacted behind a run that is no address is redacted together with it. -/
theorem Redacts.behind (h : Redacts rest shown) (hrun : ∀ c ∈ run, isAddressChar c = true)
    (hc : isAddressChar c = false) (apart : c = '@' → run = [] ∨ startsRun rest = false) :
    Redacts (run ++ c :: rest) (run ++ c :: shown) := by
  cases h with
  | hidden hrest => exact .hidden (hidden_behind hrun hc apart hrest)
  | @address front name host rest shown hfront hends hname hhost hstops hshown =>
    have hne : front ++ name ≠ [] := List.append_ne_nil_of_right_ne_nil _ hname.1
    rw [← List.append_assoc front, startsRun_append hne] at apart
    have hlast : startsRun (run ++ c :: front).reverse = false := by
      rw [List.reverse_append, List.reverse_cons, List.append_assoc]
      cases hrev : front.reverse with
      | nil => exact hc
      | cons x front' =>
        rw [hrev] at hends
        exact hends
    have hseam : ¬Exposed ((run ++ c :: front) ++ name) := by
      rw [List.append_assoc, List.cons_append]
      exact hidden_behind hrun hc apart hfront
    have hall := Redacts.address hseam hlast hname hhost hstops hshown
    rwa [List.append_assoc, List.cons_append, List.append_assoc, List.cons_append] at hall

/-- **Exactly the leftmost addresses are replaced.** -/
theorem redacts_redactChars (text : List Char) : Redacts text (redactChars text) := by
  -- on the length, as what stands behind a run or an address is shorter
  induction hlength : text.length using Nat.strongRecOn generalizing text with
  | ind n ih =>
    subst hlength
    rcases run_or_cut text with hrun | ⟨run, c, rest, rfl, hrun, hc⟩
    · rw [redactChars_run hrun]
      exact .hidden (not_exposed_of_not_mem (at_not_mem hrun))
    by_cases haddress : c = '@' ∧ run ≠ [] ∧ startsRun rest = true
    · obtain ⟨rfl, hname, hstarts⟩ := haddress
      obtain ⟨host, behind, rfl, hhost, hstops⟩ := exists_host hstarts
      rw [redactChars_address ⟨hname, hrun⟩ hhost hstops]
      have hfirst : ¬Exposed ([] ++ run) := not_exposed_of_not_mem (at_not_mem hrun)
      exact Redacts.address hfirst rfl ⟨hname, hrun⟩ hhost hstops
        (ih behind.length (by simp; omega) behind rfl)
    · have hapart : c = '@' → run = [] ∨ startsRun rest = false := fun hat => by
        by_cases hnone : run = []
        · exact .inl hnone
        · rw [← Bool.not_eq_true]
          exact .inr fun hstarts => haddress ⟨hat, hnone, hstarts⟩
      rw [redactChars_plain hrun hc hapart]
      exact (ih rest.length (by simp; omega) rest rfl).behind hrun hc hapart

/-- No address is left, and none is made where a mark was put in. -/
theorem Redacts.not_exposed (h : Redacts text shown) : ¬Exposed shown := by
  induction h with
  | hidden hidden => exact hidden
  | @address front name host rest shown hfront _ _ _ _ _ ih =>
    have hmark : ¬Exposed "redacted-email".toList := not_exposed_of_not_mem (by decide)
    have hbehind := hidden_seam hmark ih (c := ']') (by decide) (by decide)
    exact hidden_seam (fun h => hfront (exposed_append_left h)) hbehind (c := '[') (by decide) (by decide)

theorem Redacts.eq_of_hidden (h : Redacts text shown) (hidden : ¬Exposed text) : shown = text := by
  cases h with
  | hidden => rfl
  | address _ _ hname hhost => exact absurd (exposed_of_runs hname hhost) hidden

theorem redactChars_again (text : List Char) : redactChars (redactChars text) = redactChars text :=
  (redacts_redactChars _).eq_of_hidden (redacts_redactChars text).not_exposed

/-! ## Previews -/

/-- What stands behind a preview that so many characters were cut from. -/
def cutMarker (n : Nat) : List Char := if n = 0 then [] else "...(+".toList ++ writeDigits n ++ " chars)".toList

theorem preview_eq (limit : Nat) (v : Json) :
    (preview limit v).toList = (redactChars (logText v)).take limit ++
      cutMarker ((redactChars (logText v)).drop limit).length := by
  unfold preview
  dsimp only
  generalize redactChars (logText v) = text
  split
  · rename_i hlong
    have hcount : (text.length : Int) - limit = ((text.length - limit : Nat) : Int) := by omega
    have hnone : ¬((limit : Int) < 0) := by omega
    have hpos : text.length - limit ≠ 0 := by omega
    have hwrite : writeInt ((text.length - limit : Nat) : Int) = writeDigits (text.length - limit) :=
      if_neg (by omega)
    rw [String.toList_ofList, hcount, hwrite, cut, if_neg hnone, Int.toNat_natCast, cutMarker, List.length_drop,
      if_neg hpos, List.append_assoc, List.append_assoc, List.append_assoc]
  · rename_i hshort
    have hle : text.length ≤ limit := by omega
    rw [String.toList_ofList, List.take_of_length_le hle, List.drop_eq_nil_of_le hle]
    exact (List.append_nil text).symm

/-- **A log exposes no address**, in a redacted text and in a preview of whatever length; nothing but addresses is
replaced, and a preview says how much of the redacted text it leaves out. -/
theorem logs_hide_addresses :
    (∀ s : String, Redacts s.toList (redact s).toList ∧ ¬Exposed (redact s).toList ∧ redact (redact s) = redact s) ∧
    ∀ (limit : Nat) (v : Json), ∃ shown left : List Char, redactChars (logText v) = shown ++ left ∧
      (preview limit v).toList = shown ++ cutMarker left.length ∧
      shown.length ≤ limit ∧ (left = [] ∨ shown.length = limit) ∧ ¬Exposed shown := by
  refine ⟨fun s => ?_, fun limit v => ?_⟩
  · have hredacts := redacts_redactChars s.toList
    simp only [redact, String.toList_ofList]
    exact ⟨hredacts, hredacts.not_exposed, by rw [redactChars_again]⟩
  · have hhidden := (redacts_redactChars (logText v)).not_exposed
    refine ⟨_, _, (List.take_append_drop limit _).symm, preview_eq limit v, List.length_take_le .., ?_,
      fun h => hhidden ?_⟩
    · rw [List.drop_eq_nil_iff, List.length_take]
      omega
    · rw [← List.take_append_drop limit (redactChars (logText v))]
      exact exposed_append_left h

end Redaction

end JsonMend
