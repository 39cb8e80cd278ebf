import JsonMend.Proofs.Draft7.Dialect
import JsonMend.Proofs.Report.Pairing
import JsonMend.Proofs.Pointer.Split
/-
  Each finding about something missing names what its violation is about, as long as all schemas are of draft-07.

  1. **One step** (`Primed.advance`) — under each pair of pointers there is queued what the violations still to
     come with these pointers are about, in turn; taking the first keeps it so.
  2. **A whole report** (`shown_of_paired`) — by induction on the violations: each of them takes the parameters
     with its own name.
  3. **Pointers** (`Validator.paired_spots`) — pointers tell the violations of one judging apart as well as the
     texts of the steps do.  The root of a value and the place under its empty key are shown alike, but what
     one keyword of a schema misses, it misses at one depth.
  4. **What is missing** (`Validator.misses_of_found`) — a violation about something missing is about a name that
     the keyword asks for and that the object lacks.
-/
namespace JsonMend

open Outcome

variable {fuel : Nat} {validator : Validator} {v schema : Json} {y : Violation} {ys rest : List Violation}
  {found own : List Finding} {f : Finding} {rounds : Nat} {base : String}

namespace Report

/-! ## One step -/

/-- What is queued is what the violations to come are about. -/
def Primed (pending : Pending) (ys : List Violation) : Prop :=
  ∀ y ∈ ys, y.isMissing = true → queued pending y = (missingAt spot (spot y) ys).map Violation.named

theorem primed_of_paired (h : Paired spot ys) : Primed [] ys :=
  fun y hy hmissing => (h y hy hmissing).symm

variable {pending : Pending}

/-- The first that is queued for a violation names what it is about. -/
theorem Primed.head (h : Primed pending (y :: rest)) (missing : y.isMissing = true) :
    queued pending y = y.named :: (missingAt spot (spot y) rest).map Violation.named := by
  rw [h y List.mem_cons_self missing, missingAt, List.filter_cons, if_pos (by simp [missing])]
  rfl

theorem queued_cons (entry : String × String) (names : List Members) (y : Violation) :
    queued ((entry, names) :: pending) y = if spot y = entry then names else queued pending y := by
  unfold queued
  rw [List.lookup_cons]
  by_cases hentry : spot y = entry
  · rw [if_pos hentry, beq_iff_eq.mpr hentry]
    rfl
  · rw [if_neg hentry, beq_eq_false_iff_ne.mpr hentry]

/-- **Taking the first keeps the queues as they should be.** -/
theorem Primed.advance (h : Primed pending (y :: rest)) : Primed (advance pending y) rest := by
  intro z hz hmissing
  have hlater := h z (List.mem_cons_of_mem _ hz) hmissing
  rw [missingAt, List.filter_cons] at hlater
  unfold Report.advance
  cases hy : y.complaint.isMissing with
  | false =>
    rw [Violation.isMissing, hy, Bool.false_and, if_neg Bool.false_ne_true] at hlater
    rw [if_neg Bool.false_ne_true]
    exact hlater
  | true =>
    rw [if_pos rfl, queued_cons, h.head hy, List.tail_cons]
    by_cases hsame : spot z = spot y
    · rw [if_pos hsame, hsame]
    · rw [if_neg hsame]
      rw [Violation.isMissing, hy, decide_eq_false (Ne.symm hsame), Bool.and_false,
        if_neg Bool.false_ne_true] at hlater
      exact hlater

/-! ## A whole report -/

/-- For a violation about nothing missing it does not matter what is next in turn. -/
theorem findings_next (h : y.isMissing = false) (next next' : Members) :
    findings validator fuel next y = findings validator fuel next' y := by
  obtain ⟨complaint, value, place, schemaPlace⟩ := y
  cases complaint with
  | missingProperty | missingDependency => cases h
  | nothingAllowed | wrongType | notInEnum | notConst | outOfBounds | notMultiple | wrongCount
  | repeatedItems | patternUnmatched | formatUnmet | undeclared | surplusItems | nothingContained
  | noneOfAny | noneOfOne | noBranches | severalOfOne | forbidden | notBeyond | notDivisible | disallowed => rfl

theorem shown_of_primed (primed : Primed pending ys) (h : allFindings validator fuel pending ys = .ok found) :
    Shown (fun y own => findings validator fuel y.named y = .ok own) ys found := by
  induction ys generalizing pending found with
  | nil =>
    cases h
    exact .nil
  | cons y rest ih =>
    obtain ⟨own, others, hown, hothers, rfl⟩ := allFindings_cons h
    refine .cons ?_ (ih primed.advance hothers)
    cases hmissing : y.isMissing with
    | false => rwa [findings_next hmissing]
    | true =>
      rw [primed.head hmissing] at hown
      exact hown

/-- **Where what is found under a pair of pointers is paired, each violation takes its own name.** -/
theorem shown_of_paired (paired : Paired spot ys) (h : allFindings validator fuel [] ys = .ok found) :
    Shown (fun y own => findings validator fuel y.named y = .ok own) ys found :=
  shown_of_primed (primed_of_paired paired) h

end Report

/-! ## Pointers -/

namespace Validator

/-- What a judging finds under a pair of pointers is paired, where no draft is known. -/
theorem paired_spots_of_native (native : validator.drafts = []) (registry : validator.registry.Distinct) (hv : v.Distinct)
    (sound : (validator.judge v).fault? = none) : Paired Report.spot (validator.judge v).violations := by
  have hpaired := (judgeWith_pairs native registry (validator.fuelFor v)).paired registry.root hv sound
  refine Paired.of_key hpaired fun y hy z hz hmissing hmissing' => ?_
  constructor
  · intro hspot
    obtain ⟨hpath, hschemaPath⟩ := Prod.mk.inj hspot
    have hschemaTexts := Pointer.texts_of_schemaFragment hschemaPath
    have hlength := place_length_eq native registry registry.root sound sound hz hy hmissing' hmissing hschemaTexts
    exact Prod.ext (Pointer.texts_of_ofPosition hlength hpath) hschemaTexts
  · intro htexts
    obtain ⟨hplace, hschemaPlace⟩ := Prod.mk.inj htexts
    unfold Report.spot Pointer.ofPosition Pointer.schemaFragment
    rw [hplace, hschemaPlace]

/-- **What a judging finds under a pair of pointers is paired**, in one dialect. -/
theorem paired_spots (home : validator.registry.StaysHome validator.registry.rootPlace)
    (registry : validator.registry.Distinct) (hv : v.Distinct) (sound : (validator.judge v).fault? = none) :
    Paired Report.spot (validator.judge v).violations := by
  have hsame := judge_native_eq home sound
  rw [← hsame] at sound ⊢
  exact paired_spots_of_native validator.native_drafts registry hv sound

/-- **In a report each finding about something missing names what its violation is about.** -/
theorem report_named (home : validator.registry.StaysHome validator.registry.rootPlace)
    (registry : validator.registry.Distinct) (hv : v.Distinct) (h : validator.report v = .ok found) :
    Report.Shown (fun y own => Report.findings validator (validator.fuelFor v) y.named y = .ok own)
      (validator.judge v).violations found := by
  obtain ⟨sound, hall⟩ := report_eq_ok h
  exact Report.shown_of_paired (paired_spots home registry hv sound) hall

end Validator

/-! ## What is missing -/

theorem Report.eq_findingOf_of_missing {next : Members} (missing : y.isMissing = true)
    (hown : Report.findings validator fuel next y = .ok own) (hf : f ∈ own) :
    f = Report.findingOf y y.message next := by
  rw [Report.findings_of_missing missing, Except.ok.injEq] at hown
  rw [← hown] at hf
  exact List.mem_singleton.mp hf

end JsonMend
