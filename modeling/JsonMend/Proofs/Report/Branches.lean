import JsonMend.Proofs.Draft7.Tracing
import JsonMend.Proofs.Draft7.Enough
import JsonMend.Proofs.Service.Explained
/-
  Which branches an error about `oneOf` names.

  The branches are judged where the `oneOf` stands, which is how it fails, and once more from the root, by draft-07,
  which is how a report finds out which of them accept the value.  Both agree where the `oneOf` is one of draft-07 and
  each branch either has the URI of the root around it and inside it or has no references.

  1. **What has failed** (`OneOfFailed`) — there are no branches, or each of them refuses the value, or one behind the
     first that accepts it does so as well; with the verdicts that this rests on (`Keyword.oneOf_failed`).
  2. **Counting the branches** (`Report.accepting_eq_ok`) — the places that are named ascend, and are those of the
     branches that accept the value.
  3. **One finding** (`Finding.Diagnoses`) — no branch is named exactly where there are branches and none accepts;
     otherwise those that accept, of which there are two at least.
  4. **Where both agree** (`Registry.Covers.agree`) — a verdict come to in place is come to from the root as well, so
     the branches can be placed (`Validator.placed_of_covered`); it is so at every `oneOf` where only the root has an
     identifier and all is in one dialect (`OneOfAt.covered`).
  5. **The result** (`Validator.report_diagnoses`).
-/
namespace JsonMend

open Outcome

variable {fuel rounds : Nat} {validator : Validator} {draft : Draft} {base : String} {branches : List Json}
  {v part : Json}

/-! ## What has failed -/

/-- How a `oneOf` fails on a value, where it stands, by verdicts that are come to in a number of rounds. -/
inductive OneOfFailed (validator : Validator) (rounds : Nat) (draft : Draft) (base : String) (branches : List Json)
    (v : Json) : Complaint → Prop
  | empty (none : branches = []) : OneOfFailed validator rounds draft base branches v .noBranches
  | none (some : branches ≠ [])
      (refused : ∀ s ∈ branches, validator.VerdictIn rounds draft (baseInside base s) s v false) :
      OneOfFailed validator rounds draft base branches v .noneOfOne
  | several {before first rest more} (split : branches = before ++ first :: rest)
      (refused : ∀ s ∈ before, validator.VerdictIn rounds draft (baseInside base s) s v false)
      (accepted : validator.VerdictIn rounds draft (baseInside base first) first v true)
      (asked : ∀ s ∈ rest, ∃ accepted, validator.VerdictIn rounds draft base s v accepted)
      (again : ∃ s ∈ rest, validator.VerdictIn rounds draft base s v true) :
      OneOfFailed validator rounds draft base branches v (.severalOfOne branches more)

namespace Keyword

/-- What is asked of a branch when all its violations are found is a verdict. -/
theorem verdict_of_descend {s : Json} {accepted : Bool} (more : rounds < fuel)
    (h : ((validator.inside rounds draft).descend base s [] [] v).acceptsAfterAll = .ok accepted) :
    validator.VerdictIn fuel draft (baseInside base s) s v accepted := by
  by_cases hrefuses : s = .bool false
  · -- such a branch is refused without being entered, for which one round is enough
    subst hrefuses
    cases h
    have hone : validator.VerdictIn 1 draft (baseInside base (.bool false)) (.bool false) v false := rfl
    exact hone.of_le (Nat.succ_le_of_lt (Nat.zero_lt_of_lt more))
  · refine Validator.VerdictIn.of_le ?_ (Nat.le_of_lt more)
    rw [Judge.descend_of_ne hrefuses] at h
    unfold Validator.VerdictIn
    generalize validator.inside rounds draft (baseInside base s) s v = o at h ⊢
    obtain ⟨violations, fault?⟩ := o
    cases fault? with
    | some fault => cases h
    | none =>
      cases violations <;>
      · cases h
        rfl

/-- Where no branch accepts, each refuses the value; otherwise those before the first that accepts do. -/
theorem verdicts_of_firstAccepting {first? : Option (Json × List Json)} (more : rounds < fuel)
    (h : firstAccepting (validator.inside rounds draft) base v branches = .ok first?) :
    match first? with
    | none => ∀ s ∈ branches, validator.VerdictIn fuel draft (baseInside base s) s v false
    | some (first, rest) => ∃ before, branches = before ++ first :: rest ∧
        (∀ s ∈ before, validator.VerdictIn fuel draft (baseInside base s) s v false) ∧
        validator.VerdictIn fuel draft (baseInside base first) first v true := by
  induction branches with
  | nil =>
    cases h
    exact fun s hs => absurd hs List.not_mem_nil
  | cons s rest ih =>
    rw [firstAccepting] at h
    obtain ⟨accepted, haccepted, h⟩ := bind_eq_ok.mp h
    cases accepted with
    | true =>
      cases h
      exact ⟨[], rfl, fun s hs => absurd hs List.not_mem_nil, verdict_of_descend more haccepted⟩
    | false =>
      have hrest := ih h
      cases first? with
      | none => exact List.forall_mem_cons.mpr ⟨verdict_of_descend more haccepted, hrest⟩
      | some p =>
        obtain ⟨before, rfl, hbefore, hfirst⟩ := hrest
        exact ⟨s :: before, rfl, List.forall_mem_cons.mpr ⟨verdict_of_descend more haccepted, hbefore⟩, hfirst⟩

theorem asked_of_select {α : Type} {test : α → Except Fault Bool} {xs selected : List α}
    (h : select test xs = .ok selected) : ∀ x ∈ xs, ∃ chosen, test x = .ok chosen := by
  induction xs generalizing selected with
  | nil => exact fun x hx => absurd hx List.not_mem_nil
  | cons x rest ih =>
    rw [select] at h
    obtain ⟨chosen, hchosen, h⟩ := bind_eq_ok.mp h
    obtain ⟨others, hothers, -⟩ := bind_eq_ok.mp h
    exact List.forall_mem_cons.mpr ⟨⟨chosen, hchosen⟩, ih hothers⟩

/-- **How a `oneOf` has failed**, where it complains. -/
theorem oneOf_failed {c : Complaint} (more : rounds < fuel)
    (h : .here c v ∈ ((Keyword.oneOf branches).judge validator (validator.inside rounds draft) base v).violations) :
    OneOfFailed validator fuel draft base branches v c := by
  have hrounds : ∀ {s accepted}, (validator.inside rounds draft base s v).accepts = .ok accepted →
      validator.VerdictIn fuel draft base s v accepted :=
    fun hs => Validator.VerdictIn.of_le hs (Nat.le_of_lt more)
  rw [judge] at h
  cases hfirst : firstAccepting (validator.inside rounds draft) base v branches with
  | error fault =>
    rw [hfirst] at h
    cases h
  | ok first? =>
    have hverdicts := verdicts_of_firstAccepting more hfirst
    rw [hfirst] at h
    cases first? with
    | none =>
      cases List.mem_singleton.mp h
      cases branches with
      | nil => exact .empty rfl
      | cons s rest => exact .none (List.cons_ne_nil s rest) hverdicts
    | some p =>
      obtain ⟨first, rest⟩ := p
      obtain ⟨before, hsplit, hbefore, haccepted⟩ := hverdicts
      dsimp only [Outcome.ofExcept] at h
      cases hmore : select (fun s => (validator.inside rounds draft base s v).accepts) rest with
      | error fault =>
        rw [hmore] at h
        cases h
      | ok accepting =>
        rw [hmore] at h
        obtain ⟨hsome, heq⟩ := mem_require.mp h
        cases heq
        cases accepting with
        | nil => cases hsome
        | cons s others =>
          obtain ⟨hs, hagain⟩ := (mem_select hmore).mp List.mem_cons_self
          refine .several hsplit hbefore haccepted (fun s hs => ?_) ⟨s, hs, hrounds hagain⟩
          obtain ⟨accepted, haccepted⟩ := asked_of_select hmore s hs
          exact ⟨accepted, hrounds haccepted⟩

end Keyword

/-! ## Counting the branches -/

namespace Report

variable {accepts : Json → Except Fault Bool} {start : Nat} {places : List Nat}

/-- **The places that are named ascend, and are those of the branches that accept the value.** -/
theorem accepting_eq_ok (h : accepting accepts start branches = .ok places) :
    places.Pairwise (· < ·) ∧ (∀ s ∈ branches, ∃ accepted, accepts s = .ok accepted) ∧
      ∀ i, i ∈ places ↔ start ≤ i ∧ ∃ s, branches[i - start]? = some s ∧ accepts s = .ok true := by
  induction branches generalizing start places with
  | nil =>
    cases h
    simp
  | cons s rest ih =>
    rw [accepting] at h
    obtain ⟨accepted, haccepted, h⟩ := bind_eq_ok.mp h
    obtain ⟨others, hothers, h⟩ := bind_eq_ok.mp h
    obtain ⟨hascend, hasked, hothers⟩ := ih hothers
    have hbehind : ∀ i ∈ others, start < i := fun i hi => ((hothers i).mp hi).1
    -- a place behind the first branch is one of the others
    have hplace : ∀ i, start < i → ((s :: rest)[i - start]? = rest[i - (start + 1)]?) := by
      intro i hi
      rw [show i - start = (i - (start + 1)) + 1 by omega, List.getElem?_cons_succ]
    have hrest : ∀ i, start < i → (i ∈ others ↔
        start ≤ i ∧ ∃ x, (s :: rest)[i - start]? = some x ∧ accepts x = .ok true) := by
      intro i hi
      rw [hothers, hplace i hi]
      exact and_congr_left fun _ => ⟨fun _ => Nat.le_of_lt hi, fun _ => hi⟩
    have hfirst : (∃ x, (s :: rest)[start - start]? = some x ∧ accepts x = .ok true) ↔ accepted = true := by
      rw [Nat.sub_self, List.getElem?_cons_zero]
      constructor
      · rintro ⟨x, ⟨⟩, hx⟩
        exact Except.ok.inj (haccepted.symm.trans hx)
      · rintro rfl
        exact ⟨s, rfl, haccepted⟩
    cases h
    refine ⟨?_, List.forall_mem_cons.mpr ⟨⟨accepted, haccepted⟩, hasked⟩, fun i => ?_⟩
    · split
      · exact List.pairwise_cons.mpr ⟨hbehind, hascend⟩
      · exact hascend
    · rcases Nat.lt_trichotomy i start with hi | rfl | hi
      · refine iff_of_false (fun hmem => ?_) fun hmem => absurd hmem.1 (Nat.not_le_of_lt hi)
        split at hmem
        · rcases List.mem_cons.mp hmem with rfl | hmem
          · exact Nat.lt_irrefl _ hi
          · exact Nat.lt_asymm hi (hbehind i hmem)
        · exact Nat.lt_asymm hi (hbehind i hmem)
      · rw [hfirst]
        have hnot : i ∉ others := fun hmem => Nat.lt_irrefl _ (hbehind i hmem)
        split <;> simp_all
      · rw [← hrest i hi]
        split
        · rw [List.mem_cons, or_iff_right (Nat.ne_of_gt hi)]
        · rfl

theorem accepting_ok (h : ∀ s ∈ branches, ∃ accepted, accepts s = .ok accepted) :
    ∃ places, accepting accepts start branches = .ok places := by
  induction branches generalizing start with
  | nil => exact ⟨[], rfl⟩
  | cons s rest ih =>
    obtain ⟨⟨accepted, hs⟩, hrest⟩ := List.forall_mem_cons.mp h
    obtain ⟨others, hothers⟩ : ∃ others, accepting accepts (start + 1) rest = .ok others := ih hrest
    refine ⟨if accepted then start :: others else others, ?_⟩
    rw [accepting, hs, hothers]
    rfl

end Report

/-! ## One finding -/

/-- A `oneOf` to which the judging of a value leads, with the draft and the URI that hold there, its branches and the
part of the value that they judge. -/
inductive OneOfAt (validator : Validator) (v : Json) (place schemaPlace : Position) :
    Draft → String → List Json → Json → Prop
  | intro {rounds draft base members branches part}
      (way : Way validator (validator.stand v) place schemaPlace ⟨rounds, draft, base, .obj members, part⟩)
      (mem : ("oneOf", .arr branches) ∈ Keyword.applicable members)
      (read : Rule.ofMember draft members "oneOf" (.arr branches) = .ok (some (.shared (.oneOf branches)))) :
      OneOfAt validator v place schemaPlace draft base branches part

/-- The branches of a `oneOf` are judged alike in place and from the root: by draft-07, and each of them either under
the URI of the root or without references. -/
structure Registry.Covers (r : Registry) (draft : Draft) (base : String) (branches : List Json) : Prop where
  home : draft = .draft7
  branches : ∀ s ∈ branches, (base = r.rootUri ∧ baseInside base s = r.rootUri) ∨ s.ReferenceFree

/-- A finding says which branches of a `oneOf` accept a value.  No branch is named exactly where there are branches and
none accepts, where the `oneOf` stands; without branches the list is empty.  The list is right if the branches are judged
alike in place and from the root. -/
structure Finding.Diagnoses (f : Finding) (validator : Validator) (draft : Draft) (base : String)
    (branches : List Json) (part : Json) : Prop where
  none : f.params = [("passingSchemas", .null)] ↔
    branches ≠ [] ∧ ∀ s ∈ branches, ¬ validator.AcceptsAt draft (baseInside base s) s part
  empty : branches = [] → f.params = [("passingSchemas", .arr [])]
  several : validator.registry.Covers draft base branches →
    (∃ s ∈ branches, validator.AcceptsAt draft (baseInside base s) s part) →
    ∃ places : List Nat, f.params = [("passingSchemas", .arr (places.map fun (i : Nat) => .num (.int i)))] ∧
      places.Pairwise (· < ·) ∧ 2 ≤ places.length ∧
      ∀ i, i ∈ places ↔ ∃ s, branches[i]? = some s ∧ validator.AcceptsAt draft (baseInside base s) s part

/-- **A verdict on a branch stands around the branch, inside it and from the root alike.** -/
theorem Registry.Covers.agree {s : Json} {uri uri' : String} {accepted : Bool}
    (h : validator.registry.Covers draft base branches) (hs : s ∈ branches)
    (huri : uri ∈ [base, baseInside base s, validator.registry.rootUri])
    (huri' : uri' ∈ [base, baseInside base s, validator.registry.rootUri])
    (verdict : validator.VerdictIn rounds draft uri s v accepted) :
    validator.VerdictIn rounds draft uri' s v accepted := by
  rcases h.branches s hs with ⟨hbase, hinside⟩ | hfree
  · have hroot : ∀ x ∈ [base, baseInside base s, validator.registry.rootUri], x = validator.registry.rootUri := by
      simp only [List.forall_mem_cons, hinside]
      simp [hbase]
    rw [hroot uri huri] at verdict
    rw [hroot uri' huri']
    exact verdict
  · exact verdict.rebase hfree

section
variable {y : Violation} {f : Finding} {own found : List Finding} {next : Members}

/-- Two places make a list of two at least. -/
theorem two_le_length {i j : Nat} {places : List Nat} (hi : i ∈ places) (hj : j ∈ places) (hij : i < j) :
    2 ≤ places.length := by
  match places with
  | [] => cases hi
  | [k] =>
    cases List.mem_singleton.mp hi
    cases List.mem_singleton.mp hj
    exact absurd hij (Nat.lt_irrefl _)
  | _ :: _ :: rest => exact Nat.le_add_left 2 rest.length

/-- **The places found from the root are those of the branches that accept in place.** -/
theorem Registry.Covers.mem_places {places : List Nat} (covers : validator.registry.Covers draft base branches)
    (h : Report.accepting (fun s => (validator.judgeInner fuel s part).accepts) 0 branches = .ok places) (i : Nat) :
    i ∈ places ↔ ∃ s, branches[i]? = some s ∧ validator.AcceptsAt draft (baseInside base s) s part := by
  obtain ⟨-, hasked, hmem⟩ := Report.accepting_eq_ok h
  rw [hmem, and_iff_right (Nat.zero_le i), Nat.sub_zero]
  refine exists_congr fun s => and_congr_right fun hs => ?_
  have hbranch := List.mem_of_getElem? hs
  obtain ⟨accepted, hanswer⟩ := hasked s hbranch
  have hroot : validator.VerdictIn fuel draft validator.registry.rootUri s part accepted := by
    rw [covers.home]
    exact hanswer
  have hplace : validator.VerdictIn fuel draft (baseInside base s) s part accepted :=
    covers.agree hbranch (by simp) (by simp) hroot
  rw [hanswer, Except.ok.injEq]
  exact hplace.verdictAt.acceptsAt_iff.symm

/-- How a `oneOf` has failed does not fit a complaint of another keyword. -/
theorem OneOfFailed.keyword (h : OneOfFailed validator rounds draft base branches v y.complaint) :
    ∀ extras declared patterns, y.complaint ≠ .undeclared extras declared patterns := by
  intro extras declared patterns heq
  rw [heq] at h
  cases h

/-- **The finding of a `oneOf` that has failed diagnoses it.** -/
theorem OneOfFailed.diagnoses (h : OneOfFailed validator rounds draft base branches y.value y.complaint)
    (hown : Report.findings validator fuel next y = .ok own) (hf : f ∈ own) :
    f.Diagnoses validator draft base branches y.value := by
  rw [Report.findings_of_other h.keyword] at hown
  obtain ⟨ps, hps, rfl⟩ := map_eq_ok.mp hown
  have hparams : f.params = ps := by
    rw [List.mem_singleton.mp hf]
    rfl
  generalize y.complaint = c at h hps
  cases h with
  | empty hnone =>
    cases hps
    subst hnone
    exact ⟨by simp [hparams], fun _ => hparams, fun _ ⟨s, hs, _⟩ => absurd hs List.not_mem_nil⟩
  | none hsome hrefused =>
    cases hps
    have hnone : ∀ s ∈ branches, ¬ validator.AcceptsAt draft (baseInside base s) s y.value :=
      fun s hs haccepts => Bool.noConfusion (haccepts.unique (hrefused s hs).verdictAt)
    refine ⟨iff_of_true hparams ⟨hsome, hnone⟩, fun hnil => absurd hnil hsome, ?_⟩
    rintro - ⟨s, hs, haccepts⟩
    exact absurd haccepts (hnone s hs)
  | @several before first rest more hsplit _ haccepted _ hagain =>
    obtain ⟨places, hplaces, hps⟩ := bind_eq_ok.mp hps
    cases hps
    have hfirst : first ∈ branches := by
      rw [hsplit]
      exact List.mem_append_right _ List.mem_cons_self
    refine ⟨iff_of_false ?_ fun h => h.2 first hfirst haccepted.verdictAt, fun hnil => ?_, fun covers _ =>
      ⟨places, hparams, (Report.accepting_eq_ok hplaces).1, ?_, covers.mem_places hplaces⟩⟩
    · rw [hparams]
      rintro ⟨⟩
    · rw [hnil] at hfirst
      cases hfirst
    · -- the first branch that accepts, and one behind it
      obtain ⟨s, hs, hagain⟩ := hagain
      obtain ⟨k, hk⟩ := List.mem_iff_getElem?.mp hs
      have hrest : branches[before.length + (k + 1)]? = some s := by
        rw [hsplit, List.getElem?_append_right (Nat.le_add_right _ _), Nat.add_sub_cancel_left,
          List.getElem?_cons_succ]
        exact hk
      have hbefore : branches[before.length]? = some first := by
        rw [hsplit, List.getElem?_append_right (Nat.le_refl _), Nat.sub_self, List.getElem?_cons_zero]
      have hinside : validator.VerdictIn rounds draft (baseInside base s) s y.value true :=
        covers.agree (List.mem_of_getElem? hrest) (by simp) (by simp) hagain
      exact two_le_length ((covers.mem_places hplaces _).mpr ⟨first, hbefore, haccepted.verdictAt⟩)
        ((covers.mem_places hplaces _).mpr ⟨s, hrest, hinside.verdictAt⟩) (Nat.lt_add_of_pos_right (Nat.succ_pos k))

/-- A violation of `oneOf` stands where a `oneOf` has failed, in the rounds that judging the whole value has. -/
theorem oneOf_of_found (completes : (validator.judge v).fault? = none) (hy : y ∈ (validator.judge v).violations)
    (keyword : y.keyword = "oneOf") : ∃ above draft base branches, y.schemaPlace = above ++ [.key "oneOf"] ∧
      OneOfAt validator v y.place above draft base branches y.value ∧
      OneOfFailed validator (validator.fuelFor v) draft base branches y.value y.complaint := by
  have hown : y.complaint ≠ .nothingAllowed ∧ y.complaint.isPeculiar = false := by
    unfold Violation.keyword at keyword
    cases hcomplaint : y.complaint <;> simp_all [Complaint.keyword, Complaint.isPeculiar]
  obtain ⟨way, -, hmem, hread, hplace, hfound⟩ := (located_of_found completes hy).foundAt hown.1 hown.2
  rw [keyword] at hmem hread hplace
  obtain ⟨schemas, hschemas, hk⟩ :=
    Option.map_eq_some_iff.mp (Keyword.read?_of_ofMember (Rule.keyword_of_ofMember hread))
  cases hk
  cases Json.eq_arr_of_items? hschemas
  exact ⟨_, _, _, _, hplace, ⟨way, hmem, hread⟩, Keyword.oneOf_failed way.rounds_le hfound⟩

end

/-! ## Where both agree -/

section
variable {place schemaPlace : Position} {formats : Bool} {schema : Json} {y : Violation}

/-- A document that is known beforehand has no `oneOf`. -/
theorem Validator.knownDocuments_plain : ∀ p ∈ Validator.knownDocuments,
    identifier? p.2 = some p.1 ∧ ∀ s ∈ p.2.parts, s.Distinct ∧ (s.get? "oneOf").bind Json.items? = none := by
  decide +kernel

/-- **The branches of every `oneOf` are judged alike in place and from the root**, where only the root has an identifier
and all is in one dialect. -/
theorem OneOfAt.covered (named : schema.NamedOnce)
    (dialect : (Validator.ofSchema formats schema).registry.OneDialect)
    (h : OneOfAt (Validator.ofSchema formats schema) v place schemaPlace draft base branches part) :
    (Validator.ofSchema formats schema).registry.Covers draft base branches := by
  obtain ⟨way, hmem, -⟩ := h
  have hclosed := named.closed fun p hp =>
    ⟨(Validator.knownDocuments_plain p hp).1, Validator.knownDocuments_unnamed p hp⟩
  refine ⟨(way.reaches rfl dialect.schemas).1, fun s hs => .inl ?_⟩
  have hmember := Validator.mem_of_applicable hmem
  rcases way.stands hclosed (.inl ⟨_, List.mem_cons_self, Json.self_mem_parts _⟩) with hstands | ⟨c, hc⟩
  · obtain ⟨document, hheld, hpart⟩ := hstands
    rcases List.mem_cons.mp hheld with heq | hknown
    · cases heq
      refine ⟨rfl, Registry.baseInside_of_none (named.inside s ?_)⟩
      have hinner := Json.innerParts_trans (Json.member_mem_innerParts hmember)
        (Json.mem_parts_of_inner (Json.item_mem_innerParts hs))
      rcases List.mem_cons.mp hpart with heq | hpart
      · have hroot : Json.obj _ = schema := heq
        rw [← hroot]
        exact hinner
      · exact Json.innerParts_trans hpart (Json.mem_parts_of_inner hinner)
    · obtain ⟨hdistinct, hget⟩ := (Validator.knownDocuments_plain _ hknown).2 _ hpart
      rw [Json.get?, lookup_of_mem hdistinct.keys hmember] at hget
      cases hget
  · cases hc

/-- **The branches of a `oneOf` that has failed can be placed**, where they are judged alike in place and from the
root. -/
theorem Validator.placed_of_covered
    (covered : ∀ place above draft base branches part, OneOfAt validator v place above draft base branches part →
      validator.registry.Covers draft base branches)
    (completes : (validator.judge v).fault? = none) (hy : y ∈ (validator.judge v).violations) :
    Report.Placed validator (validator.fuelFor v) y := by
  intro branches accepted hcomplaint
  obtain ⟨above, draft, base, schemas, -, hat, hfailed⟩ :=
    oneOf_of_found completes hy (by rw [Violation.keyword, hcomplaint]; rfl)
  rw [hcomplaint] at hfailed
  have hcovers := covered _ _ _ _ _ _ hat
  refine Report.accepting_ok fun s hs => ?_
  cases hfailed with
  | @several before first rest _ hsplit hrefused haccepted hasked _ =>
    -- each branch has a verdict where the `oneOf` stands
    obtain ⟨uri, huri, verdict, hverdict⟩ : ∃ uri ∈ [base, baseInside base s, validator.registry.rootUri],
        ∃ verdict, validator.VerdictIn (validator.fuelFor v) draft uri s y.value verdict := by
      have hbranch := hs
      rw [hsplit, List.mem_append, List.mem_cons] at hbranch
      rcases hbranch with hbefore | rfl | hrest
      · exact ⟨_, by simp, false, hrefused s hbefore⟩
      · exact ⟨_, by simp, true, haccepted⟩
      · exact ⟨base, by simp, hasked s hrest⟩
    have hroot : validator.VerdictIn (validator.fuelFor v) draft validator.registry.rootUri s y.value verdict :=
      hcovers.agree hs huri (by simp) hverdict
    rw [hcovers.home] at hroot
    exact ⟨verdict, hroot⟩

end

/-! ## The result -/

/-- **What a report says about `oneOf`.**  For a schema that the compiler accepts and a value on which the judging
completes, each error about `oneOf` diagnoses a `oneOf` to which the judging leads.  The report completes as well if
the branches of every such `oneOf` are judged alike in place and from the root, which is so where only the root of the
schema has an identifier and all is in one dialect. -/
theorem Validator.report_diagnoses {formats : Bool} {schema : Json}
    (compiled : Validator.compile formats schema = .ok validator)
    (completes : (validator.judge v).fault? = none) :
    (∀ found, validator.report v = .ok found → ∀ f ∈ found, f.keyword = "oneOf" →
      ∃ place above draft base branches part, f.path = Pointer.ofPosition place ∧
        f.schemaPath = Pointer.schemaFragment (above ++ [.key "oneOf"]) ∧
        OneOfAt validator v place above draft base branches part ∧
        f.Diagnoses validator draft base branches part) ∧
    ((∀ place above draft base branches part, OneOfAt validator v place above draft base branches part →
        validator.registry.Covers draft base branches) → ∃ found, validator.report v = .ok found) ∧
    (schema.NamedOnce → validator.registry.OneDialect → (∃ found, validator.report v = .ok found) ∧
      ∀ place above draft base branches part, OneOfAt validator v place above draft base branches part →
        validator.registry.Covers draft base branches) := by
  obtain rfl := compile_eq_ok compiled
  have hcompletes : (∀ place above draft base branches part,
      OneOfAt (ofSchema formats schema) v place above draft base branches part →
        (ofSchema formats schema).registry.Covers draft base branches) →
      ∃ found, (ofSchema formats schema).report v = .ok found := fun hcovered =>
    (report_iff completes).mpr fun y hy => placed_of_covered hcovered completes hy
  refine ⟨fun found hreport f hf hkeyword => ?_, hcompletes, fun named dialect => ?_⟩
  · obtain ⟨-, hall⟩ := report_eq_ok hreport
    obtain ⟨y, hy, next, own, hown, hfown⟩ := Report.mem_allFindings hall hf
    have hshows := Report.shows_of_findings hown hfown
    obtain ⟨above, draft, base, branches, hplace, hat, hfailed⟩ :=
      oneOf_of_found completes hy (hshows.keyword.symm.trans hkeyword)
    refine ⟨y.place, above, draft, base, branches, y.value, hshows.path, ?_, hat, hfailed.diagnoses hown hfown⟩
    rw [hshows.schemaPath, hplace]
  · have hcovered : ∀ place above draft base branches part,
        OneOfAt (ofSchema formats schema) v place above draft base branches part →
        (ofSchema formats schema).registry.Covers draft base branches :=
      fun _ _ _ _ _ _ hat => hat.covered named dialect
    exact ⟨hcompletes hcovered, hcovered⟩

/-- A `oneOf` inside `items` inside `allOf`, with references into the definitions of a schema that has an identifier:
one item is accepted by two branches, one by none. -/
theorem Validator.report_diagnoses_of_two :
    let schema : Json := .obj [
      ("$id", .str "http://example.com/s"),
      ("definitions", .obj [("a", .obj [("type", .str "integer")]), ("b", .obj [("type", .str "number")])]),
      ("allOf", .arr [.obj [("items", .obj [("oneOf", .arr [.obj [("$ref", .str "#/definitions/a")],
        .obj [("type", .str "string")], .obj [("$ref", .str "#/definitions/b")]])])]])]
    let v : Json := .arr [.num (.int 5), .str "x", .null]
    let validator := Validator.ofSchema true schema
    Validator.compile true schema = .ok validator ∧ schema.NamedOnce ∧ validator.registry.OneDialect ∧ ∃ found,
      validator.report v = .ok found ∧
      found.map (fun f => (f.path, f.params)) = [
        ("/0", [("passingSchemas", .arr [.num (.int 0), .num (.int 2)])]),
        ("/2", [("passingSchemas", .null)])] ∧
      ∀ f ∈ found, f.keyword = "oneOf" ∧ ∃ place above draft base branches part, f.path = Pointer.ofPosition place ∧
        OneOfAt validator v place above draft base branches part ∧
        f.Diagnoses validator draft base branches part ∧ validator.registry.Covers draft base branches := by
  intro schema v validator
  have hcompiled : Validator.compile true schema = .ok validator := compile_of_isSome (by decide +kernel)
  have hcompletes : (validator.judge v).fault? = none := by decide +kernel
  have hnamed : schema.NamedOnce := by decide +kernel
  have hdialect : validator.registry.OneDialect := Registry.oneDialect_of_places 5 (by decide +kernel)
  obtain ⟨hdiagnoses, -, hplain⟩ := report_diagnoses hcompiled hcompletes
  obtain ⟨⟨found, hfound⟩, hcovered⟩ := hplain hnamed hdialect
  have hreport : (validator.report v).toOption.map (List.map fun f => (f.keyword, f.path, f.params)) = some [
      ("oneOf", "/0", [("passingSchemas", .arr [.num (.int 0), .num (.int 2)])]),
      ("oneOf", "/2", [("passingSchemas", .null)])] := by decide +kernel
  rw [hfound] at hreport
  have hshown := Option.some.inj hreport
  have hkeyword : ∀ f ∈ found, f.keyword = "oneOf" := by
    have hall : ∀ p ∈ found.map fun f => (f.keyword, f.path, f.params), p.1 = "oneOf" := by
      rw [hshown]
      simp
    exact List.forall_mem_map.mp hall
  refine ⟨hcompiled, hnamed, hdialect, found, hfound, ?_, fun f hf => ⟨hkeyword f hf, ?_⟩⟩
  · have hpairs := congrArg (List.map Prod.snd) hshown
    rwa [List.map_map] at hpairs
  · obtain ⟨place, above, draft, base, branches, part, hpath, -, hat, hsays⟩ :=
      hdiagnoses found hfound f hf (hkeyword f hf)
    exact ⟨place, above, draft, base, branches, part, hpath, hat, hsays, hcovered _ _ _ _ _ _ hat⟩

/-- Under an identifier of their own, branches without references are placed as well. -/
example :
    let validator := Validator.ofSchema true (.obj [("properties", .obj [("a", .obj [("$id", .str "http://example.com/s"),
      ("oneOf", .arr [.obj [("type", .str "integer")], .obj [("type", .str "string")], .obj []])])])])
    (validator.report (.obj [("a", .num (.int 5))])).toOption.map (·.map Finding.params) =
      some [[("passingSchemas", .arr [.num (.int 0), .num (.int 2)])]] := by decide +kernel

end JsonMend
