import JsonMend.Report
import JsonMend.Proofs.Draft7.Own
/-
  Findings and the violations that they show.

  1. **A report** (`report_eq_ok`) — a report that returns has met no fault, and its findings are those of all
     violations, one after another (`Shown`).  Which parameters are next in turn for a violation is left
     open here.
  2. **One violation** — each of its findings shows its place and its keyword (`shows_of_findings`), and most
     kinds of violation have exactly one.
  3. **One place** (`type_reported`, `undeclared_reported`) — what the shape at a place finds fault with is
     reported, where a schema judges the place.
-/
namespace JsonMend

variable {fuel : Nat} {validator : Validator} {v : Json} {y : Violation} {f : Finding} {found own : List Finding}
  {extras declared patterns : List String} {pending : Report.Pending} {next : Members}

/-- A finding shows where a violation is, and which keyword of which schema complains. -/
structure Finding.Shows (f : Finding) (y : Violation) : Prop where
  path : f.path = Pointer.ofPosition y.place
  keyword : f.keyword = y.keyword
  schemaPath : f.schemaPath = Pointer.schemaFragment y.schemaPlace

namespace Report

/-! ## A report -/

/-- The findings of several violations, one after another. -/
inductive Shown (render : Violation → List Finding → Prop) : List Violation → List Finding → Prop
  | nil : Shown render [] []
  | cons {ys y own others} (first : render y own) (rest : Shown render ys others) :
      Shown render (y :: ys) (own ++ others)

namespace Shown

variable {render other : Violation → List Finding → Prop} {ys : List Violation}

theorem imp (h : Shown render ys found) (weaken : ∀ y ∈ ys, ∀ own, render y own → other y own) :
    Shown other ys found := by
  induction h with
  | nil => exact .nil
  | cons first _ ih =>
    obtain ⟨hfirst, hrest⟩ := List.forall_mem_cons.mp weaken
    exact .cons (hfirst _ first) (ih hrest)

/-- Each finding shows one of the violations. -/
theorem mem (h : Shown render ys found) (hf : f ∈ found) : ∃ y ∈ ys, ∃ own, render y own ∧ f ∈ own := by
  induction h with
  | nil => cases hf
  | cons first _ ih =>
    rcases List.mem_append.mp hf with hf | hf
    · exact ⟨_, List.mem_cons_self, _, first, hf⟩
    · obtain ⟨y, hy, hfound⟩ := ih hf
      exact ⟨y, List.mem_cons_of_mem _ hy, hfound⟩

/-- Each violation is shown by findings, all of which are reported. -/
theorem of_mem (h : Shown render ys found) (hy : y ∈ ys) :
    ∃ own, render y own ∧ ∀ f ∈ own, f ∈ found := by
  induction h with
  | nil => cases hy
  | cons first _ ih =>
    rcases List.mem_cons.mp hy with rfl | hy
    · exact ⟨_, first, fun f hf => List.mem_append_left _ hf⟩
    · obtain ⟨own, hown, hmem⟩ := ih hy
      exact ⟨own, hown, fun f hf => List.mem_append_right _ (hmem f hf)⟩

end Shown

theorem allFindings_cons {rest : List Violation}
    (h : allFindings validator fuel pending (y :: rest) = .ok found) :
    ∃ own others, findings validator fuel ((queued pending y).headD []) y = .ok own ∧
      allFindings validator fuel (advance pending y) rest = .ok others ∧ found = own ++ others := by
  rw [allFindings] at h
  obtain ⟨own, hown, h⟩ := bind_eq_ok.mp h
  obtain ⟨others, hothers, h⟩ := bind_eq_ok.mp h
  cases h
  exact ⟨own, others, hown, hothers, rfl⟩

theorem shown_of_allFindings {violations : List Violation}
    (h : allFindings validator fuel pending violations = .ok found) :
    Shown (fun y own => ∃ next, findings validator fuel next y = .ok own) violations found := by
  induction violations generalizing found pending with
  | nil =>
    cases h
    exact .nil
  | cons y rest ih =>
    obtain ⟨own, others, hown, hothers, rfl⟩ := allFindings_cons h
    exact .cons ⟨_, hown⟩ (ih hothers)

/-- Each finding shows one of the violations. -/
theorem mem_allFindings {violations : List Violation}
    (h : allFindings validator fuel pending violations = .ok found) (hf : f ∈ found) :
    ∃ y ∈ violations, ∃ next own, findings validator fuel next y = .ok own ∧ f ∈ own := by
  obtain ⟨y, hy, own, ⟨next, hown⟩, hf⟩ := (shown_of_allFindings h).mem hf
  exact ⟨y, hy, next, own, hown, hf⟩

/-- Each violation is shown by findings, all of which are reported. -/
theorem findings_of_mem {violations : List Violation}
    (h : allFindings validator fuel pending violations = .ok found) (hy : y ∈ violations) :
    ∃ next own, findings validator fuel next y = .ok own ∧ ∀ f ∈ own, f ∈ found := by
  obtain ⟨own, ⟨next, hown⟩, hmem⟩ := (shown_of_allFindings h).of_mem hy
  exact ⟨next, own, hown, hmem⟩

/-! ## One violation -/

/-- The finding that shows a violation with given words and parameters. -/
def findingOf (y : Violation) (message : String) (ps : Members) : Finding :=
  { path := Pointer.ofPosition y.place
    keyword := y.keyword
    message := message
    params := ps
    schemaPath := Pointer.schemaFragment y.schemaPlace }

theorem findingOf_shows (y : Violation) (message : String) (ps : Members) :
    (findingOf y message ps).Shows y := ⟨rfl, rfl, rfl⟩

theorem findings_of_undeclared (h : y.complaint = .undeclared extras declared patterns) :
    findings validator fuel next y = (undeclaredKeys declared patterns y.value).map fun keys =>
      keys.map fun key =>
        findingOf y (undeclaredMessage key) [("additionalProperty", .str key)] := by
  unfold findings
  rw [h]
  dsimp only
  cases undeclaredKeys declared patterns y.value with
  | error | ok => rfl

theorem findings_of_other
    (h : ∀ extras declared patterns, y.complaint ≠ .undeclared extras declared patterns) :
    findings validator fuel next y =
      (params (fun schema => (validator.judgeInner fuel schema y.value).accepts) y.value next
        y.complaint).map fun ps => [findingOf y y.message ps] := by
  unfold findings
  split
  · rename_i hcomplaint
    exact absurd hcomplaint (h _ _ _)
  · dsimp only
    cases params (fun schema => (validator.judgeInner fuel schema y.value).accepts) y.value next
      y.complaint with
    | error | ok => rfl

theorem undeclared_or_other (y : Violation) :
    (∃ extras declared patterns, y.complaint = .undeclared extras declared patterns) ∨
      ∀ extras declared patterns, y.complaint ≠ .undeclared extras declared patterns := by
  cases h : y.complaint with
  | undeclared extras declared patterns => exact .inl ⟨extras, declared, patterns, rfl⟩
  | nothingAllowed | wrongType | notInEnum | notConst | outOfBounds | notMultiple | wrongCount
  | repeatedItems | patternUnmatched | formatUnmet | missingProperty | missingDependency
  | surplusItems | nothingContained | noneOfAny | noneOfOne | noBranches | severalOfOne | forbidden
  | notBeyond | notDivisible | disallowed =>
    exact .inr fun _ _ _ => Complaint.noConfusion

/-- A finding shows where its violation is and which keyword complains. -/
theorem shows_of_findings (h : findings validator fuel next y = .ok own) (hf : f ∈ own) : f.Shows y := by
  rcases undeclared_or_other y with ⟨extras, declared, patterns, hcomplaint⟩ | hother
  · rw [findings_of_undeclared hcomplaint] at h
    obtain ⟨keys, -, rfl⟩ := map_eq_ok.mp h
    obtain ⟨key, -, rfl⟩ := List.mem_map.mp hf
    exact findingOf_shows y _ _
  · rw [findings_of_other hother] at h
    obtain ⟨ps, -, rfl⟩ := map_eq_ok.mp h
    rw [List.mem_singleton.mp hf]
    exact findingOf_shows y _ _

/-- What is found about a value itself, seen from above, is shown at the place of the value. -/
theorem path_of_findings_under {place schemaPlace : Position} (hplace : y.place = [])
    (h : findings validator fuel next (y.under place schemaPlace) = .ok own) (hf : f ∈ own) :
    f.path = Pointer.ofPosition place ∧ f.keyword = y.keyword := by
  obtain ⟨hpath, hkeyword, -⟩ := shows_of_findings h hf
  refine ⟨?_, hkeyword⟩
  rw [hpath]
  show Pointer.ofPosition (place ++ y.place) = _
  rw [hplace, List.append_nil]

theorem findings_wrongType {names : List String} (hy : y.complaint = .wrongType names)
    (h : findings validator fuel next y = .ok own) : ∃ f, f ∈ own := by
  unfold findings at h
  rw [hy] at h
  cases h
  exact ⟨_, List.mem_cons_self⟩

/-- A violation about something missing is shown by one finding, with the parameters that are next in turn. -/
theorem findings_of_missing (hy : y.complaint.isMissing = true) :
    findings validator fuel next y = .ok [findingOf y y.message next] := by
  have hother : ∀ extras declared patterns, y.complaint ≠ .undeclared extras declared patterns := by
    intro extras declared patterns heq
    rw [heq] at hy
    cases hy
  have hparams : params (fun schema => (validator.judgeInner fuel schema y.value).accepts) y.value next
      y.complaint = .ok next := by
    cases hcomplaint : y.complaint <;> rw [hcomplaint] at hy <;> cases hy <;> rfl
  rw [findings_of_other hother, hparams]
  rfl

/-- Each undeclared key of an object is shown by a finding of its own. -/
theorem findings_undeclared (hy : y.complaint = .undeclared extras declared patterns)
    (h : findings validator fuel next y = .ok own) :
    ∃ keys, undeclaredKeys declared patterns y.value = .ok keys ∧
      ∀ key ∈ keys, ∃ f ∈ own, f.params = [("additionalProperty", .str key)] := by
  rw [findings_of_undeclared hy] at h
  obtain ⟨keys, hkeys, rfl⟩ := map_eq_ok.mp h
  exact ⟨keys, hkeys, fun key hkey => ⟨_, List.mem_map_of_mem hkey, rfl⟩⟩

theorem matchesAny_of_firstMatching {key : String} {shapes : List (String × Shape)}
    (h : Shape.firstMatching key shapes = .ok none) :
    matchesAny key (shapes.map Prod.fst) = .ok false := by
  induction shapes with
  | nil => rfl
  | cons head rest ih =>
    obtain ⟨regex, sub⟩ := head
    rw [Shape.firstMatching] at h
    cases hfound : Regex.found regex key with
    | error error =>
      rw [hfound] at h
      cases h
    | ok found =>
      rw [hfound] at h
      cases found with
      | true => cases h
      | false =>
        rw [List.map_cons, matchesAny, Keyword.matchesPattern, hfound]
        exact ih h

/-- What a shape does not declare is shown as undeclared. -/
theorem mem_undeclaredKeys {s : Shape} {ms : Members} {keys : List String} {key : String}
    (h : undeclaredKeys (s.properties.map Prod.fst) (s.patterns.map Prod.fst) (.obj ms) = .ok keys)
    (hmem : key ∈ ms.map Prod.fst) (undeclared : s.declares key = .ok false) : key ∈ keys := by
  obtain ⟨-, hpattern⟩ := Shape.declares_eq_false.mp undeclared
  refine (Keyword.mem_select h).mpr ⟨hmem, ?_⟩
  rw [Shape.not_contains_of_undeclared undeclared, if_neg Bool.false_ne_true,
    matchesAny_of_firstMatching hpattern]
  rfl

end Report

/-- A report that returns has met no fault and shows all violations. -/
theorem Validator.report_eq_ok (h : validator.report v = .ok found) :
    (validator.judge v).fault? = none ∧
      Report.allFindings validator (validator.fuelFor v) [] (validator.judge v).violations = .ok found := by
  unfold report at h
  obtain ⟨all, hall, h⟩ := bind_eq_ok.mp h
  cases hfault : (validator.judge v).fault? with
  | some fault =>
    simp only [hfault] at h
    cases h
  | none =>
    simp only [hfault] at h
    cases h
    exact ⟨rfl, hall⟩

/-! ## One place -/

variable {rounds : Nat} {base : String} {members last : Members} {x : Json} {place : Position}

/-- A value that its shape does not admit violates the types at its place. -/
theorem type_violated (sound : (validator.judgeWith rounds base (.obj members) v).fault? = none)
    (hjudged : Judged members v place last x) (noReference : last.lookup "$ref" = none)
    (mismatch : (Shape.ofSchema (.obj last)).admits x = false) :
    ∃ names, ∃ y ∈ (validator.judgeWith rounds base (.obj members) v).violations,
      y.place = place ∧ y.complaint = .wrongType names := by
  obtain ⟨fewer, inside, hsound, hfound⟩ := Validator.found_at sound hjudged
  obtain ⟨names, hviolation⟩ := Validator.mismatch_found noReference hsound mismatch
  obtain ⟨schemaPlace, hy⟩ := hfound _ hviolation
  exact ⟨names, _, hy, List.append_nil place, rfl⟩

/-- A violation of a type is reported. -/
theorem reported_of_type {violations : List Violation} {names : List String}
    (reported : Report.allFindings validator fuel pending violations = .ok found) (hy : y ∈ violations)
    (complaint : y.complaint = .wrongType names) : ∃ f ∈ found, f.Shows y := by
  obtain ⟨next, own, hown, hmem⟩ := Report.findings_of_mem reported hy
  obtain ⟨f, hf⟩ := Report.findings_wrongType complaint hown
  exact ⟨f, hmem f hf, Report.shows_of_findings hown hf⟩

/-- A value that its shape does not admit is reported at its place. -/
theorem type_reported (sound : (validator.judgeWith rounds base (.obj members) v).fault? = none)
    (reported : Report.allFindings validator fuel pending
      (validator.judgeWith rounds base (.obj members) v).violations = .ok found)
    (hjudged : Judged members v place last x) (noReference : last.lookup "$ref" = none)
    (mismatch : (Shape.ofSchema (.obj last)).admits x = false) :
    ∃ f ∈ found, f.path = Pointer.ofPosition place ∧ f.keyword = "type" := by
  obtain ⟨names, y, hy, hplace, hcomplaint⟩ := type_violated sound hjudged noReference mismatch
  obtain ⟨f, hf, hshows⟩ := reported_of_type reported hy hcomplaint
  refine ⟨f, hf, ?_, ?_⟩
  · rw [hshows.path, hplace]
  · rw [hshows.keyword, Violation.keyword, hcomplaint]
    rfl

/-- Where an object under a closed shape has keys that the validator takes for extra, each of its undeclared
keys is reported at the place of the object. -/
theorem undeclared_reported {ms : Members}
    (sound : (validator.judgeWith rounds base (.obj members) v).fault? = none)
    (reported : Report.allFindings validator fuel pending
      (validator.judgeWith rounds base (.obj members) v).violations = .ok found)
    (hjudged : Judged members v place last (.obj ms)) (noReference : last.lookup "$ref" = none)
    (closed : (Shape.ofSchema (.obj last)).closed = true) :
    ∃ extras, (Shape.ofSchema (.obj last)).extraKeys ms = .ok extras ∧ (extras ≠ [] →
      ∀ key ∈ ms.map Prod.fst, (Shape.ofSchema (.obj last)).declares key = .ok false →
        ∃ f ∈ found, f.path = Pointer.ofPosition place ∧ f.keyword = "additionalProperties" ∧
          f.params = [("additionalProperty", .str key)]) := by
  obtain ⟨fewer, inside, hsound, hfound⟩ := Validator.found_at sound hjudged
  obtain ⟨extras, hextras, hviolation⟩ := Validator.undeclared_found noReference hsound closed
  refine ⟨extras, hextras, fun hne key hkey hundeclared => ?_⟩
  obtain ⟨schemaPlace, hy⟩ := hfound _ (hviolation hne)
  obtain ⟨next, own, hown, hmem⟩ := Report.findings_of_mem reported hy
  obtain ⟨keys, hkeys, hshown⟩ := Report.findings_undeclared rfl hown
  obtain ⟨f, hf, hparams⟩ := hshown key (Report.mem_undeclaredKeys hkeys hkey hundeclared)
  obtain ⟨hpath, hkeyword⟩ := Report.path_of_findings_under rfl hown hf
  exact ⟨f, hmem f hf, hpath, hkeyword, hparams⟩

end JsonMend
