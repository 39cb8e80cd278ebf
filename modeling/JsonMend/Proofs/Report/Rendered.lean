import JsonMend.Proofs.Draft7.Way
import JsonMend.Proofs.Report.Findings
/-
  How a report renders what the judging has found.

  Each violation should be shown by one finding, and one about undeclared properties by a finding for each
  of the extra keys that it counts.  The keys are found anew, though: the judging joins all patterns to
  one, the report tries them one by one.  And where several branches accept a value, their places are
  found anew from the root, which other references may lead from.

  1. **In order** (`allFindings_iff`) — several violations are shown if each of them is.
  2. **Extra keys** (`Sourced.undeclared`) — a violation about undeclared properties comes from a closed schema
     whose patterns were all tried before, so finding the keys anew meets no fault.
  3. **One violation** — it is rendered unless the places of its branches cannot be found (`findings_iff`),
     and rendered as it should be exactly if its keys come out the same (`rendered_iff`).
  4. **All of them** (`report_iff`, `report_shown`, `report_eq_nil`).
-/
namespace JsonMend

open Outcome

variable {fuel : Nat} {validator : Validator} {v : Json} {y : Violation} {found own : List Finding}
  {declared patterns extras : List String} {ys : List Violation} {pending : Report.Pending}
  {next : Members}

namespace Report

/-- Findings show a violation as they should: one for each extra key that it counts, in the order of the
object, of which there is at least one; or a single one. -/
inductive Rendered (y : Violation) : List Finding → Prop
  | undeclared {extras declared patterns ms own}
      (complaint : y.complaint = .undeclared extras declared patterns) (object : y.value = .obj ms)
      (counted : Keyword.extraKeys declared patterns ms = .ok extras) (someKey : extras ≠ [])
      (shows : ∀ f ∈ own, f.Shows y)
      (keys : own.map Finding.params = extras.map fun key => [("additionalProperty", .str key)]) :
      Rendered y own
  | single {f} (other : ∀ extras declared patterns, y.complaint ≠ .undeclared extras declared patterns)
      (shows : f.Shows y) : Rendered y [f]

/-- Trying the patterns one by one gives the extra keys that a violation counts. -/
def Tallied (y : Violation) : Prop :=
  ∀ extras declared patterns, y.complaint = .undeclared extras declared patterns →
    undeclaredKeys declared patterns y.value = .ok extras

/-- Trying the patterns one by one gives no key at all. -/
def Overlooked (y : Violation) : Prop :=
  ∃ extras declared patterns, y.complaint = .undeclared extras declared patterns ∧
    undeclaredKeys declared patterns y.value = .ok []

/-- Which of several branches accept the value can be found out from the root of the schema. -/
def Placed (validator : Validator) (fuel : Nat) (y : Violation) : Prop :=
  ∀ branches accepted, y.complaint = .severalOfOne branches accepted → ∃ places,
    accepting (fun schema => (validator.judgeInner fuel schema y.value).accepts) 0 branches = .ok places

/-! ## In order -/

/-- Several violations are shown if each of them can be, whichever parameters are next in turn. -/
theorem allFindings_iff {showable : Violation → Prop}
    (each : ∀ y ∈ ys, ∀ next, (∃ own, findings validator fuel next y = .ok own) ↔ showable y) :
    (∃ found, allFindings validator fuel pending ys = .ok found) ↔ ∀ y ∈ ys, showable y := by
  induction ys generalizing pending with
  | nil => exact ⟨fun _ _ hy => absurd hy List.not_mem_nil, fun _ => ⟨[], rfl⟩⟩
  | cons y rest ih =>
    obtain ⟨hfirst, hrest⟩ := List.forall_mem_cons.mp each
    have hbehind : (∃ found, allFindings validator fuel (advance pending y) rest = .ok found) ↔
        ∀ y ∈ rest, showable y := ih hrest
    rw [List.forall_mem_cons, ← hbehind, ← hfirst ((queued pending y).headD [])]
    constructor
    · rintro ⟨found, h⟩
      obtain ⟨own, others, hown, hothers, -⟩ := allFindings_cons h
      exact ⟨⟨own, hown⟩, ⟨others, hothers⟩⟩
    · rintro ⟨⟨own, hown⟩, ⟨others, hothers⟩⟩
      refine ⟨own ++ others, ?_⟩
      rw [allFindings, hown, hothers]
      rfl

end Report

/-! ## Extra keys -/

theorem Keyword.select_ok {α : Type} {test : α → Except Fault Bool} {xs : List α}
    (h : ∀ x ∈ xs, ∃ chosen, test x = .ok chosen) : ∃ selected, select test xs = .ok selected := by
  induction xs with
  | nil => exact ⟨[], rfl⟩
  | cons x rest ih =>
    obtain ⟨⟨chosen, hx⟩, hrest⟩ := List.forall_mem_cons.mp h
    obtain ⟨others, hothers⟩ := ih hrest
    refine ⟨if chosen then x :: others else others, ?_⟩
    rw [select, hx, hothers]
    rfl

theorem Report.matchesAny_ok {key : String}
    (h : ∀ regex ∈ patterns, ∃ matching, Keyword.matchesPattern regex key = .ok matching) :
    ∃ matching, matchesAny key patterns = .ok matching := by
  induction patterns with
  | nil => exact ⟨false, rfl⟩
  | cons regex rest ih =>
    obtain ⟨⟨matching, hregex⟩, hrest⟩ := List.forall_mem_cons.mp h
    rw [matchesAny, hregex]
    cases matching with
    | true => exact ⟨true, rfl⟩
    | false => exact ih hrest

/-- All drafts that are followed try patterns alike. -/
theorem Rule.ofMember_patterns {draft : Draft} {members ps : Members} {r? : Option Rule}
    (h : ofMember draft members "patternProperties" (.obj ps) = .ok r?) :
    r? = some (.shared (.patternProperties ps)) := by
  cases draft with
  | draft3 | draft4 | draft6 | draft7 =>
    cases h
    rfl
  | draft201909 | draft202012 => cases h

/-- Where a schema has judged an object without a fault, each of its patterns can be tried on each key. -/
theorem Validator.patterns_tried {rounds : Nat} {draft : Draft} {base key regex : String} {members ms : Members}
    (sound : (validator.judgeBy (rounds + 1) draft base (.obj members) (.obj ms)).fault? = none)
    (all : Keyword.applicable members = members)
    (hregex : regex ∈ (Shape.ofSchema (.obj members)).patterns.map Prod.fst)
    (hkey : key ∈ ms.map Prod.fst) : ∃ matching, Keyword.matchesPattern regex key = .ok matching := by
  rw [Shape.patterns_ofSchema] at hregex
  rcases Shape.names_shapesUnder "patternProperties" members with hnone | ⟨ps, hlookup, hnames⟩
  · rw [hnone] at hregex
    cases hregex
  · rw [hnames] at hregex
    obtain ⟨m, hm, rfl⟩ := List.mem_map.mp hregex
    obtain ⟨member, hmember, rfl⟩ := List.mem_map.mp hkey
    -- the keyword for patterns stands beside, and has tried all of them
    have hcounts : ("patternProperties", .obj ps) ∈ Keyword.applicable members := by
      rw [all]
      exact mem_keys_of_lookup hlookup
    obtain ⟨r?, hr, hjudged⟩ := rule_judged hcounts sound
    obtain ⟨hsound, -⟩ := hjudged _ (Rule.ofMember_patterns hr)
    have hpattern := sound_of_mem hsound hm
    have hpart := sound_of_mem hpattern hmember
    exact sound_ofExcept hpart

/-- **A violation about undeclared properties counts the extra keys of an object, at least one, and finding
them anew meets no fault.** -/
theorem Sourced.undeclared (h : Sourced validator (.undeclared extras declared patterns) v) :
    ∃ ms keys, v = .obj ms ∧ Keyword.extraKeys declared patterns ms = .ok extras ∧ extras ≠ [] ∧
      Report.undeclaredKeys declared patterns v = .ok keys := by
  obtain ⟨sound, hmem, hread, hbears, hfound⟩ := h
  rename_i rounds draft base members name value k
  have hk := Rule.keyword_of_ofMember hread
  have hname : name = "additionalProperties" := (Keyword.name_of_ofMember hk).trans hbears.symm
  subst hname
  have hall := Validator.applicable_of_mem hmem (by decide)
  cases additional_of_ofMember hk
  obtain ⟨ms, counted, -, rfl, hcounted, hsome, heq⟩ := Keyword.undeclared_of_here hfound
  cases heq
  obtain ⟨keys, hkeys⟩ : ∃ keys, Report.undeclaredKeys
      ((Shape.ofSchema (.obj members)).properties.map Prod.fst)
      ((Shape.ofSchema (.obj members)).patterns.map Prod.fst) (.obj ms) = .ok keys := by
    refine Keyword.select_ok fun key hkey => ?_
    split
    · exact ⟨false, rfl⟩
    · obtain ⟨matching, hmatching⟩ := Report.matchesAny_ok fun regex hregex =>
        Validator.patterns_tried sound hall hregex hkey
      exact ⟨!matching, by rw [hmatching]; rfl⟩
  exact ⟨ms, keys, rfl, hcounted, hsome, hkeys⟩

namespace Report

/-! ## One violation -/

theorem params_iff {accepts : Json → Except Fault Bool} {value : Json} {complaint : Complaint} :
    (∃ ps, params accepts value next complaint = .ok ps) ↔
      ∀ branches accepted, complaint = .severalOfOne branches accepted →
        ∃ places, accepting accepts 0 branches = .ok places := by
  cases complaint with
  | severalOfOne branches accepted =>
    rw [params]
    constructor
    · rintro ⟨ps, h⟩ _ _ ⟨⟩
      cases hplaces : accepting accepts 0 branches with
      | error fault =>
        rw [hplaces] at h
        cases h
      | ok places => exact ⟨places, rfl⟩
    · intro h
      obtain ⟨places, hplaces⟩ := h branches accepted rfl
      rw [hplaces]
      exact ⟨_, rfl⟩
  | repeatedItems =>
    constructor
    · intro _ branches accepted h
      cases h
    · intro _
      unfold params
      dsimp only
      split
      · split <;> exact ⟨_, rfl⟩
      · exact ⟨_, rfl⟩
  | nothingAllowed | wrongType | notInEnum | notConst | outOfBounds | notMultiple | wrongCount
  | patternUnmatched | formatUnmet | missingProperty | missingDependency | undeclared | surplusItems
  | nothingContained | noneOfAny | noneOfOne | noBranches | forbidden | notBeyond | notDivisible | disallowed =>
    constructor
    · intro _ branches accepted h
      cases h
    · intro _
      exact ⟨_, rfl⟩

/-- Where a violation has come from: a schema that allows nothing, a rule of another draft or a keyword. -/
abbrev Founded (validator : Validator) (y : Violation) : Prop :=
  y.complaint = .nothingAllowed ∨ y.complaint.isPeculiar = true ∨ Sourced validator y.complaint y.value

theorem Founded.undeclared (founded : Founded validator y)
    (complaint : y.complaint = .undeclared extras declared patterns) :
    ∃ ms keys, y.value = .obj ms ∧ Keyword.extraKeys declared patterns ms = .ok extras ∧
      extras ≠ [] ∧ undeclaredKeys declared patterns y.value = .ok keys := by
  rcases founded with hrefused | hpeculiar | hsourced
  · rw [complaint] at hrefused
    cases hrefused
  · rw [complaint] at hpeculiar
    cases hpeculiar
  · rw [complaint] at hsourced
    exact hsourced.undeclared

/-- **A violation can be shown, unless which of several branches accept the value cannot be found out from
the root.** -/
theorem findings_iff (founded : Founded validator y) :
    (∃ own, findings validator fuel next y = .ok own) ↔ Placed validator fuel y := by
  rcases undeclared_or_other y with ⟨extras, declared, patterns, hcomplaint⟩ | hother
  · obtain ⟨-, keys, -, -, -, hkeys⟩ := founded.undeclared hcomplaint
    rw [findings_of_undeclared hcomplaint, hkeys]
    constructor
    · intro _ branches accepted hseveral
      rw [hcomplaint] at hseveral
      cases hseveral
    · intro _
      exact ⟨_, rfl⟩
  · have hplaced : (∃ ps, params (fun schema => (validator.judgeInner fuel schema y.value).accepts) y.value
        next y.complaint = .ok ps) ↔ Placed validator fuel y := params_iff
    rw [findings_of_other hother, ← hplaced]
    constructor
    · rintro ⟨own, h⟩
      obtain ⟨ps, hps, -⟩ := map_eq_ok.mp h
      exact ⟨ps, hps⟩
    · rintro ⟨ps, hps⟩
      exact ⟨_, map_eq_ok.mpr ⟨ps, hps, rfl⟩⟩

/-- **The findings of a violation are as they should be exactly if trying the patterns one by one gives its
extra keys.** -/
theorem rendered_iff (founded : Founded validator y) (h : findings validator fuel next y = .ok own) :
    Rendered y own ↔ Tallied y := by
  rcases undeclared_or_other y with ⟨extras, declared, patterns, hcomplaint⟩ | hother
  · obtain ⟨ms, keys, hobject, hcounted, hsome, hkeys⟩ := founded.undeclared hcomplaint
    rw [findings_of_undeclared hcomplaint, hkeys] at h
    have hown := (Except.ok.inj h).symm
    constructor
    · intro hrendered
      cases hrendered with
      | undeclared hagain _ _ _ _ hparams =>
        intro extras' declared' patterns' hcomplaint'
        cases hcomplaint.symm.trans hcomplaint'
        cases hcomplaint.symm.trans hagain
        rw [hown, List.map_map] at hparams
        have hinjective : ∀ a b : String,
            [("additionalProperty", Json.str a)] = [("additionalProperty", .str b)] → a = b := by
          rintro a b ⟨⟩
          rfl
        rw [hkeys, (List.map_inj_right hinjective).mp hparams]
      | single hother => exact absurd hcomplaint (hother _ _ _)
    · intro htallied
      cases hkeys.symm.trans (htallied _ _ _ hcomplaint)
      subst hown
      refine .undeclared hcomplaint hobject hcounted hsome ?_ ?_
      · intro f hf
        obtain ⟨key, -, rfl⟩ := List.mem_map.mp hf
        exact findingOf_shows y _ _
      · rw [List.map_map]
        rfl
  · rw [findings_of_other hother] at h
    obtain ⟨ps, -, rfl⟩ := map_eq_ok.mp h
    constructor
    · intro _ extras declared patterns hcomplaint
      exact absurd hcomplaint (hother _ _ _)
    · intro _
      exact .single hother (findingOf_shows y _ _)

theorem own_eq_nil_iff (h : findings validator fuel next y = .ok own) : own = [] ↔ Overlooked y := by
  rcases undeclared_or_other y with ⟨extras, declared, patterns, hcomplaint⟩ | hother
  · rw [findings_of_undeclared hcomplaint] at h
    obtain ⟨keys, hkeys, rfl⟩ := map_eq_ok.mp h
    rw [List.map_eq_nil_iff]
    constructor
    · rintro rfl
      exact ⟨extras, declared, patterns, hcomplaint, hkeys⟩
    · rintro ⟨extras', declared', patterns', hcomplaint', hnone⟩
      cases hcomplaint.symm.trans hcomplaint'
      cases hkeys.symm.trans hnone
      rfl
  · rw [findings_of_other hother] at h
    obtain ⟨ps, -, rfl⟩ := map_eq_ok.mp h
    constructor
    · intro hnil
      cases hnil
    · rintro ⟨extras, declared, patterns, hcomplaint, -⟩
      exact absurd hcomplaint (hother _ _ _)

/-- A violation whose keys are counted alike is not overlooked. -/
theorem Founded.not_overlooked (founded : Founded validator y) (tallied : Tallied y) :
    ¬ Overlooked y := by
  rintro ⟨extras, declared, patterns, hcomplaint, hnone⟩
  obtain ⟨-, -, -, -, hsome, -⟩ := founded.undeclared hcomplaint
  cases hnone.symm.trans (tallied _ _ _ hcomplaint)
  exact hsome rfl

/-- Whether a complaint joins no patterns: at most one is declared, which is not empty. -/
def joinsNothing : Complaint → Bool
  | .undeclared _ _ [] => true
  | .undeclared _ _ [regex] => !regex.isEmpty
  | .undeclared _ _ _ => false
  | _ => true

/-- Where no patterns are joined, the keys are counted alike. -/
theorem Founded.tallied (founded : Founded validator y) (h : joinsNothing y.complaint = true) :
    Tallied y := by
  intro extras declared patterns hcomplaint
  obtain ⟨ms, -, hobject, hcounted, -, -⟩ := founded.undeclared hcomplaint
  rw [hcomplaint] at h
  rw [hobject, undeclaredKeys, ← hcounted, Keyword.extraKeys]
  match patterns with
  | [] => rfl
  | [regex] =>
    have hregex : regex.isEmpty = false := by simpa [joinsNothing] using h
    have hjoined : "|".intercalate [regex] = regex := rfl
    have halone : ∀ key, matchesAny key [regex] = Keyword.matchesPattern regex key := by
      intro key
      rw [matchesAny]
      cases Keyword.matchesPattern regex key with
      | error fault => rfl
      | ok matching => cases matching <;> rfl
    simp only [hjoined, hregex, halone, Bool.false_eq_true, if_false]
  | _ :: _ :: _ => cases h

/-! ## All of them -/

theorem shown_eq_nil_iff
    (h : Shown (fun y own => ∃ next, findings validator fuel next y = .ok own) ys found) :
    found = [] ↔ ∀ y ∈ ys, Overlooked y := by
  induction h with
  | nil => simp
  | cons first _ ih =>
    obtain ⟨next, hown⟩ := first
    rw [List.append_eq_nil_iff, List.forall_mem_cons, own_eq_nil_iff hown, ih]

end Report

theorem Validator.founded_of_judge (completes : (validator.judge v).fault? = none)
    (hy : y ∈ (validator.judge v).violations) : Report.Founded validator y := by
  by_cases hrefused : y.complaint = .nothingAllowed
  · exact .inl hrefused
  · cases hpeculiar : y.complaint.isPeculiar with
    | true => exact .inr (.inl hpeculiar)
    | false => exact .inr (.inr (source_of_found completes hy hrefused hpeculiar))

theorem Validator.report_of_complete (completes : (validator.judge v).fault? = none) :
    validator.report v = Report.allFindings validator (validator.fuelFor v) [] (validator.judge v).violations := by
  unfold report
  dsimp only
  rw [completes]
  cases Report.allFindings validator (validator.fuelFor v) [] (validator.judge v).violations with
  | error | ok => rfl

/-- **A judging that completes is reported, exactly if the branches of each violation can be placed.** -/
theorem Validator.report_iff (completes : (validator.judge v).fault? = none) :
    (∃ found, validator.report v = .ok found) ↔
      ∀ y ∈ (validator.judge v).violations, Report.Placed validator (validator.fuelFor v) y := by
  rw [report_of_complete completes]
  exact Report.allFindings_iff fun y hy _ => Report.findings_iff (founded_of_judge completes hy)

/-- **A report shows the violations one after another**, each of them as it should exactly if trying the
patterns one by one gives its extra keys. -/
theorem Validator.report_shown (h : validator.report v = .ok found) :
    Report.Shown (fun y own => Report.Rendered y own ↔ Report.Tallied y)
      (validator.judge v).violations found := by
  obtain ⟨hcompletes, hall⟩ := report_eq_ok h
  refine (Report.shown_of_allFindings hall).imp fun y hy own ⟨next, hown⟩ => ?_
  exact Report.rendered_iff (founded_of_judge hcompletes hy) hown

/-- **A report is empty exactly if every violation is overlooked.** -/
theorem Validator.report_eq_nil_iff (h : validator.report v = .ok found) :
    found = [] ↔ ∀ y ∈ (validator.judge v).violations, Report.Overlooked y :=
  Report.shown_eq_nil_iff (Report.shown_of_allFindings (report_eq_ok h).2)

end JsonMend
