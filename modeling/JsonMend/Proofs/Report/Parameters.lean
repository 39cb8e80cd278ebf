import JsonMend.Explanation
import JsonMend.Proofs.Draft7.Repeated
import JsonMend.Proofs.Report.Naming
/-
  What a report writes is what an explanation reads.

  A report writes parameters and an explanation reads them, each by a table of its own.

  1. **Templates** (`Template.fillIn_congr`) — what a template says depends on its parameters alone; where they are
     there, nothing that is added to them changes it.
  2. **One complaint** (`Complaint.template?`, `Complaint.parameters_of_params`) — each complaint has the template of
     its keyword and is reported with the parameters that this template reads.  Two kinds need more than the
     complaint: what is missing is named by what is next in turn, and repeated items by a search of their own.
  3. **One finding** (`Finding.carries_of_reported`) — so what a report shows carries what its template reads, because
     each violation takes its own name (`Validator.report_named`) and repeated items are found
     (`Unique.duplicate?_isSome`).
-/
namespace JsonMend

/-! ## Templates -/

namespace Template

variable {t : Template} {ps qs : Members} {loc : String}

/-- What a template says depends on its parameters alone. -/
theorem fillIn_congr (h : ∀ name ∈ t.parameters, ps.lookup name = qs.lookup name) :
    t.fillIn ps loc = t.fillIn qs loc := by
  cases t with
  | type | required | additionalProperties | enum | const | outOfBounds | wrongCount | pattern | format
  | multipleOf =>
    rw [parameters, List.forall_mem_singleton] at h
    unfold fillIn
    dsimp only
    rw [h]
  | oneOf =>
    rw [parameters, List.forall_mem_singleton] at h
    unfold fillIn
    simp only [h]
  | uniqueItems | dependencies =>
    rw [parameters, List.forall_mem_cons, List.forall_mem_singleton] at h
    unfold fillIn
    dsimp only
    rw [h.1, h.2]
  | propertyNames | conditional | anyOf | allOf | forbidden => rfl

end Template

/-- Nothing that a template reads is missing from the parameters of a finding: whatever is added to them does not
change what is said. -/
structure Finding.Carries (f : Finding) (t : Template) : Prop where
  parameters : ∀ name ∈ t.parameters, hasKey f.params name = true
  settled : ∀ more loc, t.fillIn (f.params ++ more) loc = t.fillIn f.params loc

theorem Finding.carries_of_parameters {f : Finding} {t : Template}
    (h : ∀ name ∈ t.parameters, hasKey f.params name = true) : f.Carries t := by
  refine ⟨h, fun more loc => Template.fillIn_congr fun name hname => ?_⟩
  obtain ⟨x, hx⟩ := Option.isSome_iff_exists.mp (h name hname)
  rw [List.lookup_append, hx, Option.some_or]

/-! ## One complaint -/

namespace Complaint

/-- What can be said of a complaint. -/
def template? : Complaint → Option Template
  | .wrongType _ => some .type
  | .notInEnum _ => some .enum
  | .notConst _ => some .const
  | .outOfBounds side _ | .notBeyond side _ => some (.outOfBounds side)
  | .notMultiple _ => some .multipleOf
  | .wrongCount side what _ => some (.wrongCount side what)
  | .repeatedItems => some .uniqueItems
  | .patternUnmatched _ => some .pattern
  | .formatUnmet _ => some .format
  | .missingProperty _ _ => some .required
  | .missingDependency _ _ _ => some .dependencies
  | .undeclared _ _ _ => some .additionalProperties
  | .noneOfAny => some .anyOf
  | .noneOfOne | .noBranches | .severalOfOne _ _ => some .oneOf
  | .forbidden _ => some .forbidden
  | .nothingAllowed | .surplusItems _ | .nothingContained | .notDivisible _ | .disallowed _ => none

/-- The table of templates has an entry for the keyword of a complaint exactly where something can be said of it. -/
theorem ofKeyword?_keyword (c : Complaint) : Template.ofKeyword? c.keyword = c.template? := by
  cases c with
  | outOfBounds side | notBeyond side =>
    rw [keyword, template?]
    cases side <;> decide +kernel
  | wrongCount side what =>
    rw [keyword, template?]
    cases side <;> cases what <;> decide +kernel
  | nothingAllowed | wrongType | notInEnum | notConst | notMultiple | repeatedItems | patternUnmatched
  | formatUnmet | missingProperty | missingDependency | undeclared | surplusItems | nothingContained
  | noneOfAny | noneOfOne | noBranches | severalOfOne | forbidden | notDivisible | disallowed =>
    rw [keyword, template?]
    decide +kernel

variable {accepts : Json → Except Fault Bool} {value : Json} {next ps : Members} {c : Complaint} {t : Template}

theorem hasKey_cons_self {α : Type} {key : String} {x : α} {ms : List (String × α)} :
    hasKey ((key, x) :: ms) key = true := by
  rw [hasKey_iff]
  exact List.mem_cons_self

/-- What is missing is named as the template of its keyword asks for. -/
theorem parameters_of_named {y : Violation} (missing : y.isMissing = true)
    (template : y.complaint.template? = some t) : ∀ name ∈ t.parameters, hasKey y.named name = true := by
  unfold Violation.named
  cases hcomplaint : y.complaint with
  | missingProperty name asked =>
    rw [hcomplaint] at template
    cases template
    exact List.forall_mem_singleton.mpr hasKey_cons_self
  | missingDependency property name asked =>
    rw [hcomplaint] at template
    cases template
    simp [Template.parameters, Report.dependencyParams, hasKey, List.lookup_cons]
  | _ =>
    rw [Violation.isMissing, hcomplaint] at missing
    cases missing

/-- **A complaint is reported with the parameters that its template reads**, if what is next in turn names what is
missing and the repeated items are found. -/
theorem parameters_of_params (h : Report.params accepts value next c = .ok ps) (template : c.template? = some t)
    (named : c.isMissing = true → ∀ name ∈ t.parameters, hasKey next name = true)
    (repeated : c = .repeatedItems → ∃ items pair, value = .arr items ∧ Unique.duplicate? items = some pair)
    (declared : ∀ extras declared patterns, c ≠ .undeclared extras declared patterns) :
    ∀ name ∈ t.parameters, hasKey ps name = true := by
  cases c with
  | missingProperty | missingDependency =>
    cases h
    exact named rfl
  | repeatedItems =>
    obtain ⟨items, ⟨i, j⟩, rfl, hpair⟩ := repeated rfl
    cases template
    rw [Report.params, hpair] at h
    cases h
    simp [Template.parameters, hasKey, List.lookup_cons]
  | severalOfOne branches accepted =>
    cases template
    obtain ⟨places, -, h⟩ := bind_eq_ok.mp h
    cases h
    exact List.forall_mem_singleton.mpr hasKey_cons_self
  | undeclared => exact absurd rfl (declared _ _ _)
  | outOfBounds | notBeyond =>
    cases h
    cases template
    simp [Template.parameters, hasKey, List.lookup_cons]
  | wrongType | notInEnum | notConst | notMultiple | wrongCount | patternUnmatched | formatUnmet | noneOfOne
  | noBranches =>
    cases h
    cases template
    exact List.forall_mem_singleton.mpr hasKey_cons_self
  | noneOfAny | forbidden =>
    cases template
    exact fun _ hname => absurd hname List.not_mem_nil
  | nothingAllowed | surplusItems | nothingContained | notDivisible | disallowed => cases template

end Complaint

/-! ## One finding -/

section
variable {validator : Validator} {schema v : Json} {y : Violation} {found own : List Finding} {f : Finding}
  {t : Template}

/-- Only one keyword complains of repeated items. -/
theorem Keyword.of_name_uniqueItems {k : Keyword} (name : k.name = "uniqueItems") :
    ∃ wanted, k = .uniqueItems wanted := by
  cases k with
  | uniqueItems wanted => exact ⟨wanted, rfl⟩
  | reference | type | enum | const | bound | multipleOf | count | pattern | format | required
  | properties | patternProperties | propertyNames | additionalProperties | items | itemsInTurn
  | additionalItems | contains | dependencies | allOf | anyOf | oneOf | forbid | conditional =>
    simp [Keyword.name] at name

/-- **Where a schema has found repeated items, there is a pair of them to show.** -/
theorem Validator.pair_of_repeated (distinct : v.Distinct) (sound : (validator.judge v).fault? = none)
    (hy : y ∈ (validator.judge v).violations) (repeated : y.complaint = .repeatedItems) :
    ∃ items pair, y.value = .arr items ∧ Unique.duplicate? items = some pair := by
  obtain ⟨way, -, -, hread, -, hfound⟩ :=
    (located_of_found sound hy).foundAt (by simp [repeated]) (by simp [repeated, Complaint.isPeculiar])
  have hvalue : y.value.Distinct := way.part_distinct distinct
  have hname := Keyword.name_of_ofMember (Rule.keyword_of_ofMember hread)
  rw [Violation.keyword, repeated] at hname
  rw [repeated] at hfound
  obtain ⟨wanted, rfl⟩ := Keyword.of_name_uniqueItems hname.symm
  cases hitems : y.value with
  | arr items =>
    rw [hitems] at hfound hvalue
    cases hholds : Unique.holds items with
    | false =>
      obtain ⟨pair, hpair⟩ := Unique.duplicate?_isSome (Json.eachObject_arr.mp hvalue) hholds
      exact ⟨items, pair, rfl, hpair⟩
    | true =>
      simp only [Keyword.judge, hholds, Bool.or_true] at hfound
      cases hfound
  | null | bool | num | str | obj =>
    rw [hitems] at hfound
    cases hfound

/-- **A finding carries all that its template reads**, in one dialect. -/
theorem Finding.carries_of_reported (home : validator.registry.StaysHome validator.registry.rootPlace)
    (registry : validator.registry.Distinct) (distinct : v.Distinct) (reported : validator.report v = .ok found)
    (hf : f ∈ found) (template : Template.ofKeyword? f.keyword = some t) : f.Carries t := by
  obtain ⟨y, hy, own, hown, hfown⟩ := (Validator.report_named home registry distinct reported).mem hf
  obtain ⟨sound, -⟩ := Validator.report_eq_ok reported
  have hkeyword := (Report.shows_of_findings hown hfown).keyword
  rw [hkeyword, Violation.keyword, Complaint.ofKeyword?_keyword] at template
  apply carries_of_parameters
  rcases Report.undeclared_or_other y with ⟨extras, declared, patterns, hcomplaint⟩ | hother
  · rw [Report.findings_of_undeclared hcomplaint] at hown
    obtain ⟨keys, -, rfl⟩ := map_eq_ok.mp hown
    obtain ⟨key, -, rfl⟩ := List.mem_map.mp hfown
    rw [hcomplaint] at template
    cases template
    exact List.forall_mem_singleton.mpr Complaint.hasKey_cons_self
  · rw [Report.findings_of_other hother] at hown
    obtain ⟨ps, hps, rfl⟩ := map_eq_ok.mp hown
    rw [List.mem_singleton.mp hfown]
    exact Complaint.parameters_of_params hps template
      (fun hmissing => Complaint.parameters_of_named hmissing template)
      (Validator.pair_of_repeated distinct sound hy) hother

end

end JsonMend
