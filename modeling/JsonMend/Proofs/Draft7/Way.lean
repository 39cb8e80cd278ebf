import JsonMend.Proofs.Draft7.Closed
/-
  The way from a schema down to the keyword that complains.

  A judging stands at a schema and a value, by a draft, under a URI and with rounds left.  A rule that enters a schema
  takes it one stand further, and puts its own steps in front of what is found from there on.  References are entrances
  like any other, so the way of a violation exists in every schema.

  1. **Stands and ways** (`Stand`, `Way`) — from a stand to another, by entrances, with the steps in the value and in
     the schema.  A way stays at places with a closed property (`Way.stands`) and, where no draft is known, with
     draft-07 (`Way.native`).
  2. **The way of a violation** (`located_of_found`) — by induction on the rounds: every violation has a way, to the
     keyword that makes it, and then its places are the steps of the way, to a rule of another draft, or to a schema
     that allows nothing.
  3. **The source of a finding** (`source_of_found`) — the keyword at the end of the way, in a schema whose judging has
     no fault.

  What is to be shown of all violations is shown of ways, by induction on these.
-/
namespace JsonMend

/-! ## Stands and ways -/

/-- Where a judging stands: the rounds that are left, the draft, the URI that holds, the schema and the value. -/
structure Stand where
  rounds : Nat
  draft : Draft
  base : String
  schema : Json
  value : Json

namespace Validator

/-- Where a validator begins to judge a value. -/
def stand (validator : Validator) (v : Json) : Stand :=
  ⟨validator.fuelFor v, .draft7, validator.registry.rootUri, validator.registry.root, v⟩

/-- What is found from a stand on. -/
def judgeAt (validator : Validator) (s : Stand) : Outcome :=
  validator.judgeBy s.rounds s.draft s.base s.schema s.value

end Validator

/-- The way of a judging from a stand down to another, with the steps that it puts in front in the value and in the
schema. -/
inductive Way (validator : Validator) : Stand → Position → Position → Stand → Prop
  | here {s} : Way validator s [] [] s
  | down {rounds draft base members v name value r inside sub steps schemaSteps x place schemaPlace last}
      (mem : (name, value) ∈ Keyword.applicable members)
      (read : Rule.ofMember draft members name value = .ok (some r))
      (enters : r.Enters validator (validator.inside rounds draft) base v inside sub steps schemaSteps x)
      (rest : Way validator ⟨rounds, validator.draftOf draft sub, inside, sub, x⟩ place schemaPlace last) :
      Way validator ⟨rounds + 1, draft, base, .obj members, v⟩ (steps ++ place)
        ((r.step ++ schemaSteps) ++ schemaPlace) last

variable {validator : Validator} {start last : Stand} {place schemaPlace : Position} {y : Violation}

/-- What is judged last has distinct keys, if what is judged first has. -/
theorem Way.part_distinct (h : Way validator start place schemaPlace last) (distinct : start.value.Distinct) :
    last.value.Distinct := by
  induction h with
  | here => exact distinct
  | down _ _ henters _ ih => exact ih (henters.part_distinct distinct)

/-- **A way stays at places with a closed property**, or leads to a single character. -/
theorem Way.stands {P : String → Json → Prop} (closed : validator.registry.Closed P)
    (h : Way validator start place schemaPlace last)
    (stands : P start.base start.schema ∨ ∃ c, start.schema = .str c) :
    P last.base last.schema ∨ ∃ c, last.schema = .str c := by
  induction h with
  | here => exact stands
  | down hmem hr henters _ ih =>
    rcases stands with hstands | ⟨c, hc⟩
    · exact ih (closed.consults hstands (Validator.mem_of_applicable hmem) hr henters.consults).1
    · cases hc

/-- No rounds are won on a way. -/
theorem Way.rounds_le (h : Way validator start place schemaPlace last) : last.rounds ≤ start.rounds := by
  induction h with
  | here => exact Nat.le_refl _
  | down _ _ _ _ ih => exact Nat.le_succ_of_le ih

/-- A text has no parts, so a way stays with it. -/
theorem Way.stays_at_text {key : String} (h : Way validator start place schemaPlace last)
    (text : start.value = .str key) : place = [] ∧ last.value = .str key := by
  induction h with
  | here => exact ⟨rfl, text⟩
  | down _ _ henters _ ih =>
    cases text
    cases henters with
    | whole | branch => exact ih rfl
    | shared henters =>
      cases henters with
      | reference | branch | whenMet | whenUnmet => exact ih rfl

theorem Validator.draftOf_native {draft : Draft} {schema : Json} (native : validator.drafts = []) :
    validator.draftOf draft schema = draft := by
  unfold draftOf
  cases schema.draft? <;> simp [native]

/-- Where no draft is known, a way stays with draft-07. -/
theorem Way.native (h : Way validator start place schemaPlace last) (native : validator.drafts = [])
    (home : start.draft = .draft7) : last.draft = .draft7 := by
  induction h with
  | here => exact home
  | down _ _ _ _ ih => exact ih ((Validator.draftOf_native native).trans home)

/-! ## The way of a violation -/

/-- A keyword that complains by itself has a step of its own in the schema. -/
theorem Keyword.step_of_name {k : Keyword} (h : y.keyword = k.name) : k.step = [.key y.keyword] := by
  have hcomplaint : y.keyword ≠ "$ref" ∧ y.keyword ≠ "if" := by
    unfold Violation.keyword
    cases y.complaint with
    | outOfBounds side | notBeyond side => cases side <;> simp [Complaint.keyword, Bound.name]
    | wrongCount side what => cases side <;> cases what <;> simp [Complaint.keyword, CountLimit.name]
    | nothingAllowed | wrongType | notInEnum | notConst | notMultiple | repeatedItems | patternUnmatched | formatUnmet
    | missingProperty | missingDependency | undeclared | surplusItems | nothingContained | noneOfAny | noneOfOne
    | noBranches | severalOfOne | forbidden | notDivisible | disallowed => simp [Complaint.keyword]
  rw [h] at hcomplaint ⊢
  cases k with
  | reference => exact absurd rfl hcomplaint.1
  | conditional => exact absurd rfl hcomplaint.2
  | type | enum | const | bound | multipleOf | count | uniqueItems | pattern | format | required
  | properties | patternProperties | propertyNames | additionalProperties | items | itemsInTurn
  | additionalItems | contains | dependencies | allOf | anyOf | oneOf | forbid => rfl

/-- A keyword at the end of a way complains by itself, and nothing there meets a fault. -/
inductive Violation.FoundAt (validator : Validator) (start : Stand) (y : Violation) : Prop
  | intro {rounds draft base members value k above}
      (way : Way validator start y.place above ⟨rounds + 1, draft, base, .obj members, y.value⟩)
      (sound : (validator.judgeBy (rounds + 1) draft base (.obj members) y.value).fault? = none)
      (mem : (y.keyword, value) ∈ Keyword.applicable members)
      (read : Rule.ofMember draft members y.keyword value = .ok (some (.shared k)))
      (schemaPlace : y.schemaPlace = above ++ [.key y.keyword])
      (found : .here y.complaint y.value ∈ (k.judge validator (validator.inside rounds draft) base y.value).violations) :
      FoundAt validator start y

/-- A rule at the end of a way complains that draft-07 does not have in this way.  It blames the value there, or a place
below an object. -/
inductive Violation.PeculiarAt (validator : Validator) (start : Stand) (y : Violation) : Prop
  | intro {place above last} (way : Way validator start place above last) (abroad : last.draft ≠ .draft7)
      (peculiar : y.complaint.isPeculiar = true) (value : y.value = last.value)
      (place : y.place = place ∨ last.value.isObj = true) : PeculiarAt validator start y

/-- A schema at the end of a way allows nothing. -/
inductive Violation.RefusedAt (validator : Validator) (start : Stand) (y : Violation) : Prop
  | intro {rounds draft base place schemaPlace x}
      (way : Way validator start place schemaPlace ⟨rounds, draft, base, .bool false, x⟩)
      (complaint : y.complaint = .nothingAllowed) : RefusedAt validator start y

/-- Where a violation was found: at the end of a way, in one of three manners. -/
inductive Violation.Located (validator : Validator) (start : Stand) (y : Violation) : Prop
  | keyword (found : y.FoundAt validator start) : Located validator start y
  | peculiar (found : y.PeculiarAt validator start) : Located validator start y
  | refused (found : y.RefusedAt validator start) : Located validator start y

section
variable {rounds : Nat} {draft : Draft} {base inside name : String} {members : Members} {v value schema x : Json}
  {r : Rule} {steps schemaSteps : Position}

/-- What is found behind an entrance is found in front of it, by a way that is one entrance longer. -/
theorem Violation.Located.under (h : y.Located validator ⟨rounds, validator.draftOf draft schema, inside, schema, x⟩)
    (mem : (name, value) ∈ Keyword.applicable members) (read : Rule.ofMember draft members name value = .ok (some r))
    (enters : r.Enters validator (validator.inside rounds draft) base v inside schema steps schemaSteps x) :
    (y.under steps (r.step ++ schemaSteps)).Located validator ⟨rounds + 1, draft, base, .obj members, v⟩ := by
  cases h with
  | keyword h =>
    obtain ⟨way, sound, hmem, hread, hplace, hfound⟩ := h
    refine .keyword (.intro (.down mem read enters way) sound hmem hread ?_ hfound)
    show (r.step ++ schemaSteps) ++ y.schemaPlace = _
    rw [hplace, ← List.append_assoc]
    rfl
  | peculiar h =>
    obtain ⟨way, habroad, hpeculiar, hvalue, hplace⟩ := h
    refine .peculiar (.intro (.down mem read enters way) habroad hpeculiar hvalue ?_)
    exact hplace.imp_left (congrArg (steps ++ ·))
  | refused h =>
    obtain ⟨way, hcomplaint⟩ := h
    exact .refused (.intro (.down mem read enters way) hcomplaint)

/-- **Every violation has a way**, to the keyword or the rule that makes it or to a schema that allows nothing. -/
theorem located_of_found (sound : (validator.judgeBy rounds draft base schema v).fault? = none)
    (hy : y ∈ (validator.judgeBy rounds draft base schema v).violations) :
    y.Located validator ⟨rounds, draft, base, schema, v⟩ := by
  induction rounds generalizing draft base schema v y with
  | zero => cases sound
  | succ rounds ih =>
    cases schema with
    | obj members =>
      obtain ⟨name, value, r, z, hmem, hr, hz, rfl⟩ := Validator.rule_of_found hy
      obtain ⟨r?, hread, hjudged⟩ := Validator.rule_judged hmem sound
      cases hr.symm.trans hread
      obtain ⟨hsound, -⟩ := hjudged r rfl
      cases Rule.found_by hsound hz with
      | shared hcommon hhere hname =>
        subst hcommon
        cases Keyword.name_of_ofMember (Rule.keyword_of_ofMember hr)
        rw [hhere] at hz hname ⊢
        have hstep : Rule.step (.shared _) = _ := Keyword.step_of_name hname
        rw [hstep]
        change Violation.keyword _ = _ at hname
        rw [← hname] at hmem hr
        exact .keyword (.intro .here sound hmem hr rfl hz)
      | own hpeculiar hforeign hvalue hplace =>
        refine .peculiar (.intro .here (fun hdraft => ?_) hpeculiar hvalue hplace)
        cases (hdraft : draft = .draft7)
        obtain ⟨k, rfl, -⟩ := Rule.shared_of_draft7 hr
        cases hforeign
      | refused hcomplaint henters => exact .refused (.intro (.down hmem hr henters .here) hcomplaint)
      | entered henters hinside hinner habove =>
        rw [habove, Violation.under_under]
        exact (ih hinside hinner).under hmem hr henters
    | bool b =>
      cases b with
      | true => cases hy
      | false =>
        rw [List.mem_singleton.mp hy]
        exact .refused (.intro .here rfl)
    | null | num | str | arr => cases sound

/-- What only a keyword can complain of, a keyword has found. -/
theorem Violation.Located.foundAt (h : y.Located validator start) (allows : y.complaint ≠ .nothingAllowed)
    (common : y.complaint.isPeculiar = false) : y.FoundAt validator start := by
  cases h with
  | keyword h => exact h
  | peculiar h =>
    obtain ⟨-, -, hpeculiar, -, -⟩ := h
    cases common.symm.trans hpeculiar
  | refused h =>
    obtain ⟨-, hcomplaint⟩ := h
    exact absurd hcomplaint allows

end

/-! ## The source of a finding -/

/-- A keyword of a schema has found a violation by itself, and the schema has judged the value without a
fault. -/
inductive Sourced (validator : Validator) (complaint : Complaint) (v : Json) : Prop
  | intro {rounds draft base members name value k}
      (sound : (validator.judgeBy (rounds + 1) draft base (.obj members) v).fault? = none)
      (mem : (name, value) ∈ Keyword.applicable members)
      (read : Rule.ofMember draft members name value = .ok (some (.shared k)))
      (bears : complaint.keyword = k.name)
      (found : .here complaint v ∈ (k.judge validator (validator.inside rounds draft) base v).violations) :
      Sourced validator complaint v

/-- Every finding of a judging without a fault has a source, unless a schema that allows nothing or a rule of another
draft made it. -/
theorem source_of_found {v : Json} (sound : (validator.judge v).fault? = none)
    (hy : y ∈ (validator.judge v).violations) (allows : y.complaint ≠ .nothingAllowed)
    (common : y.complaint.isPeculiar = false) : Sourced validator y.complaint y.value := by
  obtain ⟨-, hsound, hmem, hread, -, hfound⟩ := (located_of_found sound hy).foundAt allows common
  exact .intro hsound hmem hread (Keyword.name_of_ofMember (Rule.keyword_of_ofMember hread)) hfound

end JsonMend
