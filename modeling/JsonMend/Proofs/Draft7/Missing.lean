import JsonMend.Proofs.Draft7.Distinct
import JsonMend.Proofs.Draft7.Way
import JsonMend.Proofs.Pointer.Place
/-
  Where something missing is found, as long as all schemas are of draft-07.

  1. **Who misses something** (`asks_of_missing`) — only `required` and `dependencies` do, and only of an object.
  2. **The first step in the schema** (`Keyword.leads_of_found`) — the way from a schema to the keyword that
     misses something begins with the name of the keyword that passes it on, or with that of the schema
     that a test selects.  A reference adds no step, but it stands alone in its schema.
  3. **Two ways in one schema** (`place_length_eq`) — by induction on the rounds: where two ways through the
     schema read alike, they go through the same keywords, so they lead down equally many steps in the
     values.  So the steps in the schema tell how deep in the value something is missing.
-/
namespace JsonMend

variable {validator : Validator} {sub : Judge} {base inside : String} {k k' : Keyword}
  {v v' x schema : Json} {steps schemaSteps : Position} {y y' : Violation} {members : Members}
  {rounds : Nat}

/-! ## Who misses something -/

/-- A violation is about something missing. -/
abbrev Violation.isMissing (y : Violation) : Bool := y.complaint.isMissing

/-- The two keywords that miss something. -/
theorem Complaint.isMissing_iff {c : Complaint} :
    c.isMissing = true ↔ c.keyword = "required" ∨ c.keyword = "dependencies" := by
  cases c with
  | missingProperty | missingDependency => simp [isMissing, keyword]
  | nothingAllowed | wrongType | notInEnum | notConst | outOfBounds | notMultiple | wrongCount
  | repeatedItems | patternUnmatched | formatUnmet | undeclared | surplusItems | nothingContained
  | noneOfAny | noneOfOne | noBranches | severalOfOne | forbidden | notBeyond | notDivisible | disallowed =>
    simp [isMissing, keyword]

theorem Violation.not_missing_of_refused (h : y.complaint = .nothingAllowed) : y.isMissing = false := by
  rw [isMissing, h]
  rfl

namespace Keyword

/-- A keyword asks for names to be present. -/
inductive Asks : Keyword → Prop
  | required (names : List String) : Asks (.required names)
  | dependencies (entries : List (String × Dependency)) : Asks (.dependencies entries)

/-- Only two keywords miss something. -/
theorem asks_of_missing (missing : y.isMissing = true) (name : y.keyword = k.name) : k.Asks := by
  have hname : k.name = "required" ∨ k.name = "dependencies" := by
    rw [← name]
    exact Complaint.isMissing_iff.mp missing
  cases k with
  | required names => exact .required names
  | dependencies entries => exact .dependencies entries
  | reference | type | enum | const | bound | multipleOf | count | uniqueItems | pattern | format
  | properties | patternProperties | propertyNames | additionalProperties | items | itemsInTurn
  | additionalItems | contains | allOf | anyOf | oneOf | forbid | conditional =>
    simp [Keyword.name] at hname

end Keyword

/-- Nothing is missing from a string. -/
theorem not_missing_of_str {s : String} (native : validator.drafts = [])
    (sound : (validator.judgeWith rounds base schema (.str s)).fault? = none)
    (hy : y ∈ (validator.judgeWith rounds base schema (.str s)).violations) : y.isMissing = false := by
  cases located_of_found sound hy with
  | refused h =>
    obtain ⟨-, hrefused⟩ := h
    exact Violation.not_missing_of_refused hrefused
  | peculiar h =>
    obtain ⟨way, habroad, -, -, -⟩ := h
    exact absurd (way.native native rfl) habroad
  | keyword h =>
    obtain ⟨way, -, -, hread, -, hfound⟩ := h
    refine eq_false_of_ne_true fun hmissing => ?_
    have hvalue : y.value = .str s := (way.stays_at_text rfl).2
    rw [hvalue] at hfound
    cases Keyword.asks_of_missing hmissing (Keyword.name_of_ofMember (Rule.keyword_of_ofMember hread)) with
    | required | dependencies => cases hfound

/-! ## The first step in the schema -/

namespace Keyword

/-- The first steps from a schema to what a keyword passes on; a reference adds none. -/
def leads : Keyword → List String
  | .reference _ => []
  | .conditional _ _ _ => ["then", "else"]
  | k => [k.name]

/-- What a keyword finds missing is below one of its first steps. -/
theorem leads_of_found (noReference : ∀ target, k ≠ .reference target)
    (sound : (k.judge validator sub base v).fault? = none)
    (hy : y ∈ (k.judge validator sub base v).violations) (missing : y.isMissing = true) :
    ∃ t ∈ k.leads, ∃ rest, (k.step ++ y.schemaPlace).map Segment.text = t :: rest := by
  cases k with
  | reference target => exact absurd rfl (noReference target)
  | conditional test whenMet whenUnmet =>
    cases found_by sound hy with
    | own _ hname => cases asks_of_missing missing hname
    | refused hcomplaint =>
      cases (Violation.not_missing_of_refused hcomplaint).symm.trans missing
    | entered henters _ _ habove =>
      subst habove
      cases henters with
      | whenMet => exact ⟨"then", List.mem_cons_self, _, rfl⟩
      | whenUnmet => exact ⟨"else", List.mem_cons_of_mem _ List.mem_cons_self, _, rfl⟩
  | type | enum | const | bound | multipleOf | count | uniqueItems | pattern | format | required
  | properties | patternProperties | propertyNames | additionalProperties | items | itemsInTurn
  | additionalItems | contains | dependencies | allOf | anyOf | oneOf | forbid =>
    exact ⟨_, List.mem_cons_self, _, rfl⟩

/-- The name of the keyword that a first step belongs to. -/
def ownerOf (lead : String) : String := if lead = "then" ∨ lead = "else" then "if" else lead

theorem name_not_consequence (k : Keyword) : ¬ (k.name = "then" ∨ k.name = "else") := by
  cases k with
  | reference | type | enum | const | bound | multipleOf | count | uniqueItems | pattern | format
  | required | properties | patternProperties | propertyNames | additionalProperties | items
  | itemsInTurn | additionalItems | contains | dependencies | allOf | anyOf | oneOf | forbid
  | conditional => simp [Keyword.name]

theorem ownerOf_leads {lead : String} (h : lead ∈ k.leads) : ownerOf lead = k.name := by
  have hown : lead = k.name → ownerOf lead = k.name := by
    rintro rfl
    exact if_neg (name_not_consequence k)
  cases k with
  | reference => cases h
  | conditional =>
    rcases List.mem_cons.mp h with rfl | h
    · rfl
    · rw [List.mem_singleton.mp h]
      rfl
  | type | enum | const | bound | multipleOf | count | uniqueItems | pattern | format | required
  | properties | patternProperties | propertyNames | additionalProperties | items | itemsInTurn
  | additionalItems | contains | dependencies | allOf | anyOf | oneOf | forbid =>
    exact hown (List.mem_singleton.mp h)

end Keyword

/-- A reference stands alone. -/
theorem applicable_of_reference {target name : String} {value : Json}
    (distinct : (Json.obj members).Distinct) (hmem : (name, value) ∈ Keyword.applicable members)
    (hk : Keyword.ofMember members name value = .ok (some (.reference target))) :
    Keyword.applicable members = [(name, value)] := by
  cases Keyword.name_of_ofMember hk
  obtain ⟨t, hvalue, -⟩ := Option.map_eq_some_iff.mp (Keyword.read?_of_ofMember hk)
  have hlookup : members.lookup "$ref" = some value :=
    lookup_of_mem distinct.keys (Validator.mem_of_applicable hmem)
  cases value with
  | str s =>
    unfold Keyword.applicable
    simp only [hlookup]
    rfl
  | null | bool | num | arr | obj => cases hvalue

/-- Two keywords of a schema below whose first steps the same is found are one. -/
theorem keyword_eq_of_texts {name name' : String} {value value' : Json}
    (distinct : (Json.obj members).Distinct)
    (hmem : (name, value) ∈ Keyword.applicable members)
    (hmem' : (name', value') ∈ Keyword.applicable members)
    (hk : Keyword.ofMember members name value = .ok (some k))
    (hk' : Keyword.ofMember members name' value' = .ok (some k'))
    (sound : (k.judge validator sub base v).fault? = none)
    (sound' : (k'.judge validator sub base v').fault? = none)
    (hy : y ∈ (k.judge validator sub base v).violations)
    (hy' : y' ∈ (k'.judge validator sub base v').violations)
    (missing : y.isMissing = true) (missing' : y'.isMissing = true)
    (texts : (k.step ++ y.schemaPlace).map Segment.text = (k'.step ++ y'.schemaPlace).map Segment.text) :
    k = k' := by
  have hsame : name = name' → k = k' := by
    rintro rfl
    have hlookup := lookup_of_mem distinct.keys (Validator.mem_of_applicable hmem)
    have hlookup' := lookup_of_mem distinct.keys (Validator.mem_of_applicable hmem')
    cases hlookup.symm.trans hlookup'
    cases hk.symm.trans hk'
    rfl
  by_cases href : ∃ target, k = .reference target
  · obtain ⟨target, rfl⟩ := href
    rw [applicable_of_reference distinct hmem hk] at hmem'
    cases List.mem_singleton.mp hmem'
    exact hsame rfl
  by_cases href' : ∃ target, k' = .reference target
  · obtain ⟨target, rfl⟩ := href'
    rw [applicable_of_reference distinct hmem' hk'] at hmem
    cases List.mem_singleton.mp hmem
    exact hsame rfl
  obtain ⟨lead, hlead, rest, htexts⟩ := Keyword.leads_of_found (not_exists.mp href) sound hy missing
  obtain ⟨lead', hlead', rest', htexts'⟩ := Keyword.leads_of_found (not_exists.mp href') sound' hy' missing'
  rw [htexts, htexts', List.cons.injEq] at texts
  refine hsame ?_
  rw [Keyword.name_of_ofMember hk, Keyword.name_of_ofMember hk', ← Keyword.ownerOf_leads hlead,
    ← Keyword.ownerOf_leads hlead', texts.1]

/-! ## Two ways in one schema -/

theorem texts_cons_inj {s s' : Segment} {p p' : Position}
    (h : (s :: p).map Segment.text = (s' :: p').map Segment.text) :
    s.text = s'.text ∧ p.map Segment.text = p'.map Segment.text := List.cons.inj h

/-- Two entrances of one keyword that read alike in the schema lead to one schema, equally deep in the
values. -/
theorem Keyword.Enters.same {inside' : String} {schema' x' : Json} {steps' schemaSteps' p p' : Position}
    (h : k.Enters validator sub base v inside schema steps schemaSteps x)
    (h' : k.Enters validator sub base v' inside' schema' steps' schemaSteps' x') (distinct : k.Distinct)
    (texts : (schemaSteps ++ p).map Segment.text = (schemaSteps' ++ p').map Segment.text) :
    inside = inside' ∧ schema = schema' ∧ steps.length = steps'.length ∧
      p.map Segment.text = p'.map Segment.text := by
  cases h with
  | reference hresolved =>
    cases h' with
    | reference hresolved' =>
      cases hresolved.symm.trans hresolved'
      exact ⟨rfl, rfl, rfl, texts⟩
  | property hdeclared =>
    cases h' with
    | property hdeclared' =>
      obtain ⟨hname, hrest⟩ := texts_cons_inj texts
      cases hname
      cases (lookup_of_mem distinct.keys hdeclared).symm.trans (lookup_of_mem distinct.keys hdeclared')
      exact ⟨rfl, rfl, rfl, hrest⟩
  | pattern hdeclared =>
    cases h' with
    | pattern hdeclared' =>
      obtain ⟨hname, hrest⟩ := texts_cons_inj texts
      cases hname
      cases (lookup_of_mem distinct.keys hdeclared).symm.trans (lookup_of_mem distinct.keys hdeclared')
      exact ⟨rfl, rfl, rfl, hrest⟩
  | name => cases h' with | name => exact ⟨rfl, rfl, rfl, texts⟩
  | additional => cases h' with | additional => exact ⟨rfl, rfl, rfl, texts⟩
  | item => cases h' with | item => exact ⟨rfl, rfl, rfl, texts⟩
  | itemInTurn _ hdeclared =>
    cases h' with
    | itemInTurn _ hdeclared' =>
      obtain ⟨hindex, hrest⟩ := texts_cons_inj texts
      cases index_eq_of_text hindex
      cases hdeclared.symm.trans hdeclared'
      exact ⟨rfl, rfl, rfl, hrest⟩
  | additionalItem => cases h' with | additionalItem => exact ⟨rfl, rfl, rfl, texts⟩
  | dependency hmem =>
    cases h' with
    | dependency hmem' =>
      obtain ⟨hname, hrest⟩ := texts_cons_inj texts
      cases hname
      cases (lookup_of_mem distinct.1 hmem).symm.trans (lookup_of_mem distinct.1 hmem')
      exact ⟨rfl, rfl, rfl, hrest⟩
  | branch hdeclared =>
    cases h' with
    | branch hdeclared' =>
      obtain ⟨hindex, hrest⟩ := texts_cons_inj texts
      cases index_eq_of_text hindex
      cases hdeclared.symm.trans hdeclared'
      exact ⟨rfl, rfl, rfl, hrest⟩
  | whenMet =>
    cases h' with
    | whenMet => exact ⟨rfl, rfl, rfl, (texts_cons_inj texts).2⟩
    | whenUnmet => exact absurd (texts_cons_inj texts).1 (by decide)
  | whenUnmet =>
    cases h' with
    | whenMet => exact absurd (texts_cons_inj texts).1 (by decide)
    | whenUnmet => exact ⟨rfl, rfl, rfl, (texts_cons_inj texts).2⟩

/-- Where a keyword misses something by itself, what it passes on has steps of its own in the schema. -/
theorem Keyword.Enters.schemaSteps_ne_nil (asks : k.Asks)
    (enters : k.Enters validator sub base v inside schema steps schemaSteps x) : schemaSteps ≠ [] := by
  cases asks with
  | required => cases enters
  | dependencies => cases enters with | dependency => exact List.cons_ne_nil _ _

/-- What a keyword misses by itself does not read in the schema like what it passes on. -/
theorem Keyword.own_texts_ne (own : y = .here y.complaint v) (asks : k.Asks)
    (enters : k.Enters validator sub base v' inside schema steps schemaSteps x) (inner : Violation) :
    y.schemaPlace.map Segment.text ≠ (inner.under steps schemaSteps).schemaPlace.map Segment.text := by
  rw [own]
  intro heq
  have hnil := List.map_eq_nil_iff.mp heq.symm
  exact enters.schemaSteps_ne_nil asks (List.append_eq_nil_iff.mp hnil).1

/-- **The steps in the schema tell how deep in the value something is missing.** -/
theorem place_length_eq (native : validator.drafts = []) (registry : validator.registry.Distinct)
    (distinct : schema.Distinct)
    (sound : (validator.judgeWith rounds base schema v).fault? = none)
    (sound' : (validator.judgeWith rounds base schema v').fault? = none)
    (hy : y ∈ (validator.judgeWith rounds base schema v).violations)
    (hy' : y' ∈ (validator.judgeWith rounds base schema v').violations)
    (missing : y.isMissing = true) (missing' : y'.isMissing = true)
    (texts : y.schemaPlace.map Segment.text = y'.schemaPlace.map Segment.text) :
    y.place.length = y'.place.length := by
  induction rounds generalizing base schema v v' y y' with
  | zero => cases sound
  | succ rounds ih =>
    cases schema with
    | obj members =>
      obtain ⟨name, value, k, z, hmem, hk, hz, rfl⟩ := Validator.keyword_of_found hy
      obtain ⟨name', value', k', z', hmem', hk', hz', rfl⟩ := Validator.keyword_of_found hy'
      obtain ⟨hsound, -⟩ := Validator.keyword_judged_of_read hmem hk sound
      obtain ⟨hsound', -⟩ := Validator.keyword_judged_of_read hmem' hk' sound'
      cases keyword_eq_of_texts distinct hmem hmem' hk hk' hsound hsound' hz hz' missing missing' texts
      have hbelow : z.schemaPlace.map Segment.text = z'.schemaPlace.map Segment.text := by
        have htexts : (k.step ++ z.schemaPlace).map Segment.text =
          (k.step ++ z'.schemaPlace).map Segment.text := texts
        rw [List.map_append, List.map_append] at htexts
        exact List.append_cancel_left htexts
      show z.place.length = z'.place.length
      cases Keyword.found_by hsound hz with
      | refused hcomplaint => cases (Violation.not_missing_of_refused hcomplaint).symm.trans missing
      | own hhere hname =>
        cases Keyword.found_by hsound' hz' with
        | refused hcomplaint => cases (Violation.not_missing_of_refused hcomplaint).symm.trans missing'
        | own hhere' =>
          rw [hhere, hhere']
          rfl
        | @entered _ _ _ _ _ inner henters _ _ habove =>
          rw [habove] at hbelow
          exact absurd hbelow
            (Keyword.own_texts_ne hhere (Keyword.asks_of_missing missing hname) henters inner)
      | @entered _ _ _ _ _ inner henters hinside hinner habove =>
        cases Keyword.found_by hsound' hz' with
        | refused hcomplaint => cases (Violation.not_missing_of_refused hcomplaint).symm.trans missing'
        | own hhere' hname' =>
          rw [habove] at hbelow
          exact absurd hbelow.symm
            (Keyword.own_texts_ne hhere' (Keyword.asks_of_missing missing' hname') henters inner)
        | entered henters' hinside' hinner' habove' =>
          have hkeyword := Keyword.distinct_of_ofMember distinct (Validator.mem_of_applicable hmem) hk
          have hschema := henters.schema_distinct registry hkeyword
          rw [Validator.inner_of_native native] at hinside hinside' hinner hinner'
          subst habove habove'
          obtain ⟨rfl, rfl, hlength, hrest⟩ := henters.same henters' hkeyword hbelow
          have hinnerLength := ih hschema hinside hinside' hinner hinner' missing missing' hrest
          simp only [Violation.under, List.length_append, hlength, hinnerLength]
    | bool b =>
      cases b with
      | true => cases hy
      | false =>
        rw [List.mem_singleton.mp hy] at missing
        cases missing
    | null | num | str | arr => cases sound

end JsonMend
