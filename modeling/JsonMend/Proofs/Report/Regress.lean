import JsonMend.Proofs.Draft7.Beside
import JsonMend.Proofs.Draft7.Crossing
import JsonMend.Proofs.Repair.Origin
import JsonMend.Proofs.Report.Rendered
/-
  A repair does not regress.

  Of a wrong type and of undeclared properties, a repaired value should get no findings that the value did not
  have.  It does get some, because what is put in is judged as well: defaults are put in as they are
  declared, and a wrapped scalar becomes an item.  This file says of each finding on the repaired value that
  the value had it too, or which of these reasons it has (`Excused`).

  1. **From a violation to a finding** (`Covers.reported`) — where a violation covers another one that is
     shown, it is shown too, at the same place and by the same keyword.
  2. **What was replaced was reported** (`replaced_reported`) — a value in whose place another one is put does
     not have the type that its shape asks for.
  3. **The result** (`findings_known_or_excused`).
-/
namespace JsonMend

open Shape

variable {fuel fuel' : Nat} {validator : Validator} {formats : Bool} {schema v w : Json} {ledger : List Change}
  {found known own : List Finding} {y z : Violation} {f : Finding} {c : Change}
  {pending : Report.Pending} {next next' : Members}

/-! ## From a violation to a finding -/

theorem Report.undeclaredKeys_mono {declared patterns keys keys' : List String} {ms ns : Members}
    {key : String} (h : undeclaredKeys declared patterns (.obj ns) = .ok keys)
    (h' : undeclaredKeys declared patterns (.obj ms) = .ok keys') (hkey : key ∈ keys)
    (hmem : key ∈ ms.map Prod.fst) : key ∈ keys' :=
  (Keyword.mem_select h').mpr ⟨hmem, ((Keyword.mem_select h).mp hkey).2⟩

/-- A violation that covers one which is shown is shown itself. -/
theorem Violation.Covers.shown (h : z.Covers y) {own' : List Finding}
    (hown : Report.findings validator fuel next y = .ok own)
    (hown' : Report.findings validator fuel' next' z = .ok own') (hf : f ∈ own) : ∃ g, g ∈ own' := by
  cases h with
  | wrongType _ hcomplaint _ => exact Report.findings_wrongType hcomplaint hown'
  | undeclared _ hcomplaint hcomplaint' hobject hobject' hkeys =>
    rw [Report.findings_of_undeclared hcomplaint', hobject'] at hown
    obtain ⟨keys', hkeys', hshown⟩ := Report.findings_undeclared hcomplaint hown'
    rw [hobject] at hkeys'
    obtain ⟨keys, hundeclared, rfl⟩ := map_eq_ok.mp hown
    obtain ⟨key, hkey, -⟩ := List.mem_map.mp hf
    have hmem := hkeys key ((Keyword.mem_select hundeclared).mp hkey).1
    obtain ⟨g, hg, -⟩ := hshown key (Report.undeclaredKeys_mono hundeclared hkeys' hkey hmem)
    exact ⟨g, hg⟩

theorem Violation.Covers.keyword (h : z.Covers y) : z.keyword = y.keyword := by
  unfold Violation.keyword
  cases h with
  | wrongType _ hcomplaint hcomplaint' =>
    rw [hcomplaint, hcomplaint']
  | undeclared _ hcomplaint hcomplaint' =>
    rw [hcomplaint, hcomplaint']
    rfl

theorem Violation.Covers.place (h : z.Covers y) : z.place = y.place := by
  cases h with
  | wrongType hplace => exact hplace
  | undeclared hplace => exact hplace

/-- Among the findings there is one at the same place, by the same keyword. -/
def Known (known : List Finding) (f : Finding) : Prop :=
  ∃ g ∈ known, g.path = f.path ∧ g.keyword = f.keyword

/-- **A violation that covers one which is shown is reported where all violations are.** -/
theorem Violation.Covers.reported (h : z.Covers y) {violations : List Violation}
    (hz : z ∈ violations) (all : Report.allFindings validator fuel' pending violations = .ok known)
    (hown : Report.findings validator fuel next y = .ok own) (hf : f ∈ own) : Known known f := by
  obtain ⟨next', own', hown', hreported⟩ := Report.findings_of_mem all hz
  obtain ⟨g, hg⟩ := h.shown hown hown' hf
  obtain ⟨hpath, hkeyword, -⟩ := Report.shows_of_findings hown hf
  obtain ⟨hpath', hkeyword', -⟩ := Report.shows_of_findings hown' hg
  refine ⟨g, hreported g hg, ?_, ?_⟩
  · rw [hpath, hpath', h.place]
  · rw [hkeyword, hkeyword', h.keyword]

/-! ## What was replaced was reported -/

/-- A value in whose place another one is put has a wrong type, and this is reported, unless the passes went
astray on the way there. -/
theorem replaced_reported (distinct : v.Distinct)
    (compiled : Validator.compile formats schema = .ok validator)
    (repaired : (mend (ofSchema schema) v).run = .ok (w, ledger))
    (reported : validator.report v = .ok known) (hc : c ∈ ledger) (puts : c.edit.after? ≠ none)
    (stands : v.at? c.place ≠ none) : Astray schema v c.place ∨
      ∃ g ∈ known, g.path = Pointer.ofPosition c.place ∧ g.keyword = "type" := by
  obtain ⟨sound, all⟩ := Validator.report_eq_ok reported
  rw [Validator.judge_of_compile compiled] at sound all
  rcases mend_origins repaired distinct c hc with
    ⟨-, hedit, -⟩ | ⟨-, hforeign | ⟨g, x, hwalk, hmismatch⟩⟩
  · rw [hedit] at puts
    exact absurd rfl puts
  · exact absurd hforeign.at?_eq_none stands
  · rcases judged_or_astray hwalk with hastray | rfl | ⟨members, last, rfl, rfl, hlast, hjudged⟩
    · exact .inl hastray
    · cases hmismatch
    · exact .inr (type_reported sound all hjudged hlast hmismatch)

/-! ## The result -/

/-- Why a repaired value is found to violate what the value did not violate: the violation is inside a value
that was put in, or about such a value, which was put where there was nothing, or has undeclared
properties, or was put where the passes had gone astray; or it is about an object that has got a new
member; or the schemas that judge the two values are not the same, because a test comes out differently
or a property was missing; or it was found by a schema of another draft. -/
inductive Excused (validator : Validator) (schema v w : Json) (ledger : List Change) (y : Violation) :
    Prop
  | inside {c : Change} {step : Segment} {below : Position} (mem : c ∈ ledger) (puts : c.edit.after? ≠ none)
      (place : y.place = c.place ++ step :: below) : Excused validator schema v w ledger y
  | added {c : Change} (mem : c ∈ ledger) (puts : c.edit.after? ≠ none) (place : y.place = c.place)
      (absent : v.at? c.place = none) : Excused validator schema v w ledger y
  | replaced {c : Change} (mem : c ∈ ledger) (puts : c.edit.after? ≠ none) (place : y.place = c.place)
      (keyword : y.keyword = "additionalProperties") : Excused validator schema v w ledger y
  | astray {c : Change} (mem : c ∈ ledger) (puts : c.edit.after? ≠ none) (place : y.place = c.place)
      (astray : Astray schema v c.place) : Excused validator schema v w ledger y
  | grown {c : Change} {key : String} (mem : c ∈ ledger) (puts : c.edit.after? ≠ none)
      (place : c.place = y.place ++ [.key key]) (absent : v.at? c.place = none) :
      Excused validator schema v w ledger y
  | switched (switched : Switched validator (validator.fuelFor w) (validator.fuelFor v)
      validator.registry.rootUri schema v w y) : Excused validator schema v w ledger y
  | abroad (abroad : y.FoundAbroad validator ⟨validator.fuelFor w, .draft7, validator.registry.rootUri, schema, w⟩) :
      Excused validator schema v w ledger y

/-- **A repaired value gets no new finding on a type or on undeclared properties without a reason**: the value
had it too, or it shows a violation that is excused. -/
theorem findings_known_or_excused (schemaDistinct : schema.Distinct) (distinct : v.Distinct)
    (compiled : Validator.compile formats schema = .ok validator)
    (repaired : (mend (ofSchema schema) v).run = .ok (w, ledger))
    (before : validator.report v = .ok known) (after : validator.report w = .ok found) :
    ∀ f ∈ found, f.keyword = "type" ∨ f.keyword = "additionalProperties" →
      Known known f ∨
        ∃ y ∈ (validator.judge w).violations, f.Shows y ∧ Excused validator schema v w ledger y := by
  intro f hf htargeted
  have hnames : (ofSchema schema).Everywhere (KeyLists List.Nodup) :=
    everywhere_ofSchema List.nodup_nil schemaDistinct
  have hw : w.Distinct := mend_distinct hnames repaired distinct
  obtain ⟨sound, all⟩ := Validator.report_eq_ok before
  obtain ⟨sound', all'⟩ := Validator.report_eq_ok after
  rw [Validator.judge_of_compile compiled] at sound sound' all all' ⊢
  obtain ⟨y, hy, next, own, hown, hfown⟩ := Report.mem_allFindings all' hf
  have hshows := Report.shows_of_findings hown hfown
  rw [hshows.keyword] at htargeted
  rcases found_beside (mend_follows repaired distinct) hw sound' sound hy
    (Complaint.targeted_of_keyword htargeted) with ⟨z, hz, hcovers⟩ | htouched | hswitched | habroad
  · exact .inl (hcovers.reported hz all hown hfown)
  · cases htouched with
    | @below above rest hput hplace =>
      obtain ⟨c, hc, rfl, hputs⟩ := hput
      cases rest with
      | cons step below => exact .inr ⟨y, hy, hshows, .inside hc hputs hplace⟩
      | nil =>
        rw [List.append_nil] at hplace
        by_cases habsent : v.at? c.place = none
        · exact .inr ⟨y, hy, hshows, .added hc hputs hplace habsent⟩
        · rcases htargeted with htype | hadditional
          · rcases replaced_reported distinct compiled repaired before hc hputs habsent with
              hastray | ⟨g, hg, hpath, hkeyword⟩
            · exact .inr ⟨y, hy, hshows, .astray hc hputs hplace hastray⟩
            · refine .inl ⟨g, hg, ?_, ?_⟩
              · rw [hpath, hshows.path, hplace]
              · rw [hkeyword, hshows.keyword, htype]
          · exact .inr ⟨y, hy, hshows, .replaced hc hputs hplace hadditional⟩
    | grown hput habsent =>
      obtain ⟨c, hc, hplace, hputs⟩ := hput
      rw [← hplace] at habsent
      exact .inr ⟨y, hy, hshows, .grown hc hputs hplace habsent⟩
  · exact .inr ⟨y, hy, hshows, .switched hswitched⟩
  · exact .inr ⟨y, hy, hshows, .abroad habroad⟩

/-- A text stays of a wrong type, which was known; a default of a wrong type is put in, and a scalar is
wrapped as an item of a wrong type, which is excused. -/
theorem findings_known_or_excused_of_three :
    let number : Json := .obj [("type", .str "integer")]
    let schema : Json := .obj [("properties", .obj [("n", number),
      ("list", .obj [("type", .str "array"), ("items", .obj [("type", .str "object")])]),
      ("m", .obj [("type", .str "integer"), ("default", .str "x")])])]
    let v : Json := .obj [("n", .str "five"), ("list", .num (.int 5))]
    let validator := Validator.ofSchema true schema
    ∃ w ledger known found, (mend (ofSchema schema) v).run = .ok (w, ledger) ∧
      validator.report v = .ok known ∧ known.map Finding.path = ["/n", "/list"] ∧
      validator.report w = .ok found ∧ found.map Finding.path = ["/n", "/list/0", "/m"] ∧
      ∀ f ∈ found, Known known f ∨
        ∃ y ∈ (validator.judge w).violations, f.Shows y ∧ Excused validator schema v w ledger y := by
  intro number schema v validator
  let w : Json := .obj [("n", .str "five"), ("list", .arr [.num (.int 5)]), ("m", .str "x")]
  have hcompiled : Validator.compile true schema = .ok validator :=
    Validator.compile_of_isSome (by decide +kernel)
  have hmend : (mend (ofSchema schema) v).run.toOption.map Prod.fst = some w := by decide +kernel
  have hbefore : (validator.report v).toOption.map (·.map Finding.path) = some ["/n", "/list"] := by
    decide +kernel
  have hafter : (validator.report w).toOption.map
      (·.map fun f => (f.path, f.keyword)) =
      some [("/n", "type"), ("/list/0", "type"), ("/m", "type")] := by
    decide +kernel
  obtain ⟨⟨_, ledger⟩, hrun, rfl⟩ := ok_of_toOption_map hmend
  obtain ⟨known, hknown, hpaths⟩ := ok_of_toOption_map hbefore
  obtain ⟨found, hfound, hshown⟩ := ok_of_toOption_map hafter
  have hpaths' : found.map Finding.path = ["/n", "/list/0", "/m"] := by
    have hfirst := congrArg (List.map Prod.fst) hshown
    rw [List.map_map] at hfirst
    exact hfirst
  refine ⟨w, ledger, known, found, hrun, hknown, hpaths, hfound, hpaths', fun f hf => ?_⟩
  refine findings_known_or_excused (by decide +kernel) (by decide +kernel) hcompiled hrun hknown hfound
    f hf (.inl ?_)
  have hpair : (f.path, f.keyword) ∈ found.map fun f => (f.path, f.keyword) := List.mem_map_of_mem hf
  rw [hshown] at hpair
  have htypes : ∀ p ∈ [("/n", "type"), ("/list/0", "type"), ("/m", "type")], p.2 = "type" := by decide
  exact htypes _ hpair

/-- A repaired value has a finding at a place, by a keyword, that the value has not. -/
def Regresses (schema v : Json) (keyword path : String) : Prop :=
  ∃ validator w ledger known found, Validator.compile true schema = .ok validator ∧
    (mend (ofSchema schema) v).run = .ok (w, ledger) ∧ validator.report v = .ok known ∧
    validator.report w = .ok found ∧ (∃ f ∈ found, f.path = path ∧ f.keyword = keyword) ∧
    ∀ g ∈ known, ¬ (g.path = path ∧ g.keyword = keyword)

/-- What is reported, by place and keyword. -/
def Validator.reportedPairs (validator : Validator) (v : Json) : Option (List (String × String)) :=
  (validator.report v).toOption.map (·.map fun f => (f.path, f.keyword))

/-- What is reported on a value and on the repaired value shows that the repair regresses. -/
theorem regresses_of_pairs {keyword path : String} (w : Json) (before after : List (String × String))
    (compiles : (Validator.compile true schema).toOption.isSome = true)
    (repairs : (mend (ofSchema schema) v).run.toOption.map Prod.fst = some w)
    (reports : (Validator.ofSchema true schema).reportedPairs v = some before)
    (reports' : (Validator.ofSchema true schema).reportedPairs w = some after)
    (new : (path, keyword) ∈ after ∧ (path, keyword) ∉ before) : Regresses schema v keyword path := by
  obtain ⟨⟨_, ledger⟩, hrun, rfl⟩ := ok_of_toOption_map repairs
  obtain ⟨known, hknown, rfl⟩ := ok_of_toOption_map reports
  obtain ⟨found, hfound, rfl⟩ := ok_of_toOption_map reports'
  obtain ⟨hnew, hold⟩ := new
  refine ⟨_, _, ledger, known, found, Validator.compile_of_isSome compiles, hrun, hknown, hfound, ?_, ?_⟩
  · obtain ⟨f, hf, heq⟩ := List.mem_map.mp hnew
    obtain ⟨hpath, hkeyword⟩ := Prod.mk.inj heq
    exact ⟨f, hf, hpath, hkeyword⟩
  · rintro g hg ⟨rfl, rfl⟩
    exact hold (List.mem_map.mpr ⟨g, hg, rfl⟩)

/-- A repair regresses: by a default of a wrong type, by a scalar that is wrapped as an item, by a default with
an undeclared property, by a new member that another schema does not declare, beside a reference, behind
a test that is met only then, and behind a dependency on a property that was missing. -/
theorem repair_regresses :
    let number : Json := .obj [("type", .str "integer")]
    let text : Json := .obj [("type", .str "string")]
    let given : Json := .obj [("default", .num (.int 1))]
    let b : Json := .obj [("properties", .obj [("b", text)])]
    Regresses (.obj [("properties", .obj [("a", .obj [("type", .str "integer"),
        ("default", .str "x")])])]) (.obj []) "type" "/a" ∧
      Regresses (.obj [("type", .str "array"), ("items", .obj [("type", .str "object")])])
        (.num (.int 5)) "type" "/0" ∧
      Regresses (.obj [("properties", .obj [("a", .obj [("properties", .obj [("k", .obj [])]),
        ("additionalProperties", .bool false), ("type", .str "object"),
        ("default", .obj [("z", .num (.int 1))])])])]) (.obj [("a", .num (.int 5))])
        "additionalProperties" "/a" ∧
      Regresses (.obj [("allOf", .arr [.obj [("additionalProperties", .bool false)]]),
        ("properties", .obj [("a", given)])]) (.obj []) "additionalProperties" "/" ∧
      Regresses (.obj [("properties", .obj [("a", .obj [("$ref", .str "#/definitions/s"),
        ("type", .str "integer")])]), ("definitions", .obj [("s", text)])])
        (.obj [("a", .str "5")]) "type" "/a" ∧
      Regresses (.obj [("properties", .obj [("a", number)]),
        ("if", .obj [("properties", .obj [("a", number)])]), ("then", b)])
        (.obj [("a", .str "5"), ("b", .null)]) "type" "/b" ∧
      Regresses (.obj [("properties", .obj [("a", given)]), ("dependencies", .obj [("a", b)])])
        (.obj [("b", .null)]) "type" "/b" := by
  intro number text given b
  refine ⟨?_, ?_, ?_, ?_, ?_, ?_, ?_⟩
  · exact regresses_of_pairs (.obj [("a", .str "x")]) [] [("/a", "type")] (by decide +kernel)
      (by decide +kernel) (by decide +kernel) (by decide +kernel) (by decide)
  · exact regresses_of_pairs (.arr [.num (.int 5)]) [("/", "type")] [("/0", "type")]
      (by decide +kernel) (by decide +kernel) (by decide +kernel) (by decide +kernel) (by decide)
  · exact regresses_of_pairs (.obj [("a", .obj [("z", .num (.int 1))])]) [("/a", "type")]
      [("/a", "additionalProperties")] (by decide +kernel) (by decide +kernel) (by decide +kernel)
      (by decide +kernel) (by decide)
  · exact regresses_of_pairs (.obj [("a", .num (.int 1))]) [] [("/", "additionalProperties")]
      (by decide +kernel) (by decide +kernel) (by decide +kernel) (by decide +kernel) (by decide)
  · exact regresses_of_pairs (.obj [("a", .num (.int 5))]) [] [("/a", "type")] (by decide +kernel)
      (by decide +kernel) (by decide +kernel) (by decide +kernel) (by decide)
  · exact regresses_of_pairs (.obj [("a", .num (.int 5)), ("b", .null)]) [("/a", "type")]
      [("/b", "type")] (by decide +kernel) (by decide +kernel) (by decide +kernel) (by decide +kernel)
      (by decide)
  · exact regresses_of_pairs (.obj [("b", .null), ("a", .num (.int 1))]) [] [("/b", "type")]
      (by decide +kernel) (by decide +kernel) (by decide +kernel) (by decide +kernel) (by decide)

end JsonMend
