import JsonMend.Proofs.Draft7.Plain
import JsonMend.Proofs.Repair.Settled
import JsonMend.Proofs.Report.Naming
/-
  What is still wrong with a repaired value.

  Under a plain schema whose defaults are stable, everything that is reported on a repaired value is
  something that a repair may not mend (`Unfixable`).

  1. **From a finding to a place** — a finding shows a violation, and under a plain schema that is a
     complaint about the value at its place, told by the shape there (`found_plain`).
  2. **What the passes left at that place** (`mend_settled`) — each complaint is held against the pass that
     would have mended it: a forbidden key against pruning, a wrong type against coercing, a missing
     property against filling.
  3. **Below a wrong type** — coercing does not enter a value of a wrong type, so below one nothing is known
     of types.  But that value is complained about in turn (`type_found_above`), less deep in the schema
     (`Plain.schemaPlace_length`), so by another finding.
-/
namespace JsonMend

open Shape

/-- A finding about a repaired value that a repair may not mend, with the violation that it shows.  A wrong type may be
left below another one: at a place that lies strictly inside a value of which another finding says that it is of a wrong
type. -/
inductive Unfixable (validator : Validator) (root : Shape) (w : Json) (found : List Finding) (f : Finding)
    (y : Violation) : Prop
  | required {g ms name} (governed : descend (some root) y.place = .ok (some g))
      (stands : w.at? y.place = some (.obj ms)) (keyword : f.keyword = "required")
      (params : f.params = [("missingProperty", .str name)])
      (unlicensed : ∀ sub, g.properties.lookup name = some sub → sub.fallback = none ∧
        sub.types.contains "object" = false ∧ sub.types.contains "array" = false) :
      Unfixable validator root w found f y
  | type {g x} (governed : descend (some root) y.place = .ok (some g)) (stands : w.at? y.place = some x)
      (keyword : f.keyword = "type")
      (stuck : x.isScalar = true → ∀ name ∈ g.types, Coerce.toTypeNamed name x = .ok none) :
      Unfixable validator root w found f y
  | typeBelow {above step below x other z} (place : y.place = above ++ step :: below)
      (stands : w.at? y.place = some x) (keyword : f.keyword = "type") (reported : other ∈ found)
      (differs : other ≠ f) (mem : z ∈ (validator.judge w).violations) (shows : other.Shows z)
      (abovePlace : z.place = above) (aboveKeyword : other.keyword = "type") :
      Unfixable validator root w found f y
  | additionalProperties {g ms} (governed : descend (some root) y.place = .ok (some g))
      (stands : w.at? y.place = some (.obj ms)) (keyword : f.keyword = "additionalProperties")
      (noProperty : g.properties = []) : Unfixable validator root w found f y

variable {fuel : Nat} {validator : Validator} {members last : Members} {v w x : Json} {place above : Position}
  {s g : Shape} {found : List Finding}

/-! ## What the passes left -/

/-- What is missing in a filled object, nothing licenses a value for. -/
theorem unlicensed_of_filled {ms : Members} {name : String} {sub : Shape}
    (h : Filled g (.obj ms)) (absent : hasKey ms name = false)
    (required : name ∈ g.required) (hlookup : g.properties.lookup name = some sub) :
    sub.fallback = none ∧ sub.types.contains "object" = false ∧
      sub.types.contains "array" = false := by
  have hmem := mem_keys_of_lookup hlookup
  rcases h ms rfl (isObject_of_mem_properties hmem) _ hmem with hpresent | hgap
  · exact absurd hpresent (hasKey_eq_false_iff.mp absent)
  · cases hgap with
    | left hnone hunlicensed =>
      exact ⟨hnone, hunlicensed (List.contains_iff_mem.mpr required)⟩

/-- A pruned object under a closed shape has declared keys only, where the shape declares any by name
and none by pattern. -/
theorem declared_of_pruned {ms : Members} {key : String} (h : Pruned g (.obj ms))
    (closed : g.closed = true) (noPattern : g.patterns = []) (hkey : key ∈ ms.map Prod.fst)
    (undeclared : key ∉ g.properties.map Prod.fst) : g.properties = [] := by
  cases hproperties : g.properties with
  | nil => rfl
  | cons e rest =>
    have hmem : e ∈ g.properties := by
      rw [hproperties]
      exact List.mem_cons_self
    have hnames : g.namesKeys = true := by simp [namesKeys, hproperties]
    have hdeclares : g.declares key = .ok false := by
      rw [declares, hasKey_eq_false_iff.mpr undeclared, if_neg Bool.false_ne_true, noPattern]
      rfl
    have hforbids := Prune.forbids_eq_true.mpr ⟨closed, hnames, hdeclares⟩
    rw [h ms rfl (isObject_of_mem_properties hmem) key hkey] at hforbids
    cases hforbids

/-- A coerced value that is complained about cannot be turned into any of the types. -/
theorem stuck_of_coerced (h : Coerced g x) (mismatch : g.types.any x.isOfTypeNamed = false) :
    ∀ name ∈ g.types, Coerce.toTypeNamed name x = .ok none := by
  rcases h with hadmits | hfailed
  · rw [admits, mismatch, Bool.or_false, List.isEmpty_iff] at hadmits
    rw [hadmits]
    exact fun _ hname => absurd hname List.not_mem_nil
  · exact Coerce.firstSuccess_eq_none.mp hfailed

/-! ## Below a wrong type -/

/-- Where the judging goes down past a value of a wrong type, that value violates the types. -/
theorem type_found_above {rounds : Nat} {base : String} {step : Segment} {below : Position}
    (plain : Plain (.obj members)) (distinct : (Json.obj members).Distinct)
    (sound : (validator.judgeWith rounds base (.obj members) w).fault? = none)
    (hjudged : Judged members w (above ++ step :: below) last x)
    (hwalk : (ofSchema (.obj members)).Walk w above g v) (mismatch : g.admits v = false) :
    ∃ names, ∃ z ∈ (validator.judgeWith rounds base (.obj members) w).violations,
      z.place = above ∧ z.complaint = .wrongType names := by
  obtain ⟨middle, u, hmiddle⟩ := hjudged.above
  obtain ⟨hwalk', hplain⟩ := hmiddle.walk plain distinct
  -- both ways lead to the same place, so to the same value and the same shape
  obtain ⟨hshape, hvalue⟩ := hwalk'.unique hwalk
  rw [← hvalue, ← hshape] at mismatch
  exact type_violated sound hmiddle hplain.no_reference mismatch

/-- The number of steps that a plain schema takes beside steps in the value: two to a property, one to the items. -/
def stepsBeside : Position → Nat
  | [] => 0
  | .key _ :: rest => stepsBeside rest + 2
  | .index _ :: rest => stepsBeside rest + 1

theorem stepsBeside_append (above below : Position) :
    stepsBeside (above ++ below) = stepsBeside above + stepsBeside below := by
  induction above with
  | nil => exact (Nat.zero_add _).symm
  | cons step rest ih =>
    cases step <;>
    · rw [List.cons_append, stepsBeside, stepsBeside, ih]
      exact Nat.add_right_comm _ _ _

theorem stepsBeside_lt {step : Segment} {below : Position} : stepsBeside above < stepsBeside (above ++ step :: below) := by
  rw [stepsBeside_append]
  cases step <;> exact Nat.lt_add_of_pos_right (Nat.succ_pos _)

/-- A plain schema enters the schemas of its properties and of its items. -/
theorem Plain.entered {name inside : String} {value v sub : Json} {k : Keyword} {judge : Judge} {base : String}
    {steps schemaSteps : Position} (h : Plain (.obj members)) (distinct : (Json.obj members).Distinct)
    (hmem : (name, value) ∈ members) (hk : Keyword.ofMember members name value = .ok (some k))
    (enters : k.Enters validator judge base v inside sub steps schemaSteps x) :
    (Plain sub ∧ sub.Distinct) ∧ (k.step ++ schemaSteps).length = stepsBeside steps := by
  have hlookup : members.lookup name = some value := lookup_of_mem distinct.keys hmem
  have hvalue : value.Distinct := distinct.lookup hlookup
  have hname := h.keyword_of_mem hmem
  simp only [plainKeywords, List.mem_cons, List.not_mem_nil, or_false] at hname
  rcases hname with rfl | rfl | rfl | rfl | rfl | rfl
  · -- type
    cases typesIn_of_ofMember hk
    cases enters
  · -- properties
    cases value with
    | obj ps =>
      cases hk
      cases enters with
      | property hdeclared =>
        exact ⟨⟨h.of_property hlookup hdeclared, hvalue.mem hdeclared⟩, rfl⟩
    | null | bool | num | str | arr => cases hk
  · -- items
    obtain ⟨ms, rfl⟩ := (h.of_items hlookup).direct.members_of
    cases hk
    cases enters with
    | item => exact ⟨⟨h.of_items hlookup, hvalue⟩, rfl⟩
  · -- required
    cases required_of_ofMember hk
    cases enters
  · -- additionalProperties
    cases h with
    | intro _ _ _ hadditional =>
      have hbool := hadditional value hlookup
      cases additional_of_ofMember hk
      cases enters
      cases hbool
  · -- default
    cases hk

/-- A way along a plain schema stays with draft-07, and takes its steps beside steps in the value. -/
theorem Way.along_plain {start stop : Stand} {schemaPlace : Position}
    (h : Way validator start place schemaPlace stop) (draft : start.draft = .draft7) (plain : Plain start.schema)
    (distinct : start.schema.Distinct) : stop.draft = .draft7 ∧ schemaPlace.length = stepsBeside place := by
  induction h with
  | here => exact ⟨draft, rfl⟩
  | down hmem hr henters _ ih =>
    cases (draft : _ = Draft.draft7)
    obtain ⟨k, rfl, hk⟩ := Rule.shared_of_draft7 hr
    cases henters with
    | shared henters =>
      obtain ⟨⟨hplain, hdistinct⟩, hlength⟩ :=
        plain.entered distinct (Validator.mem_of_applicable hmem) hk henters
      obtain ⟨hdraft, hrest⟩ := ih (Validator.draftOf_of_home hplain.home) hplain hdistinct
      refine ⟨hdraft, ?_⟩
      rw [List.length_append, hrest, stepsBeside_append]
      exact congrArg (· + _) hlength

/-- What a plain schema finds about a type is as deep inside it as the steps in the value take it. -/
theorem Plain.schemaPlace_length {rounds : Nat} {base : String} {y : Violation} {names : List String}
    (plain : Plain (.obj members)) (distinct : (Json.obj members).Distinct)
    (sound : (validator.judgeWith rounds base (.obj members) w).fault? = none)
    (hy : y ∈ (validator.judgeWith rounds base (.obj members) w).violations)
    (complaint : y.complaint = .wrongType names) : y.schemaPlace.length = stepsBeside y.place + 1 := by
  cases located_of_found sound hy with
  | keyword h =>
    obtain ⟨way, -, -, -, hplace, -⟩ := h
    rw [hplace, List.length_append, (way.along_plain rfl plain distinct).2]
    rfl
  | peculiar h =>
    obtain ⟨way, habroad, -⟩ := h
    exact absurd (way.along_plain rfl plain distinct).1 habroad
  | refused h =>
    obtain ⟨-, hrefused⟩ := h
    cases complaint.symm.trans hrefused

/-- So two findings about types differ where the one is about a value inside the other's. -/
theorem Plain.ne_of_below {rounds : Nat} {base : String} {y z : Violation} {names names' : List String}
    {f other : Finding} {step : Segment} {below : Position} (plain : Plain (.obj members))
    (distinct : (Json.obj members).Distinct)
    (sound : (validator.judgeWith rounds base (.obj members) w).fault? = none)
    (hy : y ∈ (validator.judgeWith rounds base (.obj members) w).violations) (ytype : y.complaint = .wrongType names)
    (hz : z ∈ (validator.judgeWith rounds base (.obj members) w).violations) (ztype : z.complaint = .wrongType names')
    (yshows : f.Shows y) (zshows : other.Shows z) (place : y.place = z.place ++ step :: below) : other ≠ f := by
  rintro rfl
  have htexts := Pointer.texts_of_schemaFragment (zshows.schemaPath.symm.trans yshows.schemaPath)
  have hlength := congrArg List.length htexts
  rw [List.length_map, List.length_map, plain.schemaPlace_length distinct sound hz ztype,
    plain.schemaPlace_length distinct sound hy ytype, place] at hlength
  exact absurd (Nat.succ.inj hlength) (Nat.ne_of_lt stepsBeside_lt)

/-- All that a plain schema leads to is plain, or allows everything or nothing. -/
theorem Plain.next {r : Registry} {p q : String × Json} (h : Plain p.2) (distinct : p.2.Distinct) (hq : q ∈ r.next p) :
    Plain q.2 ∧ q.2.Distinct ∨ q.2.isBool = true := by
  obtain ⟨base, schema⟩ := p
  obtain ⟨members, rfl⟩ := h.direct.members_of
  obtain ⟨⟨name, value⟩, hmem, s, hs, hq⟩ := (Registry.mem_next_of_no_reference h.no_reference).mp hq
  have hsame : q.2 = s := by rcases hq with rfl | rfl <;> rfl
  rw [hsame]
  have hlookup : members.lookup name = some value := lookup_of_mem distinct.keys hmem
  have hvalue : value.Distinct := distinct.lookup hlookup
  have hname := h.keyword_of_mem hmem
  simp only [plainKeywords, List.mem_cons, List.not_mem_nil, or_false] at hname
  rcases hname with rfl | rfl | rfl | rfl | rfl | rfl
  · cases hs
  · -- properties
    cases value with
    | obj ps =>
      obtain ⟨m, hm, rfl⟩ := List.mem_map.mp hs
      exact .inl ⟨h.of_property hlookup hm, hvalue.mem hm⟩
    | null | bool | num | str | arr => cases hs
  · -- items
    obtain ⟨ms, rfl⟩ := (h.of_items hlookup).direct.members_of
    cases List.mem_singleton.mp hs
    exact .inl ⟨h.of_items hlookup, hvalue⟩
  · cases hs
  · -- additionalProperties
    cases List.mem_singleton.mp hs
    cases h with
    | intro _ _ _ hadditional => exact .inr (hadditional _ hlookup)
  · cases hs

/-- A plain schema is in one dialect. -/
theorem Plain.staysHome {r : Registry} {p : String × Json} (h : Plain p.2) (distinct : p.2.Distinct) :
    r.StaysHome p := by
  intro q hq
  have hplain : Plain q.2 ∧ q.2.Distinct ∨ q.2.isBool = true := by
    induction hq with
    | single hq => exact h.next distinct hq
    | @tail s q _ hq ih =>
      obtain ⟨base, schema⟩ := s
      rcases ih with ⟨hs, hdistinct⟩ | hbool
      · exact hs.next hdistinct hq
      · cases schema with
        | bool => cases hq
        | null | num | str | arr | obj => cases hbool
  rcases hplain with ⟨hq, -⟩ | hbool
  · exact hq.home
  · generalize q.2 = s at hbool ⊢
    cases s with
    | bool => rfl
    | null | num | str | arr | obj => cases hbool

/-! ## The result -/

/-- **The only findings left after a repair are those that a repair may not mend.** -/
theorem remaining_findings_unfixable {formats : Bool} {schema : Json} {ledger : List Change}
    (plain : Plain schema) (distinct : schema.Distinct) (valueDistinct : v.Distinct)
    (stable : (ofSchema schema).Everywhere StableDefault)
    (compiled : Validator.compile formats schema = .ok validator)
    (repaired : (mend (ofSchema schema) v).run = .ok (w, ledger))
    (reported : validator.report w = .ok found) :
    ∀ f ∈ found, ∃ y ∈ (validator.judge w).violations,
      f.Shows y ∧ Unfixable validator (ofSchema schema) w found f y := by
  obtain ⟨members, rfl⟩ := plain.direct.members_of
  obtain ⟨sound, hall⟩ := Validator.report_eq_ok reported
  have hnames : (ofSchema (.obj members)).Everywhere (KeyLists List.Nodup) :=
    everywhere_ofSchema List.nodup_nil distinct
  have hvalidator := Validator.compile_eq_ok compiled
  have hregistry : validator.registry.Distinct := by
    rw [hvalidator]
    exact Validator.distinct_ofSchema distinct
  have hhome : validator.registry.StaysHome validator.registry.rootPlace := by
    rw [hvalidator]
    exact plain.staysHome distinct
  have hnamed := Validator.report_named hhome hregistry (mend_distinct hnames repaired valueDistinct) reported
  obtain ⟨hpruned, hcoerced, hfilled⟩ := mend_settled hnames stable repaired
  intro f hf
  obtain ⟨y, hy, own, hown, hfown⟩ := hnamed.mem hf
  have hshows := Report.shows_of_findings hown hfown
  refine ⟨y, hy, hshows, ?_⟩
  have hjudge := Validator.judge_of_compile compiled w
  rw [hjudge] at sound hall hy
  obtain ⟨last, hjudged, hcomplains⟩ := Validator.found_plain plain distinct hy
  obtain ⟨hwalk, hplain⟩ := hjudged.walk plain distinct
  have hstands := hwalk.at?
  have hgoverned := hwalk.descend
  have hkeyword := hshows.keyword
  rw [Violation.keyword] at hkeyword
  generalize hvalue : y.value = x, hcomplaint : y.complaint = complaint at *
  -- each complaint against the pass that would have mended what it is about
  cases hcomplains with
  | wrongType hmismatch =>
    rcases hcoerced.of_walk hwalk with hend | ⟨above, step, below, g, u, hplace, habove, hfails⟩
    · exact .type hgoverned hstands hkeyword fun _ => stuck_of_coerced hend hmismatch
    · have hpast := hjudged
      rw [hplace] at hpast
      obtain ⟨names, z, hz, hzplace, hztype⟩ := type_found_above plain distinct sound hpast habove
        (eq_false_of_ne_true hfails)
      obtain ⟨other, hother, hshown⟩ := reported_of_type hall hz hztype
      have hdiffers : other ≠ f :=
        plain.ne_of_below distinct sound hy hcomplaint hz hztype hshows hshown (by rw [hzplace, hplace])
      have hotherKeyword : other.keyword = "type" := by
        rw [hshown.keyword, Violation.keyword, hztype]
        rfl
      rw [← hjudge] at hz
      exact .typeBelow hplace hstands hkeyword hother hdiffers hz hshown hzplace hotherKeyword
  | missingProperty hrequired habsent =>
    have hmissing : y.complaint.isMissing = true := by rw [hcomplaint]; rfl
    have hparams := congrArg Finding.params (Report.eq_findingOf_of_missing hmissing hown hfown)
    have hend := hfilled.of_walk_unguarded hwalk
    refine .required hgoverned hstands hkeyword (hparams.trans ?_) fun sub hsub =>
      unlicensed_of_filled hend habsent hrequired hsub
    simp only [Report.findingOf, Violation.named, hcomplaint, Report.requiredParams]
  | undeclared hclosed hkey hundeclared =>
    have hend := hpruned.of_walk_unguarded hwalk
    exact .additionalProperties hgoverned hstands hkeyword
      (declared_of_pruned hend hclosed hplain.patterns_eq_nil hkey hundeclared)

/-- A forbidden key is dropped; a text that is no number and a missing name that is not declared stay, and so does a
text in the place of the root. -/
theorem remaining_findings_unfixable_of_two :
    let schema : Json := .obj [("properties", .obj [("n", .obj [("type", .str "integer"),
        ("default", .num (.int 0))])]), ("required", .arr [.str "id"]),
      ("additionalProperties", .bool false)]
    let validator := Validator.ofSchema true schema
    let w : Json := .obj [("n", .str "x")]
    let number : Json := .obj [("type", .str "integer")]
    let numbers := Validator.ofSchema true number
    ((mend (ofSchema schema) (.obj [("z", .null), ("n", .str "x")])).run.toOption.map Prod.fst = some w ∧
      ∃ found, validator.report w = .ok found ∧ found.map Finding.path = ["/n", "/"] ∧
        ∀ f ∈ found, ∃ y ∈ (validator.judge w).violations,
          f.Shows y ∧ Unfixable validator (ofSchema schema) w found f y) ∧
    (mend (ofSchema number) (.str "x")).run.toOption.map Prod.fst = some (.str "x") ∧
      ∃ found, numbers.report (.str "x") = .ok found ∧ found.map Finding.path = ["/"] ∧
        ∀ f ∈ found, ∃ y ∈ (numbers.judge (.str "x")).violations,
          f.Shows y ∧ Unfixable numbers (ofSchema number) (.str "x") found f y := by
  intro schema validator w number numbers
  have hplain : Plain schema := by
    refine .intro (by decide) ?_ (fun _ h => nomatch h) ?_
    · rintro ps ⟨⟩ p hp
      rw [List.mem_singleton.mp hp]
      exact .intro (by decide) (fun _ h => nomatch h) (fun _ h => nomatch h) (fun _ h => nomatch h)
    · rintro v ⟨⟩
      rfl
  have hnumber : Plain number :=
    .intro (by decide) (fun _ h => nomatch h) (fun _ h => nomatch h) (fun _ h => nomatch h)
  have hstable : (ofSchema schema).Everywhere StableDefault := by
    refine .of_schema (.of_none (by rw [fallback_ofSchema]; rfl)) ?_
    rintro sub (⟨rfl | rfl, ⟨⟩, hmem⟩ | ⟨⟨⟩⟩)
    cases List.mem_singleton.mp hmem
    refine .of_schema ?_ ?_
    · have hdefault : ∀ d, (ofSchema (.obj [("type", .str "integer"),
          ("default", .num (.int 0))])).fallback = some d → d = .num (.int 0) := by
        intro d hd
        rw [fallback_ofSchema] at hd
        cases hd
        rfl
      refine ⟨?_, ?_, ?_⟩
      · rintro d hd
        rw [hdefault d hd]
        decide +kernel
      · rintro d hd
        rw [hdefault d hd]
        exact ⟨[], Changed.run_eq_ok_of_toOption (by decide +kernel)⟩
      · rintro d hd
        rw [hdefault d hd]
        exact ⟨[], Changed.run_eq_ok_of_toOption (by decide +kernel)⟩
    · rintro sub (⟨rfl | rfl, ⟨⟩, -⟩ | ⟨⟨⟩⟩)
  have hstill : (ofSchema number).Everywhere StableDefault := by
    refine .of_schema (.of_none (by rw [fallback_ofSchema]; rfl)) ?_
    rintro sub (⟨rfl | rfl, ⟨⟩, -⟩ | ⟨⟨⟩⟩)
  have hcompiled : Validator.compile true schema = .ok validator := Validator.compile_of_isSome (by decide +kernel)
  have hcompiled' : Validator.compile true number = .ok numbers := Validator.compile_of_isSome (by decide +kernel)
  have hrun : (mend (ofSchema schema) (.obj [("z", .null), ("n", .str "x")])).run =
      .ok (w, [⟨[.key "z"], .removed .null, Prune.reason⟩]) :=
    Changed.run_eq_ok_of_toOption (by decide +kernel)
  have hrun' : (mend (ofSchema number) (.str "x")).run = .ok (.str "x", []) :=
    Changed.run_eq_ok_of_toOption (by decide +kernel)
  have hreport : (validator.report w).toOption.map (·.map Finding.path) = some ["/n", "/"] := by decide +kernel
  have hreport' : (numbers.report (.str "x")).toOption.map (·.map Finding.path) = some ["/"] := by decide +kernel
  obtain ⟨found, hfound, hpaths⟩ := ok_of_toOption_map hreport
  obtain ⟨found', hfound', hpaths'⟩ := ok_of_toOption_map hreport'
  refine ⟨⟨by rw [hrun]; rfl, found, hfound, hpaths, ?_⟩, by rw [hrun']; rfl, found', hfound', hpaths', ?_⟩
  · exact remaining_findings_unfixable hplain (by decide +kernel) (by decide +kernel) hstable hcompiled hrun hfound
  · exact remaining_findings_unfixable hnumber (by decide +kernel) (by decide +kernel) hstill hcompiled' hrun' hfound'

end JsonMend
