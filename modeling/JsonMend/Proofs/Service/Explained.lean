import JsonMend.Proofs.Report.Parameters
import JsonMend.Proofs.Service.History
/-
  What a validation finds can be explained.

  1. **Explaining** (`ExplainedError.ofError_toJson`) — path and words of a finding are never empty, so nothing stands
     in for them; a finding is explained as it is.
  2. **The result** (`validate_explained`) — for a validation after any calls, because the validator that serves it was
     made from a schema of one of them.  In another dialect a finding may lack what its template reads
     (`validate_leaves_unnamed`).
-/
namespace JsonMend

variable {fuel : Nat} {validator : Validator} {schema v : Json} {y : Violation} {found own : List Finding} {f : Finding}

/-! ## Explaining -/

namespace Finding

/-- A finding with its explanation. -/
def explained (f : Finding) : ExplainedError :=
  ⟨.str f.path, .str f.message, .ofKeyword f.keyword f.params (.str f.path)⟩

end Finding

theorem Pointer.ofSegments_ne_empty (segments : List String) : ofSegments segments ≠ "" := by
  cases segments with
  | nil => decide
  | cons segment rest => simp [ofSegments, concat]

section
variable {s t : String}

theorem append_ne_empty_left (h : s ≠ "") : s ++ t ≠ "" := fun h' => h (String.append_eq_empty_iff.mp h').1

theorem append_ne_empty_right (h : t ≠ "") : s ++ t ≠ "" := fun h' => h (String.append_eq_empty_iff.mp h').2

end

theorem CountLimit.excess_ne_empty (side : CountLimit) (what : Countable) (limit : Number) :
    side.excess what limit ≠ "" := by
  unfold excess
  cases side <;> cases what <;> dsimp only <;> split <;> decide

/-- No complaint is without words. -/
theorem Complaint.message_ne_empty (c : Complaint) (value : Json) : c.message value ≠ "" := by
  cases c with
  | nothingAllowed | undeclared | surplusItems => exact append_ne_empty_left (by decide)
  | notConst | repeatedItems | noneOfAny | noneOfOne | noBranches | nothingContained | missingProperty =>
    exact append_ne_empty_right (by decide)
  | wrongType | notInEnum | notMultiple | patternUnmatched | formatUnmet | severalOfOne | forbidden
  | missingDependency | notDivisible | disallowed => exact append_ne_empty_left (append_ne_empty_right (by decide))
  | outOfBounds side | notBeyond side =>
    exact append_ne_empty_left (append_ne_empty_right (by cases side <;> decide))
  | wrongCount side what limit => exact append_ne_empty_right (side.excess_ne_empty what limit)

/-- No finding is without a path or without words. -/
theorem Report.ne_empty_of_findings {next : Members} (h : Report.findings validator fuel next y = .ok own) (hf : f ∈ own) :
    f.path ≠ "" ∧ f.message ≠ "" := by
  refine ⟨?_, ?_⟩
  · rw [(shows_of_findings h hf).path]
    exact Pointer.ofSegments_ne_empty _
  · rcases undeclared_or_other y with ⟨extras, declared, patterns, hcomplaint⟩ | hother
    · rw [findings_of_undeclared hcomplaint] at h
      obtain ⟨keys, -, rfl⟩ := map_eq_ok.mp h
      obtain ⟨key, -, rfl⟩ := List.mem_map.mp hf
      exact append_ne_empty_right (by decide)
    · rw [findings_of_other hother] at h
      obtain ⟨ps, -, rfl⟩ := map_eq_ok.mp h
      rw [List.mem_singleton.mp hf]
      exact y.complaint.message_ne_empty y.value

theorem ExplainedError.orElse_str {s standIn : String} (h : s ≠ "") : orElse (some (.str s)) standIn = .str s := by
  unfold orElse
  dsimp only
  rw [if_pos]
  simpa [Json.isSubstantial] using h

/-- **A finding is explained with its own path and its own words.** -/
theorem ExplainedError.ofError_toJson {f : Finding} (path : f.path ≠ "") (message : f.message ≠ "") :
    ofError f.toJson = .ok f.explained := by
  have hkeyword : (orElse (some (.str f.keyword)) "").plain = f.keyword := by
    by_cases hempty : f.keyword = ""
    · rw [hempty]
      rfl
    · rw [orElse_str hempty]
      rfl
  simp only [ofError, Finding.toJson, ofMembers]
  simp [hasKey, List.lookup_cons, orElse_str path, orElse_str message, hkeyword, Finding.explained]

theorem ExplainedError.ofErrors_toJson (h : ∀ f ∈ found, f.path ≠ "" ∧ f.message ≠ "") :
    ofErrors (found.map Finding.toJson) = .ok (found.map Finding.explained) := by
  induction found with
  | nil => rfl
  | cons f rest ih =>
    obtain ⟨⟨hpath, hmessage⟩, hrest⟩ := List.forall_mem_cons.mp h
    rw [List.map_cons, ofErrors, ofError_toJson hpath hmessage, ih hrest]
    rfl

/-! ## Branches -/

/-- No branch is named exactly where none was found to accept the value. -/
theorem Report.passing_of_findings {next : Members} (h : Report.findings validator fuel next y = .ok own) (hf : f ∈ own)
    (keyword : f.keyword = "oneOf") :
    f.params = [("passingSchemas", .null)] ↔ y.complaint = .noneOfOne := by
  have htemplate := y.complaint.ofKeyword?_keyword
  rw [← Violation.keyword, ← (shows_of_findings h hf).keyword, keyword] at htemplate
  have hother : ∀ extras declared patterns, y.complaint ≠ .undeclared extras declared patterns := by
    intro extras declared patterns hcomplaint
    rw [hcomplaint] at htemplate
    cases htemplate
  rw [findings_of_other hother] at h
  obtain ⟨ps, hps, rfl⟩ := map_eq_ok.mp h
  rw [List.mem_singleton.mp hf]
  cases hcomplaint : y.complaint with
  | noneOfOne =>
    rw [hcomplaint] at hps
    cases hps
    exact ⟨fun _ => rfl, fun _ => rfl⟩
  | noBranches =>
    rw [hcomplaint] at hps
    cases hps
    exact ⟨(by rintro ⟨⟩), (by rintro ⟨⟩)⟩
  | severalOfOne branches accepted =>
    rw [hcomplaint] at hps
    obtain ⟨places, -, hps⟩ := bind_eq_ok.mp hps
    cases hps
    exact ⟨(by rintro ⟨⟩), (by rintro ⟨⟩)⟩
  | _ =>
    rw [hcomplaint] at htemplate
    cases htemplate

/-! ## The result -/

namespace Engine

/-- **What a validation finds can be explained.**  After any calls, the errors of a validation that returns are
explained one by one, with their own paths and words, no branch being named exactly where none was found to accept the
value.  And each of them carries all that the template of its keyword reads, if the schema, and any other of the session
that the cache takes for it, is in one dialect. -/
theorem validate_explained (settings : Settings) (requests : List Session.Request)
    (sources : ∀ s ∈ requests.filterMap Session.Request.schema?, s.Distinct)
    (schemaDistinct : schema.Distinct) (distinct : v.Distinct)
    (validated : (((Session.start settings).after requests).engine.validate schema v).1 = .ok found) :
    (∃ errors, (validationJson found).get? "errors" = some errors ∧
      ExplainedError.ofJson errors = .ok (found.map Finding.explained)) ∧
    ((∀ s ∈ schema :: requests.filterMap Session.Request.schema?, s.canonicalText = schema.canonicalText →
        (Validator.ofSchema settings.validateFormats s).registry.OneDialect) →
      ∀ f ∈ found, ∀ t, Template.ofKeyword? f.keyword = some t → f.Carries t) ∧
    ∀ f ∈ found, f.keyword = "oneOf" →
      ∃ validator, ((Session.start settings).after requests).engine.Serves schema validator ∧
        ∃ y ∈ (validator.judge v).violations, f.Shows y ∧
          (f.params = [("passingSchemas", .null)] ↔ y.complaint = .noneOfOne) := by
  obtain ⟨validator, hserves, hreport⟩ := report_of_validate validated
  obtain ⟨source, hsource, hkey, rfl⟩ := (Session.used_after (.fresh settings) requests).made hserves
  rw [List.nil_append, List.mem_append, List.mem_singleton, or_comm, ← List.mem_cons] at hsource
  have hdistinct : source.Distinct := by
    rcases List.mem_cons.mp hsource with rfl | hsource
    · exact schemaDistinct
    · exact sources source hsource
  have hregistry : (Validator.ofSchema settings.validateFormats source).registry.Distinct :=
    Validator.distinct_ofSchema hdistinct
  refine ⟨⟨_, rfl, ExplainedError.ofErrors_toJson fun f hf => ?_⟩, fun dialect f hf t template => ?_,
    fun f hf hkeyword => ?_⟩
  · obtain ⟨-, hall⟩ := Validator.report_eq_ok hreport
    obtain ⟨y, -, next, own, hown, hfown⟩ := Report.mem_allFindings hall hf
    exact Report.ne_empty_of_findings hown hfown
  · exact Finding.carries_of_reported (dialect source hsource hkey).schemas hregistry distinct hreport hf template
  · obtain ⟨-, hall⟩ := Validator.report_eq_ok hreport
    obtain ⟨y, hy, next, own, hown, hfown⟩ := Report.mem_allFindings hall hf
    exact ⟨_, hserves, y, hy, Report.shows_of_findings hown hfown,
      Report.passing_of_findings hown hfown hkeyword⟩

/-- Repeated items that are not in the order of the sorting, nor written alike; a branch that no value passes; two
extra keys; and names that are missing for two reasons: seven findings carry what their templates read. -/
theorem validate_explained_of_seven :
    let schema : Json := .obj [
      ("properties", .obj [
        ("items", .obj [("uniqueItems", .bool true), ("minItems", .num (.int 4))]),
        ("n", .obj [("oneOf", .arr [.obj [("type", .str "string")], .obj [("minimum", .num (.int 2))]])])]),
      ("additionalProperties", .bool false),
      ("required", .arr [.str "m"]),
      ("dependencies", .obj [("n", .arr [.str "k"])])]
    let v : Json := .obj [
      ("items", .arr [.obj [("a", .num (.int 1)), ("b", .null)], .bool true,
        .obj [("b", .null), ("a", .num (.real (.ofRat 1)))]]),
      ("n", .num (.int 1)), ("x", .null), ("y", .null)]
    ∃ found, ((fresh .standard).validate schema v).1 = .ok found ∧
      found.map (fun f => (f.keyword, f.params)) = [
        ("uniqueItems", [("i", .num (.int 2)), ("j", .num (.int 0))]),
        ("minItems", [("limit", .num (.int 4))]),
        ("oneOf", [("passingSchemas", .null)]),
        ("additionalProperties", [("additionalProperty", .str "x")]),
        ("additionalProperties", [("additionalProperty", .str "y")]),
        ("required", [("missingProperty", .str "m")]),
        ("dependencies", [("property", .str "n"), ("missingProperty", .str "k"), ("depsCount", .num (.int 1)),
          ("deps", .str "k")])] ∧
      ExplainedError.ofErrors (found.map Finding.toJson) = .ok (found.map Finding.explained) ∧
      ∀ f ∈ found, ∀ t, Template.ofKeyword? f.keyword = some t → f.Carries t := by
  intro schema v
  have hserves : (fresh .standard).Serves schema (.ofSchema true schema) :=
    fresh_serves rfl (by decide +kernel)
  have hreport : ((Validator.ofSchema true schema).report v).toOption.map
      (List.map fun f => (f.keyword, f.params)) = some [
        ("uniqueItems", [("i", .num (.int 2)), ("j", .num (.int 0))]),
        ("minItems", [("limit", .num (.int 4))]),
        ("oneOf", [("passingSchemas", .null)]),
        ("additionalProperties", [("additionalProperty", .str "x")]),
        ("additionalProperties", [("additionalProperty", .str "y")]),
        ("required", [("missingProperty", .str "m")]),
        ("dependencies", [("property", .str "n"), ("missingProperty", .str "k"), ("depsCount", .num (.int 1)),
          ("deps", .str "k")])] := by decide +kernel
  obtain ⟨found, hfound, hparams⟩ := ok_of_toOption_map hreport
  have hvalidate := (validate_eq_ok hserves).mpr hfound
  obtain ⟨⟨errors, herrors, hexplained⟩, hcarries, -⟩ :=
    validate_explained .standard [] (by simp) (by decide +kernel) (by decide +kernel) hvalidate
  cases herrors
  refine ⟨found, hvalidate, hparams, hexplained, hcarries fun s hs _ => ?_⟩
  rw [List.mem_singleton.mp hs]
  exact Registry.oneDialect_of_places 2 (by decide +kernel)

/-- A schema of draft-03, which a reference leads to, lets a property ask for another one by its name.  The finding names
neither, since what is missing is counted by lists of names only. -/
theorem validate_leaves_unnamed :
    let schema : Json := .obj [("$ref", .str "#/x"), ("x", .obj [
      ("$schema", .str "http://json-schema.org/draft-03/schema#"), ("dependencies", .obj [("a", .str "b")])])]
    let v : Json := .obj [("a", .num (.int 1))]
    ∃ f, ((fresh .standard).validate schema v).1 = .ok [f] ∧
      f.message = quote "b" ++ " is a dependency of " ++ quote "a" ∧ f.params = [] ∧
      Template.ofKeyword? f.keyword = some .dependencies ∧ ¬ f.Carries .dependencies := by
  intro schema v
  have hserves : (fresh .standard).Serves schema (.ofSchema true schema) :=
    fresh_serves rfl (by decide +kernel)
  have hreport : ((Validator.ofSchema true schema).report v).toOption.map
        (·.map fun f => (f.keyword, f.message, f.params)) =
      some [("dependencies", quote "b" ++ " is a dependency of " ++ quote "a", [])] := by decide +kernel
  obtain ⟨f, hfound, hf⟩ := singleton_of_toOption_map hreport
  obtain ⟨hkeyword, hmessage, hparams⟩ : _ ∧ _ ∧ _ := by simpa only [Prod.mk.injEq] using hf
  refine ⟨f, (validate_eq_ok hserves).mpr hfound, hmessage, hparams, ?_, fun hcarries => ?_⟩
  · rw [hkeyword]
    decide +kernel
  · have hdeps := hcarries.parameters "deps" (by decide)
    rw [hparams] at hdeps
    cases hdeps

end Engine

end JsonMend
