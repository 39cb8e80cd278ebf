import JsonMend.Proofs.Draft7.Crossing
import JsonMend.Proofs.Pointer.Place
import JsonMend.Proofs.Repair.Origin
import JsonMend.Proofs.Report.Findings
/-
  What a repair takes away or replaces, and what was wrong with it.

  A change that tells of a value before it should be justified by a finding on the value that was repaired:
  a removed key by the object's undeclared keys, any other change by a wrong type (`Justified`).  The passes
  decide by shapes, though, and the validator by schemas, and at four points they disagree (`Slipped`).

  1. **From a change to a place** (`mend_origins`) — the change stands at a place of the value, and the shape
     there forbids the key or does not admit the value.
  2. **From a place to a finding** (`judged_of_walk`) — unless the way there crosses or goes abroad, a schema judges
     the place, and what the shape finds fault with there is reported.
  3. **Not both** (`slipped_unjustified`) — under a direct schema a finding is about the place that it shows,
     by a schema that judges this place; but no place that was reached by crossing is judged.
  4. **The result** (`changes_justified_or_slipped`) — each change is justified or has slipped, and under a
     direct schema never both: what has slipped is then exactly what nothing justifies.
-/
namespace JsonMend

open Shape

variable {fuel : Nat} {g : Shape} {schema v w x : Json} {validator : Validator} {found : List Finding}
  {c : Change} {place above : Position} {key : String} {pending : Report.Pending}

/-! ## Justified changes -/

/-- The place of the value that a change finds fault with: the object that a key is removed from, or the
value that is replaced. -/
def Change.target (c : Change) : Position :=
  match c.edit with
  | .removed _ => c.place.dropLast
  | _ => c.place

/-- A finding shows what is wrong with the value that a change finds fault with. -/
inductive Justified (found : List Finding) (c : Change) : Prop
  | removed {above key value f} (place : c.place = above ++ [.key key])
      (edit : c.edit = .removed value) (mem : f ∈ found) (path : f.path = Pointer.shown above)
      (keyword : f.keyword = "additionalProperties")
      (params : f.params = [("additionalProperty", .str key)]) : Justified found c
  | replaced {f} (stays : c.edit.after? ≠ none) (mem : f ∈ found)
      (path : f.path = Pointer.shown c.place) (keyword : f.keyword = "type") : Justified found c

/-- The ledger and the report disagree about a change: they show different pointers to the place at fault, or
the way to this place crosses or enters a schema of another draft, or the keyword for additional properties, which
joins all patterns to one, finds no extra key in an object from which a key is removed. -/
inductive Slipped (schema v : Json) (c : Change) : Prop
  | misnamed (differ : Pointer.shown c.target ≠ Pointer.ofPosition c.target) : Slipped schema v c
  | crossed (crosses : Crosses (ofSchema schema) v c.target) : Slipped schema v c
  | abroad (abroad : Abroad schema v c.target) : Slipped schema v c
  | joined {above key value parent ms} (place : c.place = above ++ [.key key])
      (edit : c.edit = .removed value) (walk : (ofSchema schema).Walk v above parent (.obj ms))
      (mem : (key, value) ∈ ms) (undeclared : parent.declares key = .ok false)
      (noExtra : parent.extraKeys ms = .ok []) : Slipped schema v c

theorem Change.target_of_removed {value : Json} (place : c.place = above ++ [.key key])
    (edit : c.edit = .removed value) : c.target = above := by
  rw [target, edit, place]
  exact List.dropLast_concat

theorem Change.target_of_stays (stays : c.edit.after? ≠ none) : c.target = c.place := by
  rw [target]
  cases hedit : c.edit with
  | removed value =>
    rw [hedit] at stays
    exact absurd rfl stays
  | added | coerced | defaulted => rfl

/-- What justifies a change stands at the place that the change finds fault with. -/
theorem Justified.finding (h : Justified found c) :
    ∃ f ∈ found, f.path = Pointer.shown c.target ∧
      (c.edit.after? = none → f.keyword = "additionalProperties") := by
  cases h with
  | @removed above key value f hplace hedit hmem hpath hkeyword _ =>
    rw [Change.target_of_removed hplace hedit]
    exact ⟨f, hmem, hpath, fun _ => hkeyword⟩
  | replaced hstays hmem hpath _ =>
    rw [Change.target_of_stays hstays]
    exact ⟨_, hmem, hpath, fun hnone => absurd hnone hstays⟩

/-! ## Justified or slipped -/

variable {formats : Bool} {ledger : List Change}

/-- A removed key is reported, unless there is a slip. -/
theorem removed_justified_or_slipped (unreferenced : Unreferenced schema)
    (compiled : Validator.compile formats schema = .ok validator)
    (reported : validator.report v = .ok found) (h : Removed (ofSchema schema) v c) :
    Justified found c ∨ Slipped schema v c := by
  obtain ⟨sound, hall⟩ := Validator.report_eq_ok reported
  rw [Validator.judge_of_compile compiled] at sound hall
  obtain ⟨hplace, hedit, hwalk, hmem, hclosed, hundeclared⟩ := h
  rename_i above key parent ms value
  have htarget : c.target = above := Change.target_of_removed hplace hedit
  rcases judged_of_walk unreferenced hwalk with (hcrosses | habroad) | hfree |
    ⟨members, last, rfl, rfl, hlast, hjudged⟩
  · exact .inr (.crossed (by rw [htarget]; exact hcrosses))
  · exact .inr (.abroad (by rw [htarget]; exact habroad))
  · rw [hfree] at hclosed
    cases hclosed
  · obtain ⟨extras, hextras, hfound⟩ :=
      undeclared_reported sound hall hjudged hlast hclosed
    cases extras with
    | nil =>
      -- the patterns match when they are joined, though none matches by itself
      exact .inr (.joined hplace hedit hwalk hmem hundeclared hextras)
    | cons extra rest =>
      by_cases hshown : Pointer.shown above = Pointer.ofPosition above
      · obtain ⟨f, hf, hpath, hkeyword, hparams⟩ := hfound (List.cons_ne_nil _ _) key
          (List.mem_map_of_mem hmem) hundeclared
        exact .inl (.removed hplace hedit hf (hpath.trans hshown.symm) hkeyword hparams)
      · exact .inr (.misnamed (by rw [htarget]; exact hshown))

/-- A value that its shape does not admit is reported, unless there is a slip. -/
theorem mismatch_justified_or_slipped (unreferenced : Unreferenced schema)
    (compiled : Validator.compile formats schema = .ok validator)
    (reported : validator.report v = .ok found) (stays : c.edit.after? ≠ none)
    (hwalk : (ofSchema schema).Walk v c.place g x) (mismatch : g.admits x = false) :
    Justified found c ∨ Slipped schema v c := by
  obtain ⟨sound, hall⟩ := Validator.report_eq_ok reported
  rw [Validator.judge_of_compile compiled] at sound hall
  have htarget : c.target = c.place := Change.target_of_stays stays
  rcases judged_of_walk unreferenced hwalk with (hcrosses | habroad) | hfree |
    ⟨members, last, rfl, rfl, hlast, hjudged⟩
  · exact .inr (.crossed (by rw [htarget]; exact hcrosses))
  · exact .inr (.abroad (by rw [htarget]; exact habroad))
  · rw [hfree] at mismatch
    cases mismatch
  · by_cases hshown : Pointer.shown c.place = Pointer.ofPosition c.place
    · obtain ⟨f, hf, hpath, hkeyword⟩ :=
        type_reported sound hall hjudged hlast mismatch
      exact .inl (.replaced stays hf (hpath.trans hshown.symm) hkeyword)
    · exact .inr (.misnamed (by rw [htarget]; exact hshown))

/-! ## Not both -/

theorem Change.target_stands (h : v.at? c.place ≠ none) : ∃ x, v.at? c.target = some x := by
  rw [target]
  cases c.edit with
  | removed value =>
    obtain ⟨last, hplace⟩ := List.dropLast_prefix c.place
    rw [← hplace, Json.at?_append] at h
    cases habove : v.at? c.place.dropLast with
    | none =>
      rw [habove] at h
      exact absurd rfl h
    | some x => exact ⟨x, rfl⟩
  | added | coerced | defaulted => exact Option.ne_none_iff_exists'.mp h

/-- Under a direct schema a finding that bears the pointer to a place of the value is a schema's own finding
about what stands there. -/
theorem own_of_path {members : Members} {rounds : Nat} {base : String} {f : Finding}
    (direct : Direct (.obj members)) (schemaDistinct : (Json.obj members).Distinct)
    (distinct : v.Distinct) (named : v.NoEmptyKey)
    (reported : Report.allFindings validator fuel pending
      (validator.judgeWith rounds base (.obj members) v).violations = .ok found)
    (hf : f ∈ found) (stands : v.at? place = some x) (path : f.path = Pointer.ofPosition place) :
    ∃ last complaint, Judged members v place last x ∧ (Json.obj last).Distinct ∧
      OwnFinding last x complaint ∧ complaint.keyword = f.keyword := by
  obtain ⟨y, hy, next, own, hown, hfown⟩ := Report.mem_allFindings reported hf
  obtain ⟨hpath, hkeyword, -⟩ := Report.shows_of_findings hown hfown
  obtain ⟨last, hjudged, -, hdistinct, hfinding⟩ :=
    Validator.found_direct direct schemaDistinct hy
  have hy_stands := hjudged.at? distinct
  have hplace : y.place = place := by
    refine Json.place_eq_of_text hy_stands stands ?_
    rw [← Pointer.split_ofPosition (named.first_step hy_stands),
      ← Pointer.split_ofPosition (named.first_step stands), ← hpath, path]
  rw [hplace] at hjudged hy_stands
  have hvalue : y.value = x := Option.some.inj (hy_stands.symm.trans stands)
  rw [hvalue] at hjudged hfinding
  exact ⟨last, y.complaint, hjudged, hdistinct, hfinding, hkeyword.symm⟩

/-- **Under a direct schema, what has slipped nothing justifies.** -/
theorem slipped_unjustified (unreferenced : Unreferenced schema) (direct : Direct schema)
    (schemaDistinct : schema.Distinct) (alike : JudgedAlike schema v) (distinct : v.Distinct)
    (named : v.NoEmptyKey) (compiled : Validator.compile formats schema = .ok validator)
    (reported : validator.report v = .ok found) (stands : v.at? c.place ≠ none)
    (slipped : Slipped schema v c) : ¬ Justified found c := by
  intro hjustified
  obtain ⟨members, rfl⟩ := direct.members_of
  obtain ⟨-, hall⟩ := Validator.report_eq_ok reported
  rw [Validator.judge_of_compile compiled] at hall
  obtain ⟨x, hx⟩ := Change.target_stands stands
  have hshown := Pointer.shown_eq_ofPosition (named.first_step hx)
  obtain ⟨f, hf, hpath, hkeyword⟩ := hjustified.finding
  rw [hshown] at hpath
  obtain ⟨last, complaint, hjudged, hdistinct, hown, hname⟩ :=
    own_of_path direct schemaDistinct distinct named hall hf hx hpath
  have hstraight := hjudged.not_crosses direct alike distinct
  cases slipped with
  | misnamed hdiffer => exact hdiffer hshown
  | crossed hcrosses => exact hstraight hcrosses
  | abroad habroad => exact habroad.not_direct direct
  | @joined above key value parent ms hplace hedit hwalk hmem hundeclared hnone =>
    have htarget : c.target = above := Change.target_of_removed hplace hedit
    rw [htarget] at hjudged hstraight hx
    have hkey : key ∈ ms.map Prod.fst := List.mem_map_of_mem hmem
    rcases judged_of_walk unreferenced hwalk with (hcrosses | habroad) | rfl | ⟨_, other, heq, rfl, -, hother⟩
    · exact hstraight hcrosses
    · exact habroad.not_direct direct
    · exact extraKeys_ne_nil rfl hkey hundeclared hnone
    · -- the schema that complains has the shape by which the key was removed, and finds an extra key
      cases heq
      have hshape := alike members above last other _ _ rfl hjudged hother
      have hadditional := hname.trans (hkeyword (by rw [hedit]; rfl))
      obtain ⟨ms', extras, hvalue, -, hextras, hne, -⟩ := extra_of_own hdistinct hown hadditional
      have hms : ms' = ms := by
        have hstands := hx.symm.trans hwalk.at?
        rw [hvalue] at hstands
        cases hstands
        rfl
      rw [hms, hshape, hnone] at hextras
      cases hextras
      exact hne rfl

/-! ## The result -/

/-- **Whatever a repair takes away or replaces is justified by a finding on the value, or the ledger and the
report disagree about it**; under a direct schema it is one or the other. -/
theorem changes_justified_or_slipped (unreferenced : Unreferenced schema) (distinct : v.Distinct)
    (compiled : Validator.compile formats schema = .ok validator)
    (repaired : (mend (ofSchema schema) v).run = .ok (w, ledger))
    (reported : validator.report v = .ok found) :
    ∀ c ∈ ledger, c.edit.before? ≠ none → v.at? c.place ≠ none →
      (Justified found c ∨ Slipped schema v c) ∧
      (Direct schema → schema.Distinct → JudgedAlike schema v → v.NoEmptyKey →
        Slipped schema v c → ¬ Justified found c) := by
  intro c hc _ hstands
  constructor
  · rcases mend_origins repaired distinct c hc with
      hremoved | ⟨hstays, hforeign | ⟨g, x, hwalk, hmismatch⟩⟩
    · exact removed_justified_or_slipped unreferenced compiled reported hremoved
    · exact absurd hforeign.at?_eq_none hstands
    · exact mismatch_justified_or_slipped unreferenced compiled reported hstays hwalk hmismatch
  · intro hdirect hdistinct halike hnamed hslipped
    exact slipped_unjustified unreferenced hdirect hdistinct halike distinct hnamed compiled reported
      hstands hslipped

/-- An extra key is removed and a text is turned into a number, both of which are reported; so is a text
under an undeclared key, which is not. -/
theorem changes_justified_or_slipped_of_three :
    let number : Json := .obj [("type", .str "integer")]
    let inner : Json := .obj [("properties", .obj [("a", .obj [])]), ("items", number)]
    let schema : Json := .obj [("properties", .obj [("n", number), ("m", inner)]),
      ("additionalProperties", .bool false)]
    let v : Json := .obj [("z", .null), ("n", .str "5"), ("m", .obj [("b", .str "7")])]
    ∃ w ledger found, (mend (ofSchema schema) v).run = .ok (w, ledger) ∧
      ledger.map Change.place = [[.key "z"], [.key "n"], [.key "m", .key "b"]] ∧
      (Validator.ofSchema true schema).report v = .ok found ∧
      found.map Finding.path = ["/n", "/"] ∧
      ∀ c ∈ ledger, Slipped schema v c ↔ ¬ Justified found c := by
  intro number inner schema v
  have hnumber : Plain number :=
    .intro (by decide) (fun _ h => nomatch h) (fun _ h => nomatch h) (fun _ h => nomatch h)
  have hinner : Plain inner := by
    refine .intro (by decide) ?_ ?_ (fun _ h => nomatch h)
    · rintro ps ⟨⟩ p hp
      rw [List.mem_singleton.mp hp]
      exact .intro (by decide) (fun _ h => nomatch h) (fun _ h => nomatch h) (fun _ h => nomatch h)
    · rintro sub ⟨⟩
      exact hnumber
  have hschema : Plain schema := by
    refine .intro (by decide) ?_ (fun _ h => nomatch h) ?_
    · rintro ps ⟨⟩ p hp
      rcases List.mem_cons.mp hp with rfl | hp
      · exact hnumber
      · rw [List.mem_singleton.mp hp]
        exact hinner
    · rintro value ⟨⟩
      rfl
  have hcompiled : Validator.compile true schema = .ok (Validator.ofSchema true schema) :=
    Validator.compile_of_isSome (by decide +kernel)
  let w : Json := .obj [("n", .num (.int 5)), ("m", .obj [("b", .num (.int 7))])]
  let ledger : List Change := [⟨[.key "z"], .removed .null, Prune.reason⟩,
    ⟨[.key "n"], .coerced (.str "5") (.num (.int 5)), Coerce.reason (.str "5") "integer"⟩,
    ⟨[.key "m", .key "b"], .coerced (.str "7") (.num (.int 7)), Coerce.reason (.str "7") "integer"⟩]
  have hrun : (mend (ofSchema schema) v).run = .ok (w, ledger) :=
    Changed.run_eq_ok_of_toOption (by decide +kernel)
  have htold : ∀ c ∈ ledger, c.edit.before? ≠ none ∧ v.at? c.place ≠ none := by decide +kernel
  have hpaths : ((Validator.ofSchema true schema).report v).toOption.map (·.map Finding.path) =
      some ["/n", "/"] := by decide +kernel
  cases hreport : (Validator.ofSchema true schema).report v with
  | error fault => rw [hreport] at hpaths; cases hpaths
  | ok found =>
    rw [hreport] at hpaths
    refine ⟨w, ledger, found, hrun, rfl, rfl, Option.some.inj hpaths, fun c hc => ?_⟩
    obtain ⟨hbefore, hstands⟩ := htold c hc
    obtain ⟨heither, hnotboth⟩ := changes_justified_or_slipped
      (.of_eachObject (by decide +kernel)) (by decide +kernel) hcompiled hrun hreport c hc hbefore hstands
    constructor
    · have hdistinct : schema.Distinct := by decide +kernel
      exact hnotboth hschema.direct hdistinct (hschema.judgedAlike hdistinct) (by decide +kernel)
    · exact heither.resolve_left

-- Each way to slip: nothing is reported where a value is turned into a number, where a key is removed, or
-- under the pointer that the ledger shows.
example :
    let schema : Json := .obj [("properties", .obj [("a", .obj [])]),
      ("items", .obj [("type", .str "integer")])]
    let v : Json := .obj [("b", .str "5")]
    (mend (ofSchema schema) v).run.toOption.map Prod.fst = some (.obj [("b", .num (.int 5))]) ∧
      ((Validator.ofSchema true schema).report v).toOption = some [] := by decide +kernel
example :
    let schema : Json := .obj [("patternProperties", .obj [("(?i)a", .obj []), ("b", .obj [])]),
      ("additionalProperties", .bool false)]
    let v : Json := .obj [("B", .null)]
    (mend (ofSchema schema) v).run.toOption.map Prod.fst = some (.obj []) ∧
      ((Validator.ofSchema true schema).report v).toOption = some [] := by decide +kernel
example : Pointer.shown [.key "", .key "b"] = "/b" ∧ Pointer.ofPosition [.key "", .key "b"] = "//b" := by
  decide +kernel

end JsonMend
