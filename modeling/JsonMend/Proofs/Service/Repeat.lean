import JsonMend.Proofs.Json.Read
import JsonMend.Proofs.Report.Accepted
import JsonMend.Proofs.Service.Prepare
/-
  Repairing what was repaired.

  The output of a repair goes back in as an input.  A string never does so unchanged, because as an input it
  is a text to be read; anything else is taken as the value that it is.

  1. **One repair** (`repairWith_eq_ok`) — a value or a text is read, mended and reported on.
  2. **The second repair** (`repair_again`) — on a value on which the first one reports nothing it changes
     nothing and finds nothing, where the passes and the validator read the schema alike.
-/
namespace JsonMend

open Shape

namespace Engine

variable {e : Engine} {schema input : Json} {validator : Validator} {r : Repaired}

/-! ## One repair -/

theorem repairWith_eq_ok : repairWith validator schema input = .ok r ↔
    ∃ start, startingValue input = .ok (start, r.diagnostics) ∧
      (mend (ofSchema schema) start).run = .ok (r.value, r.changes) ∧
      validator.report r.value = .ok r.findings := by
  unfold repairWith
  rw [bind_eq_ok]
  constructor
  · rintro ⟨⟨start, diagnostics⟩, hstart, h⟩
    obtain ⟨⟨value, changes⟩, hmend, h⟩ := bind_eq_ok.mp h
    obtain ⟨findings, hreport, h⟩ := bind_eq_ok.mp h
    cases h
    exact ⟨start, hstart, mapError_eq_ok.mp hmend, mapError_eq_ok.mp hreport⟩
  · rintro ⟨start, hstart, hmend, hreport⟩
    refine ⟨_, hstart, bind_eq_ok.mpr ⟨_, mapError_eq_ok.mpr hmend, ?_⟩⟩
    exact bind_eq_ok.mpr ⟨_, mapError_eq_ok.mpr hreport, rfl⟩

theorem repair_of_prepared (h : (e.prepare "Repair" schema).1 = .ok validator) :
    (e.repair schema input).1 = repairWith validator schema input := by
  unfold repair
  simp only [h]
  rfl

theorem prepared_of_repair (h : (e.repair schema input).1 = .ok r) :
    ∃ validator, (e.prepare "Repair" schema).1 = .ok validator := by
  unfold repair at h
  cases hprepared : (e.prepare "Repair" schema).1 with
  | error error =>
    simp only [hprepared] at h
    cases h
  | ok validator => exact ⟨validator, rfl⟩

/-- The call after a repair, under the same schema, repairs by the same validator. -/
theorem repair_of_prepared_again {again : Json}
    (h : (e.prepare "Repair" schema).1 = .ok validator) :
    ((e.repair schema input).2.repair schema again).1 = repairWith validator schema again :=
  repair_of_prepared (prepare_again h)

/-! ## The second repair -/

/-- The value that a repair starts from has distinct keys. -/
theorem startingValue_distinct {start : Json} {diagnostics : List String} (distinct : input.Distinct)
    (h : startingValue input = .ok (start, diagnostics)) : start.Distinct := by
  cases input with
  | str text =>
    unfold startingValue at h
    dsimp only at h
    split at h
    · rename_i v hrecovered
      cases h
      exact recovered_distinct hrecovered
    · cases h
  | null | bool | num | arr | obj =>
    cases h
    exact distinct

/-- What is no text is taken as it is. -/
theorem startingValue_of_no_text (h : ∀ text, input ≠ .str text) :
    startingValue input = .ok (input, []) := by
  cases input with
  | str text => exact absurd rfl (h text)
  | null | bool | num | arr | obj => rfl

/-- **A repaired value on which nothing is reported is not changed by a second repair**, unless it is a
string, where the passes and the validator read the schema alike beside it. -/
theorem repair_again (faithful : e.Faithful schema) (schemaDistinct : schema.Distinct)
    (distinct : input.Distinct) (repaired : (e.repair schema input).1 = .ok r)
    (valid : r.isValid = true) (noText : ∀ text, r.value ≠ .str text)
    (alike : ReadAlike schema r.value) :
    ((e.repair schema input).2.repair schema r.value).1 = .ok ⟨r.value, [], [], []⟩ := by
  obtain ⟨validator, hprepared⟩ := prepared_of_repair repaired
  rw [repair_of_prepared hprepared] at repaired
  obtain ⟨start, hstart, hmend, hreport⟩ := repairWith_eq_ok.mp repaired
  rw [List.isEmpty_iff.mp valid] at hreport
  have hnames : (ofSchema schema).Everywhere (KeyLists List.Nodup) :=
    everywhere_ofSchema List.nodup_nil schemaDistinct
  have honce : (ofSchema schema).Everywhere DeclaresOnce := hnames.imp fun _ => KeyLists.properties
  have hstill : (mend (ofSchema schema) r.value).run = .ok (r.value, []) := by
    have hvalue := mend_distinct hnames hmend (startingValue_distinct distinct hstart)
    have haccepted := hreport
    rw [prepare_faithful faithful hprepared] at haccepted
    exact mend_of_accepted hvalue alike haccepted (mend_filled honce hmend) (mend_charted honce hmend)
  rw [repair_of_prepared_again hprepared]
  refine repairWith_eq_ok.mpr ?_
  exact ⟨r.value, startingValue_of_no_text noText, hstill, hreport⟩

/-- A text with a forbidden key and a scalar to wrap, under a schema with a default: the second repair finds
nothing to do. -/
theorem repair_again_of_text :
    let number : Json := .obj [("type", .str "integer")]
    let schema : Json := .obj [("type", .str "object"),
      ("properties", .obj [
        ("list", .obj [("type", .str "array"), ("items", number)]),
        ("n", .obj [("default", .num (.int 0))])]),
      ("additionalProperties", .bool false)]
    let input : Json := .str "\x7blist: '5', z: 1,\x7d"
    let w : Json := .obj [("list", .arr [.num (.int 5)]), ("n", .num (.int 0))]
    ∃ r, ((fresh .standard).repair schema input).1 = .ok r ∧ r.value = w ∧ r.changes.length = 4 ∧
      r.diagnostics.length = 2 ∧
      (((fresh .standard).repair schema input).2.repair schema r.value).1 = .ok ⟨w, [], [], []⟩ := by
  intro number schema input w
  have halike : ReadAlike schema w :=
    .of_straight (.of_eachObject (by decide +kernel)) (by decide +kernel) (by decide +kernel) (by decide +kernel)
  have hprepared : ((fresh .standard).prepare "Repair" schema).1 = .ok (.ofSchema true schema) :=
    prepare_made rfl rfl (Validator.compile_of_isSome (by decide +kernel))
  have hfields : (repairWith (.ofSchema true schema) schema input).toOption.map
      (fun r => (r.value, r.findings, r.changes.length, r.diagnostics.length)) =
      some (w, [], 4, 2) := by decide +kernel
  obtain ⟨r, hr, hfields⟩ := ok_of_toOption_map hfields
  obtain ⟨hvalue, hfields⟩ := Prod.mk.inj hfields
  obtain ⟨hfindings, hfields⟩ := Prod.mk.inj hfields
  obtain ⟨hchanges, hdiagnostics⟩ := Prod.mk.inj hfields
  have hrepair := (repair_of_prepared hprepared).trans hr
  refine ⟨r, hrepair, hvalue, hchanges, hdiagnostics, ?_⟩
  rw [← hvalue] at halike ⊢
  refine repair_again (fresh_faithful _ _) (by decide +kernel) (.str _) hrepair ?_ ?_ halike
  · rw [Repaired.isValid, hfindings]
    rfl
  · intro text htext
    have hobj : r.value.isObj = true := by rw [hvalue]; rfl
    rw [htext] at hobj
    cases hobj

/-- A repair reports nothing on its output, and a second one does not return that output without a
change. -/
def Unsettled (e : Engine) (schema input : Json) : Prop :=
  ∃ r, (e.repair schema input).1 = .ok r ∧ r.isValid = true ∧
    ∀ again, ((e.repair schema input).2.repair schema r.value).1 = .ok again → again.changes ≠ []

theorem unsettled_of_prepared {w : Json} (prepared : (e.prepare "Repair" schema).1 = .ok validator)
    (first : (repairWith validator schema input).toOption.map (fun r => (r.value, r.isValid)) =
      some (w, true))
    (second : (repairWith validator schema w).toOption.map Repaired.changes ≠ some []) :
    e.Unsettled schema input := by
  obtain ⟨r, hr, hfields⟩ := ok_of_toOption_map first
  obtain ⟨rfl, hvalid⟩ := Prod.mk.inj hfields
  refine ⟨r, (repair_of_prepared prepared).trans hr, hvalid, fun again hagain hnone => ?_⟩
  rw [repair_of_prepared_again prepared] at hagain
  rw [hagain, ← hnone] at second
  exact second rfl

/-- A repair is not settled where its output is a string, which the next one reads as a text, or where a
reference hides from the validator what the passes follow. -/
theorem repair_again_unsettled :
    let text : Json := .obj [("type", .str "string")]
    let word : Json := .obj [("const", .str "abc")]
    let referring : Json := .obj [("$ref", .str "#/definitions/free"),
      ("properties", .obj [("n", .obj [("type", .str "integer"), ("default", .str "5")])]),
      ("definitions", .obj [("free", .obj [])])]
    (fresh .standard).Unsettled text (.num (.int 5)) ∧
      (fresh .standard).Unsettled word (.str "'abc'") ∧
      (fresh .standard).Unsettled referring (.obj []) := by
  intro text word referring
  have hprepared : ∀ schema : Json, schema.isObj = true →
      (Validator.compile true schema).toOption.isSome = true →
      ((fresh .standard).prepare "Repair" schema).1 = .ok (.ofSchema true schema) :=
    fun schema hobject hcompiles => prepare_made hobject rfl (Validator.compile_of_isSome hcompiles)
  refine ⟨?_, ?_, ?_⟩
  · exact unsettled_of_prepared (w := .str "5") (hprepared text rfl (by decide +kernel))
      (by decide +kernel) (by decide +kernel)
  · exact unsettled_of_prepared (w := .str "abc") (hprepared word rfl (by decide +kernel))
      (by decide +kernel) (by decide +kernel)
  · exact unsettled_of_prepared (w := .obj [("n", .str "5")])
      (hprepared referring rfl (by decide +kernel)) (by decide +kernel) (by decide +kernel)

end Engine

end JsonMend
