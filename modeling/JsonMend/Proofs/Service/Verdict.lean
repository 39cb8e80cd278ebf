import JsonMend.Proofs.Report.Rendered
import JsonMend.Proofs.Service.Prepare
/-
  The verdict of a validation is that of the judging.

  A validation returns the findings that show what the judging has found, in order.  Two things may come
  between: a violation whose branches cannot be placed from the root ends the validation with a fault, and
  one whose extra keys come out differently, when the patterns are tried one by one, is shown by other
  findings, or by none.
-/
namespace JsonMend

namespace Engine

open Report

variable {e : Engine} {schema v : Json} {validator : Validator}

theorem validate_of_served (serves : e.Serves schema validator) :
    (e.validate schema v).1 = reportOn "Validation" validator v := by
  unfold validate
  simp only [prepare_iff.mpr serves]
  rfl

theorem validate_eq_ok {found : List Finding} (serves : e.Serves schema validator) :
    (e.validate schema v).1 = .ok found ↔ validator.report v = .ok found := by
  rw [validate_of_served serves, reportOn, mapError_eq_ok]

/-- **The verdict is that of the judging.**  Where the judging of a value completes, its validation returns
exactly if the branches of each violation can be placed.  Then the findings show the violations in order,
each of them as it should exactly if its extra keys are counted alike, and there is no finding exactly if
every violation is overlooked; so where all are counted alike, there is none exactly if nothing is
violated. -/
theorem validate_shows (serves : e.Serves schema validator)
    (completes : (validator.judge v).fault? = none) :
    ((∃ found, (e.validate schema v).1 = .ok found) ↔
      ∀ y ∈ (validator.judge v).violations, Placed validator (validator.fuelFor v) y) ∧
    ∀ found, (e.validate schema v).1 = .ok found →
      Shown (fun y own => Rendered y own ↔ Tallied y) (validator.judge v).violations found ∧
      (found = [] ↔ ∀ y ∈ (validator.judge v).violations, Overlooked y) ∧
      ((∀ y ∈ (validator.judge v).violations, Tallied y) →
        Shown Rendered (validator.judge v).violations found ∧
        (found = [] ↔ (validator.judge v).violations = [])) := by
  simp only [validate_eq_ok serves]
  refine ⟨Validator.report_iff completes, fun found hfound => ?_⟩
  have hshown := Validator.report_shown hfound
  have hnone := Validator.report_eq_nil_iff hfound
  refine ⟨hshown, hnone, fun htallied => ⟨?_, ?_⟩⟩
  · exact hshown.imp fun y hy own hiff => hiff.mpr (htallied y hy)
  · rw [hnone]
    constructor
    · intro hoverlooked
      refine List.eq_nil_iff_forall_not_mem.mpr fun y hy => ?_
      exact (Validator.founded_of_judge completes hy).not_overlooked (htallied y hy)
        (hoverlooked y hy)
    · intro hclean y hy
      rw [hclean] at hy
      cases hy

/-- A value of a wrong type, one that several branches accept, and two extra keys: four findings show the
three violations. -/
theorem validate_shows_of_three :
    let schema : Json := .obj [
      ("properties", .obj [("n", .obj [("type", .str "integer")])]),
      ("patternProperties", .obj [("^x", .obj [("oneOf", .arr [.bool true, .obj []])])]),
      ("additionalProperties", .bool false)]
    let v : Json := .obj [("n", .str "5"), ("x", .null), ("b", .null), ("c", .null)]
    let violations := ((Validator.ofSchema true schema).judge v).violations
    violations.length = 3 ∧ ∃ found, ((fresh .standard).validate schema v).1 = .ok found ∧
      found.length = 4 ∧ Shown Rendered violations found := by
  intro schema v violations
  have hserves : (fresh .standard).Serves schema (.ofSchema true schema) :=
    fresh_serves rfl (by decide +kernel)
  have hcompletes : ((Validator.ofSchema true schema).judge v).fault? = none := by decide +kernel
  have hlength : violations.length = 3 := by decide +kernel
  have hreport : ((Validator.ofSchema true schema).report v).toOption.map List.length = some 4 := by
    decide +kernel
  obtain ⟨found, hfound, hcount⟩ := ok_of_toOption_map hreport
  have hvalidate := (validate_eq_ok hserves).mpr hfound
  obtain ⟨-, hshows⟩ := validate_shows hserves hcompletes
  obtain ⟨-, -, hexact⟩ := hshows found hvalidate
  refine ⟨hlength, found, hvalidate, hcount, (hexact fun y hy => ?_).1⟩
  have hsimple : ∀ y ∈ violations, joinsNothing y.complaint = true := by decide +kernel
  exact (Validator.founded_of_judge hcompletes hy).tallied (hsimple y hy)

/-- An extra key is overlooked: alone, the empty pattern matches every key, but it is not joined. -/
example :
    let validator := Validator.ofSchema true (.obj [("patternProperties", .obj [("", .obj [])]),
      ("additionalProperties", .bool false)])
    let v : Json := .obj [("a", .null)]
    (validator.judge v).violations.length = 1 ∧
      (validator.report v).toOption.map (·.map Finding.toJson) = some [] := by decide +kernel

end Engine

end JsonMend
