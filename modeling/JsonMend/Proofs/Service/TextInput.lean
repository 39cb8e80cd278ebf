import JsonMend.Proofs.Json.Written
import JsonMend.Proofs.Service.Repeat
/-
  Repairing the text of a value.

  A string given to a repair is a text to be read first.  The text of a value is strict JSON, so no correction
  touches it: it is read back as the value (`Json.parseChars?_written`), and nothing is said about the text.  All
  that follows starts from the same value and is the same (`repair_written`), errors included.

  Of the values with a text, this leaves out those whose text is not read: the ones with an integer of too many
  digits or with an infinity.
-/
namespace JsonMend

namespace Engine

variable {style : JsonStyle} {v : Json}

/-- The text of a value is strict, and so it is read without a word about it. -/
theorem startingValue_written (legible : style.Legible) (distinct : v.Distinct) (finite : v.Finite)
    (readable : v.isReadable = true) : startingValue (.str (v.write style)) = .ok (v, []) := by
  have hparsed : Json.parseChars? (v.write style).toList = some v := by
    rw [Json.write, String.toList_ofList, Json.parseChars?_written legible distinct finite, if_pos readable]
  have hrecovery : Recovery.ofText (v.write style) = ⟨some v, []⟩ := by
    rw [Recovery.ofText, Recovery.ofChars, hparsed]
  unfold startingValue
  dsimp only
  rw [hrecovery]

/-- **A repair does not tell the text of a value from the value**, and says nothing about the text.  Only a
string is taken in another way: as a text itself. -/
theorem repair_written (e : Engine) (schema : Json) (legible : style.Legible) (noText : ∀ text, v ≠ .str text)
    (distinct : v.Distinct) (finite : v.Finite) (readable : v.isReadable = true) :
    e.repair schema (.str (v.write style)) = e.repair schema v ∧
      ∀ r, (e.repair schema (.str (v.write style))).1 = .ok r → r.toJson.get? "parseErrors" = none := by
  have hstart := startingValue_written legible distinct finite readable
  have hsame : ∀ validator : Validator, repairWith validator schema (.str (v.write style)) =
      repairWith validator schema v := by
    intro validator
    unfold repairWith
    rw [hstart, startingValue_of_no_text noText]
  refine ⟨?_, fun r hrepaired => ?_⟩
  · unfold repair
    simp only [hsame]
  · obtain ⟨validator, hprepared⟩ := prepared_of_repair hrepaired
    rw [repair_of_prepared hprepared] at hrepaired
    obtain ⟨start, hstart', -, -⟩ := repairWith_eq_ok.mp hrepaired
    -- nothing was said about the text, so the result has no place for it
    have hquiet : r.diagnostics = [] := by
      rw [hstart] at hstart'
      exact (Prod.mk.inj (Except.ok.inj hstart')).2.symm
    rw [Repaired.toJson, hquiet]
    rfl

/-- A text with escapes by number, a pair of halves among them, and an integer of more than sixty-four bits;
the repair has something to remove, to coerce and to put in. -/
theorem repair_written_of_escapes :
    let schema : Json := .obj [
      ("properties", .obj [("é", .obj [("type", .str "string")]), ("n", .obj [("default", .arr [])])]),
      ("additionalProperties", .bool false)]
    let v : Json := .obj [("😀", .str "\"\\/\n"), ("é", .num (.int (2 ^ 70)))]
    let text := "\x7b\"\\ud83d\\ude00\": \"\\\"\\\\/\\n\", \"\\u00e9\": 1180591620717411303424\x7d"
    v.write .ascii = text ∧ (fresh .standard).repair schema (.str text) = (fresh .standard).repair schema v ∧
      ((fresh .standard).repair schema v).1.toOption.map (fun r => (r.value, r.changes.length)) =
        some (.obj [("é", .str "1180591620717411303424"), ("n", .arr [])], 3) := by
  intro schema v text
  have htext : v.write .ascii = text := by decide +kernel
  refine ⟨htext, ?_, by decide +kernel⟩
  rw [← htext]
  exact (repair_written (fresh .standard) schema (.spaced true) (fun _ => Json.noConfusion)
    (by decide +kernel) (by decide +kernel) (by decide +kernel)).1

end Engine

end JsonMend
