import JsonMend.Proofs.Json.Parts
import JsonMend.Proofs.Repair.Faults
import JsonMend.Proofs.Repair.Settled
import JsonMend.Proofs.Service.Repeat
/-
  What keeps a repair from reaching the final validation.

  A repair is best effort: a value that cannot be made right stays as it is, and whether the document is valid
  in the end is only reported.  What can still end a repair in an error, for an accepted schema without
  patterns and a text that could be read, is one thing: coercing comes to an integer of too many digits.

  1. **Scalars that stay** (`coerce_scalar_stays`) — a scalar is left alone, and nothing is recorded, exactly
     where it is of a right type or no listed type has a value for it.
  2. **Scalars that are met** (`scalar_of_reaches`) — what coercing comes to after pruning was in the document
     before.
  3. **The whole repair** (`mend_returns_iff`) — pruning and filling in defaults never fail, so the repair fails
     where coercing does, with the same fault.
-/
namespace JsonMend

open Coerce

variable {s g : Shape} {v w x y : Json} {changes : List Change}

/-! ## Scalars that stay -/

/-- **A scalar is left alone exactly where it is of a right type or no listed type has a value for it.** -/
theorem coerce_scalar_stays (scalar : v.isScalar = true) :
    (coerce s v).run = .ok (v, []) ↔ s.admits v = true ∨ NoneRepresentable s.types v := by
  constructor
  · intro h
    generalize hnone : ([] : List Change) = changes at h
    cases coerce_cases.mp h with
    | kept hadmits => exact .inl hadmits
    | stuck _ hfailed => exact .inr (firstSuccess_eq_none_iff.mp hfailed)
    | coerced => cases hnone
  · intro h
    cases hadmits : s.admits v with
    | true =>
      refine coerce_cases.mpr (.kept hadmits (.whole ?_ ?_))
      · rintro ms rfl
        cases scalar
      · rintro xs rfl
        cases scalar
    | false =>
      rw [hadmits] at h
      have hnone := h.resolve_left Bool.false_ne_true
      exact coerce_cases.mpr (.stuck hadmits (firstSuccess_eq_none_iff.mpr hnone) rfl)

/-! ## Scalars that are met -/

theorem Shape.Part.mem_parts {sub : Shape} {step : Segment} (h : s.Part v step sub x) : x ∈ v.parts := by
  cases h with
  | member _ hmem _ => exact Json.mem_parts_of_inner (Json.member_mem_innerParts hmem)
  | item hget _ =>
    exact Json.mem_parts_of_inner (Json.item_mem_innerParts (List.mem_of_getElem? hget))

theorem Coerce.Reaches.mem_parts (h : Reaches s v g x) : x ∈ v.parts := by
  induction h with
  | here => exact Json.self_mem_parts _
  | part _ hpart _ ih => exact Json.parts_trans hpart.mem_parts ih
  | wrapped _ _ _ _ _ _ ih => exact ih

/-- Coercing never leaves a shape. -/
theorem Coerce.Reaches.everywhere {P : Shape → Prop} (h : Reaches s v g x) (hs : s.Everywhere P) :
    g.Everywhere P := by
  induction h with
  | here => exact hs
  | part _ hpart _ ih => exact ih (hs.child hpart.child)
  | wrapped _ _ _ _ hitems _ ih => exact ih (hs.child (Shape.child_of_items hitems 0))

/-- Pruning puts no scalar in. -/
theorem scalar_of_prune (h : (prune s v).run = .ok (w, changes)) (hmem : y ∈ w.parts)
    (scalar : y.isScalar = true) : y ∈ v.parts := by
  induction s using Shape.parts_induction generalizing v w changes with
  | parts s hchild hproperty =>
    cases prune_cases.mp h with
    | @members ms ns _ _ hrun =>
      rcases List.mem_cons.mp hmem with rfl | hmem
      · cases scalar
      obtain ⟨⟨key, z⟩, hz, hy⟩ := Json.mem_innerParts_obj.mp hmem
      obtain ⟨x, own, hx, hstep⟩ := hrun.member_of_mem hz
      have hmember := Json.mem_parts_of_inner (Json.member_mem_innerParts hx)
      rcases Shape.visit_run.mp (Prune.visit_of_kept hstep) with ⟨-, rfl, -⟩ | ⟨sub, hsub, hprune⟩
      · exact Json.parts_trans hmember hy
      · exact Json.parts_trans hmember (hchild _ sub hsub hprune hy)
    | @items sub xs ys _ hfound hrun =>
      rcases List.mem_cons.mp hmem with rfl | hmem
      · cases scalar
      obtain ⟨z, hz, hy⟩ := Json.mem_innerParts_arr.mp hmem
      obtain ⟨x, hx, own, hprune⟩ := hrun.item_of_mem hz
      have hitem := Json.mem_parts_of_inner (Json.item_mem_innerParts hx)
      exact Json.parts_trans hitem (hchild (.index 0) sub (Shape.child_of_items hfound 0) hprune hy)
    | whole => exact hmem

theorem scalar_of_reaches (h : (prune s v).run = .ok (w, changes)) (hreaches : Reaches s w g x)
    (scalar : x.isScalar = true) : x ∈ v.parts :=
  scalar_of_prune h hreaches.mem_parts scalar

/-! ## The whole repair -/

/-- Where pruning returns, the repair fails where coercing what it left does, with the same fault. -/
theorem mend_error_iff {pruned : Json} {dropped : List Change} {fault : Fault}
    (noPattern : s.Everywhere (·.patterns = [])) (h : (prune s v).run = .ok (pruned, dropped)) :
    (mend s v).run = .error fault ↔ (coerce s pruned).run = .error fault := by
  unfold mend
  constructor
  · intro herror
    rcases Changed.run_bind_eq_error.mp herror with hprune | ⟨other, _, hprune, hrest⟩
    · rw [h] at hprune
      cases hprune
    · rw [h] at hprune
      cases hprune
      rcases Changed.run_bind_eq_error.mp hrest with hcoerce | ⟨coerced, _, _, hfill⟩
      · exact hcoerce
      · obtain ⟨filled, changes, hfilled⟩ := applyDefaults_total noPattern coerced
        rw [hfilled] at hfill
        cases hfill
  · intro hcoerce
    exact Changed.run_bind_eq_error.mpr (.inr ⟨_, _, h, Changed.run_bind_eq_error.mpr (.inl hcoerce)⟩)

namespace Engine

variable {e : Engine} {schema input start : Json} {validator : Validator} {diagnostics : List String}

/-- The passes of a repair return, and what the repair comes to is left to the final validation. -/
def ReachesValidation (e : Engine) (schema input start : Json) (diagnostics : List String)
    (validator : Validator) : Prop :=
  ∃ value changes, (mend (.ofSchema schema) start).run = .ok (value, changes) ∧
    (e.repair schema input).1 =
      (reportOn "Repair" validator value).map fun findings => ⟨value, changes, findings, diagnostics⟩

theorem repairWith_of_mend {value : Json} {changes : List Change}
    (started : startingValue input = .ok (start, diagnostics))
    (h : (mend (.ofSchema schema) start).run = .ok (value, changes)) :
    repairWith validator schema input =
      (reportOn "Repair" validator value).map fun findings =>
        ⟨value, changes, findings, diagnostics⟩ := by
  unfold repairWith
  rw [started]
  simp only [bind, Except.bind, h, Except.mapError, pure, Except.pure]
  cases reportOn "Repair" validator value <;> rfl

theorem repairWith_of_fault {fault : Fault}
    (started : startingValue input = .ok (start, diagnostics))
    (h : (mend (.ofSchema schema) start).run = .error fault) :
    repairWith validator schema input = .error (.ofFault "Repair" fault) := by
  unfold repairWith
  rw [started]
  simp only [bind, Except.bind, h, Except.mapError]

/-- **Only an integer of too many digits keeps a repair from the final validation.**

1. Coercing returns exactly where nothing that it comes to stops it: no integer that has too many digits to be
   read or written for the first listed type that has a value for it, and no pattern that cannot be read.
2. A scalar is left alone, and nothing is recorded, exactly where it is of a right type or no listed type has a
   value for it.
3. For an accepted schema without patterns and a text that could be read, pruning returns.  The repair then
   reaches the final validation exactly where nothing stops the coercing of what pruning left; otherwise it
   fails, with the fault of an integer of too many digits that stood in the document.  So it always reaches
   the final validation where no scalar of the document is such an integer. -/
theorem repair_reaches_validation (s : Shape) (v : Json) (e : Engine) (schema input start : Json)
    (diagnostics : List String) (validator : Validator) :
    ((∃ w changes, (coerce s v).run = .ok (w, changes)) ↔
      ¬ ∃ g x fault, Reaches s v g x ∧ Stops g x fault) ∧
    (v.isScalar = true →
      ((coerce s v).run = .ok (v, []) ↔ s.admits v = true ∨ NoneRepresentable s.types v)) ∧
    (e.Serves schema validator → startingValue input = .ok (start, diagnostics) →
      (Shape.ofSchema schema).Everywhere (·.patterns = []) →
      ∃ pruned dropped, (prune (.ofSchema schema) start).run = .ok (pruned, dropped) ∧
        (e.ReachesValidation schema input start diagnostics validator ↔
          ¬ ∃ g x fault, Reaches (.ofSchema schema) pruned g x ∧ Stops g x fault) ∧
        (¬ e.ReachesValidation schema input start diagnostics validator →
          ∃ t x fault, x ∈ start.parts ∧ Overlong t x fault ∧
            (e.repair schema input).1 = .error (.ofFault "Repair" fault)) ∧
        ((∀ t, ∀ x ∈ start.parts, ∀ fault, ¬ Overlong t x fault) →
          e.ReachesValidation schema input start diagnostics validator)) := by
  refine ⟨coerce_returns_iff, coerce_scalar_stays, fun hserves hstarted hnoPattern => ?_⟩
  obtain ⟨pruned, dropped, hpruned⟩ := prune_total hnoPattern start
  have hrepair : (e.repair schema input).1 = repairWith validator schema input :=
    repair_of_prepared (prepare_iff.mpr hserves)
  have hreaches_iff : e.ReachesValidation schema input start diagnostics validator ↔
      ∃ w changes, (coerce (.ofSchema schema) pruned).run = .ok (w, changes) := by
    constructor
    · rintro ⟨value, changes, hmend, -⟩
      refine Changed.returns_of_ne_error fun fault hcoerce => ?_
      rw [(mend_error_iff hnoPattern hpruned).mpr hcoerce] at hmend
      cases hmend
    · rintro ⟨coerced, turned, hcoerce⟩
      have hmend : ∃ value changes, (mend (.ofSchema schema) start).run = .ok (value, changes) := by
        refine Changed.returns_of_ne_error fun fault hmend => ?_
        rw [(mend_error_iff hnoPattern hpruned).mp hmend] at hcoerce
        cases hcoerce
      obtain ⟨value, changes, hmend⟩ := hmend
      exact ⟨value, changes, hmend, hrepair.trans (repairWith_of_mend hstarted hmend)⟩
  have hstopped : ¬ e.ReachesValidation schema input start diagnostics validator →
      ∃ t x fault, x ∈ start.parts ∧ Overlong t x fault ∧
        (e.repair schema input).1 = .error (.ofFault "Repair" fault) := by
    intro hnot
    rw [hreaches_iff] at hnot
    cases hcoerce : (coerce (.ofSchema schema) pruned).run with
    | ok result => exact absurd ⟨_, _, hcoerce⟩ hnot
    | error fault =>
      obtain ⟨g, x, hreaches, hstops⟩ := coerce_error hcoerce
      obtain ⟨t, hlong⟩ := hstops.overlong_of_noPattern (hreaches.everywhere hnoPattern).here
      refine ⟨t, x, fault, scalar_of_reaches hpruned hreaches hlong.representable.isScalar, hlong, ?_⟩
      rw [hrepair]
      exact repairWith_of_fault hstarted ((mend_error_iff hnoPattern hpruned).mpr hcoerce)
  refine ⟨pruned, dropped, hpruned, hreaches_iff.trans coerce_returns_iff, hstopped, ?_⟩
  intro hshort
  refine Classical.byContradiction fun hnot => ?_
  obtain ⟨t, x, fault, hx, hlong, -⟩ := hstopped hnot
  exact hshort t x hx fault hlong

/-- Where an integer is asked for, a word stays and is reported on, but 4301 digits end the coercing. -/
theorem repair_reaches_validation_of_word :
    let number : Json := .obj [("type", .str "integer")]
    let schema : Json := .obj [("properties", .obj [("a", number)])]
    let word : Json := .obj [("a", .str "abc")]
    (fresh .standard).ReachesValidation schema word word [] (.ofSchema true schema) ∧
      (coerce (.ofSchema number) (.str "abc")).run = .ok (.str "abc", []) ∧
      ¬ ∃ w changes, (coerce (.ofSchema number) (.str (String.ofList (List.replicate 4301 '7')))).run =
        .ok (w, changes) := by
  intro number schema word
  have hword : Numeral.ofChars? (trimBlanks "abc".toList) = none := by decide +kernel
  have hshort : ∀ t, ∀ x ∈ word.parts, ∀ fault, ¬ Overlong t x fault := by
    intro t x hx fault hlong
    have hparts : word.parts = [word, .str "abc"] := rfl
    rw [hparts, List.mem_cons, List.mem_singleton] at hx
    rcases hx with rfl | rfl
    · change Overlong t (.obj _) fault at hlong
      cases hlong
    · cases hlong with
      | read _ hreads _ _ =>
        rw [hword] at hreads
        cases hreads
  have hserves : (fresh .standard).Serves schema (.ofSchema true schema) :=
    fresh_serves rfl (by decide +kernel)
  obtain ⟨-, hstays, hreaches⟩ := repair_reaches_validation (.ofSchema number) (.str "abc")
    (fresh .standard) schema word word [] (.ofSchema true schema)
  obtain ⟨-, -, -, -, -, hvalid⟩ := hreaches hserves rfl (by decide +kernel)
  refine ⟨hvalid hshort, (hstays rfl).mpr (.inr ?_), fun hreturns => ?_⟩
  · exact firstSuccess_eq_none_iff.mp (by decide +kernel)
  · have hdigit : ∀ c ∈ List.replicate 4301 '7', isDecimalDigit c = true ∧ isBlank c = false := by
      intro c hc
      rw [List.eq_of_mem_replicate hc]
      decide +kernel
    have hlong := Overlong.of_digits (t := .integer) (.inr rfl) hdigit
      (by rw [List.length_replicate]; decide)
    have hfirst : NoneRepresentable [] (.str (String.ofList (List.replicate 4301 '7'))) :=
      fun _ hmem => absurd hmem List.not_mem_nil
    exact coerce_returns_iff.mp hreturns ⟨_, _, _, .here, .overlong rfl rfl hfirst hlong⟩

end Engine

end JsonMend
