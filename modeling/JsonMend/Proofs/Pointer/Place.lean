import JsonMend.Proofs.Pointer.Split
import JsonMend.Proofs.Json.Keys
/-
  The places of a value that a pointer can mean.

  A pointer does not tell an index from a key that is written alike.  But of the places that one value has,
  no two have steps of the same texts (`Json.place_eq_of_text`), as none of its parts is both an array and
  an object.  So a pointer is read beside the value (`Json.atSteps?`), and read so it leads to the place that
  it was built for (`Json.atSteps?_of_at?`).
-/
namespace JsonMend

theorem index_eq_of_text {i j : Nat} (h : (Segment.index i).text = (Segment.index j).text) :
    i = j := by
  have hdigits : writeDigits i = writeDigits j := by
    have hlist := congrArg String.toList h
    rw [Segment.text, Segment.text, String.toList_ofList, String.toList_ofList] at hlist
    exact hlist
  rw [← readDigits_writeDigits i, hdigits, readDigits_writeDigits]

namespace Json

variable {v x y : Json}

theorem step_eq_of_text {step other : Segment} (h : v.step? step = some x)
    (hother : v.step? other = some y) (htext : step.text = other.text) : step = other := by
  cases v with
  | obj ms =>
    cases step with
    | index i => cases h
    | key name =>
      cases other with
      | index j => cases hother
      | key name' => exact congrArg Segment.key htext
  | arr xs =>
    cases step with
    | key name => cases h
    | index i =>
      cases other with
      | key name' => cases hother
      | index j => exact congrArg Segment.index (index_eq_of_text htext)
  | null | bool | num | str => cases h

/-- Two places of a value whose steps have the same texts are one place. -/
theorem place_eq_of_text {place other : Position} (h : v.at? place = some x)
    (hother : v.at? other = some y) (htext : place.map Segment.text = other.map Segment.text) :
    place = other := by
  induction place generalizing v other with
  | nil => exact (List.map_eq_nil_iff.mp htext.symm).symm
  | cons step rest ih =>
    cases other with
    | nil => cases htext
    | cons step' rest' =>
      rw [List.map_cons, List.map_cons, List.cons.injEq] at htext
      rw [at?_cons] at h hother
      obtain ⟨part, hpart, hrest⟩ := Option.bind_eq_some_iff.mp h
      obtain ⟨part', hpart', hrest'⟩ := Option.bind_eq_some_iff.mp hother
      -- the first steps lead to one part, so the rest is a question about that part
      have hstep : step = step' := step_eq_of_text hpart hpart' htext.1
      subst hstep
      rw [hpart] at hpart'
      cases hpart'
      rw [ih hrest hrest' htext.2]

/-- The first step to a place of a value without empty keys is not empty. -/
theorem NoEmptyKey.first_step {place : Position} (h : v.NoEmptyKey) (hplace : v.at? place = some x) :
    ∀ step ∈ place.head?, step.text ≠ "" := by
  cases place with
  | nil =>
    intro step hstep
    cases hstep
  | cons step rest =>
    rintro _ ⟨⟩
    obtain ⟨part, hpart, -⟩ := Option.bind_eq_some_iff.mp hplace
    cases v with
    | obj ms =>
      cases step with
      | index i => cases hpart
      | key name =>
        rintro rfl
        have hkey : "" ∈ ms.map Prod.fst := List.mem_map_of_mem (mem_keys_of_lookup hpart)
        exact (eachObject_obj.mp h).1 hkey
    | arr xs =>
      cases step with
      | key name => cases hpart
      | index i => exact Pointer.index_text_ne i
    | null | bool | num | str => cases hpart

end Json

/-! ## Reading a pointer -/

/-- The index that a step of a pointer is: the one that is written so. -/
def indexOf? (step : String) : Option Nat :=
  let i := readDigits step.toList
  if (Segment.index i).text = step then some i else none

theorem indexOf?_text (i : Nat) : indexOf? (Segment.index i).text = some i := by
  have hread : readDigits (Segment.index i).text.toList = i := by
    rw [Segment.text, String.toList_ofList, readDigits_writeDigits]
  unfold indexOf?
  simp only [hread, if_true]

/-- What stands at the end of the steps of a pointer. -/
def Json.atSteps? : List String → Json → Option Json
  | [], v => some v
  | step :: rest, .obj ms => (ms.lookup step).bind (atSteps? rest)
  | step :: rest, .arr xs => ((indexOf? step).bind (xs[·]?)).bind (atSteps? rest)
  | _ :: _, _ => none

end JsonMend
