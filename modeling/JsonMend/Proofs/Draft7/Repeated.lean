import JsonMend.Proofs.Json.Agree
/-
  An array that counts as one with repeated items has a repeated item to show.

  Two comparisons are at work.  Whether an array has repeated items is decided by equality as JSON, among
  neighbours of the sorted items or among all items; which items to show is decided by the coarser likeness, among
  the items in the order given.

  1. **Nothing to show** (`pairwise_of_duplicate?`) — the search stops at the first item that repeats an earlier one,
     so where it ends without any, no item repeats an earlier one.
  2. **Nothing repeated** (`holds_of_differ`) — where no two items are the same, in any order, the array counts as
     one without repeated items, however its items are sorted.
  3. **The result** (`duplicate?_isSome`) — what is the same is repeated, and equality goes both ways where no key
     occurs twice; so an array that counts as one with repeated items has a pair to show.
-/
namespace JsonMend

namespace Unique

open Json

variable {items earlier rest : List Json} {a b x : Json}

/-! ## Nothing to show -/

theorem firstRepeated?_eq_none : firstRepeated? earlier x = none ↔ ∀ y ∈ earlier, repeats y x = false := by
  rw [firstRepeated?, List.findIdx?_eq_none_iff]

/-- Where the search ends without a repeated item, no item repeats one before it, the earlier ones included. -/
theorem duplicateFrom?_eq_none (h : duplicateFrom? earlier rest = none) :
    (∀ y ∈ earlier, ∀ x ∈ rest, repeats y x = false) ∧ rest.Pairwise fun y x => repeats y x = false := by
  induction rest generalizing earlier with
  | nil => exact ⟨fun _ _ _ hx => absurd hx List.not_mem_nil, .nil⟩
  | cons x rest ih =>
    rw [duplicateFrom?] at h
    cases hfirst : firstRepeated? earlier x with
    | some first =>
      rw [hfirst] at h
      cases h
    | none =>
      rw [hfirst] at h
      obtain ⟨hbehind, hrest⟩ := ih h
      rw [List.forall_mem_append] at hbehind
      obtain ⟨hearlier, hitem⟩ := hbehind
      refine ⟨fun y hy => List.forall_mem_cons.mpr ⟨firstRepeated?_eq_none.mp hfirst y hy, hearlier y hy⟩, ?_⟩
      exact List.pairwise_cons.mpr ⟨hitem x (List.mem_singleton_self x), hrest⟩

/-! ## Nothing repeated -/

theorem allDiffer_of_pairwise (h : items.Pairwise fun a b => a.same b = false) : allDiffer items = true := by
  induction h with
  | nil => rfl
  | cons hfirst _ ih =>
    rw [allDiffer, ih, Bool.and_true, List.all_eq_true]
    intro y hy
    rw [hfirst y hy]
    rfl

theorem neighboursDiffer_of_pairwise (h : items.Pairwise fun a b => a.same b = false) :
    neighboursDiffer items = true := by
  induction h with
  | nil => rfl
  | @cons x rest hfirst _ ih =>
    cases rest with
    | nil => rfl
    | cons y rest =>
      rw [neighboursDiffer, ih, hfirst y List.mem_cons_self]
      rfl

/-- **An array of which no two items are the same counts as one without repeated items.** -/
theorem holds_of_differ (distinct : ∀ x ∈ items, x.Distinct)
    (differ : items.Pairwise fun a b => a.same b = false) : holds items = true := by
  unfold holds
  split
  · -- the sorted items are the same items, and two that differ do so in either order
    have hsorted : (sorted items).Pairwise fun a b => a.Distinct → b.Distinct → a.same b = false := by
      refine ((List.mergeSort_perm items _).pairwise_iff fun {a b} h hb ha => ?_).mpr
        (differ.imp fun h _ _ => h)
      refine eq_false_of_ne_true fun hsame => ?_
      rw [same_symm hb ha hsame] at h
      exact absurd (h ha hb) Bool.noConfusion
    refine neighboursDiffer_of_pairwise (hsorted.imp_of_mem fun ha hb h => h ?_ ?_)
    · exact distinct _ ((List.mergeSort_perm items _).mem_iff.mp ha)
    · exact distinct _ ((List.mergeSort_perm items _).mem_iff.mp hb)
  · exact allDiffer_of_pairwise differ

/-! ## The result -/

theorem repeats_of_same (h : a.same b = true) : repeats a b = true := by
  rw [repeats, isBool_eq_of_same h, alike_of_same h, beq_self_eq_true, Bool.and_self]

/-- **Where an array counts as one with repeated items, there is a pair to show.** -/
theorem duplicate?_isSome (distinct : ∀ x ∈ items, x.Distinct) (repeated : holds items = false) :
    ∃ pair, duplicate? items = some pair := by
  cases hfound : duplicate? items with
  | some pair => exact ⟨pair, rfl⟩
  | none =>
    have hdiffer : items.Pairwise fun a b => a.same b = false :=
      (duplicateFrom?_eq_none hfound).2.imp fun h =>
        eq_false_of_ne_true fun hsame => absurd ((repeats_of_same hsame).symm.trans h) Bool.noConfusion
    exact absurd ((holds_of_differ distinct hdiffer).symm.trans repeated) Bool.noConfusion

end Unique

end JsonMend
