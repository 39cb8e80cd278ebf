import JsonMend.Proofs.Json.Reordered
/-
  The numbers inside a value.

  They are listed in the order in which they stand, so a condition on all of them is decided by running it.
  Putting members in another order only permutes the list.
-/
namespace JsonMend

/-- Whether a number is an integer, and not a double that happens to be whole. -/
def Number.isInt : Number → Bool
  | .int _ => true
  | .real _ => false

namespace Json

mutual
/-- The numbers inside a value. -/
def numbers : Json → List Number
  | .num n => [n]
  | .arr xs => itemsNumbers xs
  | .obj ms => membersNumbers ms
  | _ => []
def itemsNumbers : List Json → List Number
  | [] => []
  | x :: xs => numbers x ++ itemsNumbers xs
def membersNumbers : List (String × Json) → List Number
  | [] => []
  | (_, x) :: ms => numbers x ++ membersNumbers ms
end

variable {v w : Json} {xs : List Json} {ms ns : Members}

theorem itemsNumbers_eq (xs : List Json) : itemsNumbers xs = xs.flatMap numbers := by
  induction xs with
  | nil => rfl
  | cons x xs ih => rw [itemsNumbers, List.flatMap_cons, ih]

theorem membersNumbers_eq (ms : Members) : membersNumbers ms = ms.flatMap fun m => m.2.numbers := by
  induction ms with
  | nil => rfl
  | cons m ms ih => rw [membersNumbers, List.flatMap_cons, ih]

theorem forall_numbers_arr {P : Number → Prop} :
    (∀ n ∈ (arr xs).numbers, P n) ↔ ∀ x ∈ xs, ∀ n ∈ x.numbers, P n := by
  simp only [numbers, itemsNumbers_eq, List.mem_flatMap]
  exact ⟨fun h x hx n hn => h n ⟨x, hx, hn⟩, fun h n ⟨x, hx, hn⟩ => h x hx n hn⟩

theorem forall_numbers_obj {P : Number → Prop} :
    (∀ n ∈ (obj ms).numbers, P n) ↔ ∀ m ∈ ms, ∀ n ∈ m.2.numbers, P n := by
  simp only [numbers, membersNumbers_eq, List.mem_flatMap]
  exact ⟨fun h m hm n hn => h n ⟨m, hm, hn⟩, fun h n ⟨m, hm, hn⟩ => h m hm n hn⟩

/-- All numbers inside the value are integers. -/
def FloatFree (v : Json) : Prop := ∀ n ∈ v.numbers, n.isInt = true

instance (v : Json) : Decidable v.FloatFree := inferInstanceAs (Decidable (∀ n ∈ v.numbers, _))

theorem floatFree_arr : (arr xs).FloatFree ↔ ∀ x ∈ xs, x.FloatFree := forall_numbers_arr

theorem floatFree_obj : (obj ms).FloatFree ↔ ∀ m ∈ ms, m.2.FloatFree := forall_numbers_obj

theorem Reordered.floatFree (h : v.Reordered w) (hv : v.FloatFree) : w.FloatFree := by
  induction h with
  | refl v => exact hv
  | trans _ _ ih ih' => exact ih' (ih hv)
  | order hperm =>
    rw [floatFree_obj] at hv ⊢
    exact fun m hm => hv m (hperm.mem_iff.mpr hm)
  | item _ ih =>
    rw [floatFree_arr, List.forall_mem_append, List.forall_mem_cons] at hv ⊢
    exact ⟨hv.1, ih hv.2.1, hv.2.2⟩
  | member _ ih =>
    rw [floatFree_obj, List.forall_mem_append, List.forall_mem_cons] at hv ⊢
    exact ⟨hv.1, ih hv.2.1, hv.2.2⟩

end Json

end JsonMend
