import JsonMend.JsonType
import JsonMend.Proofs.Json.Reordered
/-
  Lists that match up to order, and reordered values part by part.

  1. **Shuffled** — two lists whose elements are related one by one, after one of the lists was put in another
     order.  Putting lists together, mapping and filtering them keeps this.
  2. **Views** (`Reordered.view`) — two values that are equal up to the order of members, beside each other: the
     same flat value, arrays of such items, or objects of such members in another order.  No key has to be
     distinct for it, as no key is looked up.
-/
namespace JsonMend

/-! ## Shuffled lists -/

theorem forall₂_trans {α : Type} {R : α → α → Prop} {xs ys zs : List α}
    (transitive : ∀ {x y z}, R x y → R y z → R x z) (h : List.Forall₂ R xs ys)
    (h' : List.Forall₂ R ys zs) : List.Forall₂ R xs zs := by
  induction h generalizing zs with
  | nil => exact h'
  | cons hfirst _ ih =>
    cases h' with
    | cons hfirst' hrest' => exact .cons (transitive hfirst hfirst') (ih hrest')

/-- Related one by one, after the first list was put in the order of the second. -/
def Shuffled {α β : Type} (R : α → β → Prop) (xs : List α) (ys : List β) : Prop :=
  ∃ mid, List.Forall₂ R xs mid ∧ mid.Perm ys

namespace Shuffled

variable {α β γ δ : Type} {R : α → β → Prop} {xs xs' : List α} {ys ys' : List β}

theorem of_forall₂ (h : List.Forall₂ R xs ys) : Shuffled R xs ys := ⟨ys, h, .refl _⟩

theorem of_perm {R : α → α → Prop} {ys : List α} (refl : ∀ x, R x x) (h : xs.Perm ys) :
    Shuffled R xs ys :=
  ⟨xs, List.forall₂_same.mpr fun x _ => refl x, h⟩

theorem nil : Shuffled R [] [] := of_forall₂ .nil

theorem singleton {x : α} {y : β} (h : R x y) : Shuffled R [x] [y] := of_forall₂ (.cons h .nil)

theorem append (h : Shuffled R xs ys) (h' : Shuffled R xs' ys') :
    Shuffled R (xs ++ xs') (ys ++ ys') := by
  obtain ⟨mid, hpairs, hperm⟩ := h
  obtain ⟨mid', hpairs', hperm'⟩ := h'
  exact ⟨mid ++ mid', List.rel_append hpairs hpairs', hperm.append hperm'⟩

theorem trans {R : α → α → Prop} {ys zs : List α} (transitive : ∀ {x y z}, R x y → R y z → R x z)
    (h : Shuffled R xs ys) (h' : Shuffled R ys zs) : Shuffled R xs zs := by
  obtain ⟨mid, hpairs, hperm⟩ := h
  obtain ⟨mid', hpairs', hperm'⟩ := h'
  obtain ⟨both, hboth, horder⟩ := List.perm_comp_forall₂ hperm hpairs'
  exact ⟨both, forall₂_trans transitive hpairs hboth, horder.trans hperm'⟩

theorem map {S : γ → δ → Prop} {f : α → γ} {g : β → δ} (h : Shuffled R xs ys)
    (step : ∀ x y, R x y → S (f x) (g y)) : Shuffled S (xs.map f) (ys.map g) := by
  obtain ⟨mid, hpairs, hperm⟩ := h
  refine ⟨mid.map g, ?_, hperm.map g⟩
  exact List.forall₂_map_left_iff.mpr (List.forall₂_map_right_iff.mpr (hpairs.imp step))

theorem filter {p : α → Bool} {q : β → Bool} (h : Shuffled R xs ys)
    (step : ∀ x y, R x y → p x = q y) : Shuffled R (xs.filter p) (ys.filter q) := by
  obtain ⟨mid, hpairs, hperm⟩ := h
  refine ⟨mid.filter q, ?_, hperm.filter q⟩
  clear hperm
  induction hpairs with
  | nil => exact .nil
  | @cons x y _ _ hfirst _ ih =>
    rw [List.filter_cons, List.filter_cons, step x y hfirst]
    split
    · exact .cons hfirst ih
    · exact ih

/-- What is related is an element of its list. -/
theorem and_mem (h : Shuffled R xs ys) : Shuffled (fun x y => x ∈ xs ∧ R x y) xs ys := by
  obtain ⟨mid, hpairs, hperm⟩ := h
  exact ⟨mid, (List.forall₂_and_left _ _).mpr ⟨fun _ hx => hx, hpairs⟩, hperm⟩

theorem isEmpty_eq (h : Shuffled R xs ys) : xs.isEmpty = ys.isEmpty := by
  obtain ⟨mid, hpairs, hperm⟩ := h
  rw [← hperm.isEmpty_eq]
  cases hpairs <;> rfl

theorem mem_right (h : Shuffled R xs ys) {y : β} (hy : y ∈ ys) : ∃ x ∈ xs, R x y := by
  obtain ⟨mid, hpairs, hperm⟩ := h
  have hmid := hperm.mem_iff.mpr hy
  clear hperm hy
  induction hpairs with
  | nil => cases hmid
  | cons hfirst _ ih =>
    rcases List.mem_cons.mp hmid with rfl | hmid
    · exact ⟨_, List.mem_cons_self, hfirst⟩
    · obtain ⟨x, hx, hR⟩ := ih hmid
      exact ⟨x, List.mem_cons_of_mem _ hx, hR⟩

end Shuffled

/-! ## Views of reordered values -/

namespace Json

variable {v w : Json} {xs ys : List Json} {ms ns : Members}

/-- Members of one key whose values are equal up to the order of members. -/
def SameMember (m n : String × Json) : Prop := m.1 = n.1 ∧ m.2.Reordered n.2

theorem SameMember.refl (m : String × Json) : SameMember m m := ⟨rfl, .refl _⟩

theorem SameMember.trans {l m n : String × Json} (h : SameMember l m) (h' : SameMember m n) :
    SameMember l n :=
  ⟨h.1.trans h'.1, h.2.trans h'.2⟩

/-- How two reordered values look beside each other. -/
inductive Reordered.View : Json → Json → Prop
  | flat {v : Json} (arr : ∀ xs, v ≠ .arr xs) (obj : ∀ ms, v ≠ .obj ms) : View v v
  | arr {xs ys : List Json} (items : List.Forall₂ Reordered xs ys) : View (.arr xs) (.arr ys)
  | obj {ms ns : Members} (members : Shuffled SameMember ms ns) : View (.obj ms) (.obj ns)

namespace Reordered

theorem obj_of_shuffled (h : Shuffled SameMember ms ns) : (obj ms).Reordered (.obj ns) := by
  obtain ⟨mid, hpairs, hperm⟩ := h
  exact (Reordered.members hpairs).trans (.order hperm)

theorem View.refl (v : Json) : View v v := by
  cases v with
  | arr xs => exact .arr (List.forall₂_same.mpr fun x _ => .refl x)
  | obj ms => exact .obj (.of_perm SameMember.refl (.refl _))
  | null | bool | num | str => exact .flat (by simp) (by simp)

theorem View.trans {u : Json} (h : View u v) (h' : View v w) : View u w := by
  cases h with
  | flat harr hobj =>
    cases h' with
    | flat => exact .flat harr hobj
    | arr => exact absurd rfl (harr _)
    | obj => exact absurd rfl (hobj _)
  | arr hitems =>
    cases h' with
    | flat harr _ => exact absurd rfl (harr _)
    | arr hitems' => exact .arr (forall₂_trans .trans hitems hitems')
  | obj hmembers =>
    cases h' with
    | flat _ hobj => exact absurd rfl (hobj _)
    | obj hmembers' => exact .obj (hmembers.trans SameMember.trans hmembers')

theorem view (h : v.Reordered w) : View v w := by
  induction h with
  | refl v => exact .refl v
  | trans _ _ ih ih' => exact ih.trans ih'
  | order hperm => exact .obj (.of_perm SameMember.refl hperm)
  | item hinside _ =>
    refine .arr (List.rel_append ?_ (.cons hinside ?_))
    · exact List.forall₂_same.mpr fun x _ => .refl x
    · exact List.forall₂_same.mpr fun x _ => .refl x
  | member hinside _ =>
    refine .obj (.of_forall₂ (List.rel_append ?_ (.cons ⟨rfl, hinside⟩ ?_)))
    · exact List.forall₂_same.mpr fun m _ => .refl m
    · exact List.forall₂_same.mpr fun m _ => .refl m

/-! ### What reordering keeps -/

theorem eq_of_scalar (h : v.Reordered w) (scalar : v.isScalar = true) : w = v := by
  cases h.view with
  | flat => rfl
  | arr | obj => cases scalar

theorem isScalar_eq (h : v.Reordered w) : v.isScalar = w.isScalar := by
  cases h.view <;> rfl

theorem kindName_eq (h : v.Reordered w) : v.kindName = w.kindName := by
  cases h.view <;> rfl

theorem isOfType_eq (h : v.Reordered w) (t : JsonType) : v.isOfType t = w.isOfType t := by
  cases h.view with
  | flat => rfl
  | arr | obj => cases t <;> rfl

end Reordered

theorem hasKey_eq_of_shuffled (h : Shuffled SameMember ms ns) (key : String) :
    hasKey ms key = hasKey ns key := by
  have hkeys : (ms.map Prod.fst).Perm (ns.map Prod.fst) := by
    obtain ⟨mid, hpairs, hperm⟩ := h
    have hmid : ms.map Prod.fst = mid.map Prod.fst := by
      clear hperm
      induction hpairs with
      | nil => rfl
      | cons hfirst _ ih => rw [List.map_cons, List.map_cons, hfirst.1, ih]
    rw [hmid]
    exact hperm.map _
  rw [Bool.eq_iff_iff, hasKey_iff, hasKey_iff, hkeys.mem_iff]

end Json

end JsonMend
