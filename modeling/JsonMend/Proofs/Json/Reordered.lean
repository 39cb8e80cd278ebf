import Mathlib.Data.List.Forall2
import Mathlib.Data.List.Perm.Basic
import JsonMend.Json.Equality
import JsonMend.Proofs.Json.Keys
/-
  Values that are equal up to the order of members.

  Two values are the same data in another order (`Reordered`) when members may change places, in any object
  at any depth, and nothing else is different.

  1. **Sorting** (`reordered_sortKeys`) — sorting the keys of a value is such a change, so values that sort to
     one value are reordered (`Reordered.of_sorted`).
  2. **The converse** (`reordered_iff`) — with distinct keys, the order of the members is all that sorting
     takes away.  With a key twice it would not be, because the sorting keeps equal keys in their order.
  3. **Twins** — two such values with distinct keys.  Their parts are twins again: the items one by one, the
     members after one of the lists was put in the other's order (`Twins.obj_left`), or looked up by key
     (`Twins.lookup`); and what stands at one place in both (`Twins.at?`).
-/
namespace JsonMend

namespace Json

variable {u v w : Json} {ms ns : Members} {xs ys : List Json} {P : List String → Prop}

/-- Equal but for the order of members, in any object at any depth. -/
inductive Reordered : Json → Json → Prop
  | refl (v : Json) : Reordered v v
  | trans {u v w : Json} (first : Reordered u v) (second : Reordered v w) : Reordered u w
  | order {ms ns : Members} (perm : ms.Perm ns) : Reordered (.obj ms) (.obj ns)
  | item {before after : List Json} {x y : Json} (inside : Reordered x y) :
      Reordered (.arr (before ++ x :: after)) (.arr (before ++ y :: after))
  | member {before after : Members} {key : String} {x y : Json} (inside : Reordered x y) :
      Reordered (.obj (before ++ (key, x) :: after)) (.obj (before ++ (key, y) :: after))

theorem Reordered.symm (h : v.Reordered w) : w.Reordered v := by
  induction h with
  | refl v => exact .refl v
  | trans _ _ ih ih' => exact ih'.trans ih
  | order hperm => exact .order hperm.symm
  | item _ ih => exact .item ih
  | member _ ih => exact .member ih

theorem Reordered.eachObject (stable : ∀ {keys keys' : List String}, keys.Perm keys' → P keys → P keys')
    (h : v.Reordered w) (hv : v.EachObject P) : w.EachObject P := by
  induction h with
  | refl v => exact hv
  | trans _ _ ih ih' => exact ih' (ih hv)
  | order hperm =>
    rw [eachObject_obj] at hv ⊢
    exact ⟨stable (hperm.map _) hv.1, fun m hm => hv.2 m (hperm.mem_iff.mpr hm)⟩
  | item _ ih =>
    rw [eachObject_arr, List.forall_mem_append, List.forall_mem_cons] at hv ⊢
    exact ⟨hv.1, ih hv.2.1, hv.2.2⟩
  | member _ ih =>
    rw [eachObject_obj, List.forall_mem_append, List.forall_mem_cons] at hv ⊢
    refine ⟨?_, hv.2.1, ih hv.2.2.1, hv.2.2.2⟩
    simpa using hv.1

theorem Reordered.distinct (h : v.Reordered w) (hv : v.Distinct) : w.Distinct :=
  h.eachObject (fun hperm hnodup => hperm.nodup_iff.mp hnodup) hv

/-! ## Sorting -/

/-- A member with its value sorted. -/
def sortMember (m : String × Json) : String × Json := (m.1, m.2.sortKeys)

theorem sortKeys_arr (xs : List Json) : (arr xs).sortKeys = .arr (xs.map sortKeys) := by
  rw [sortKeys, sortKeysItems_eq_map]

theorem sortKeys_obj (ms : Members) : (obj ms).sortKeys = .obj (sortMembers (ms.map sortMember)) := by
  rw [sortKeys, sortKeysMembers_eq_map]
  rfl

theorem sortMembers_perm (ms : Members) : (sortMembers ms).Perm ms := List.mergeSort_perm _ _

/-- Items may be exchanged for reordered ones all at once. -/
theorem Reordered.items (h : List.Forall₂ Reordered xs ys) : (arr xs).Reordered (.arr ys) := by
  have hbehind : ∀ before, (arr (before ++ xs)).Reordered (.arr (before ++ ys)) := by
    induction h with
    | nil => exact fun before => .refl _
    | @cons x y xs ys hfirst _ ih =>
      intro before
      refine (Reordered.item hfirst).trans ?_
      simpa using ih (before ++ [y])
  exact hbehind []

theorem Reordered.members
    (h : List.Forall₂ (fun m n : String × Json => m.1 = n.1 ∧ m.2.Reordered n.2) ms ns) :
    (obj ms).Reordered (.obj ns) := by
  have hbehind : ∀ before, (obj (before ++ ms)).Reordered (.obj (before ++ ns)) := by
    induction h with
    | nil => exact fun before => .refl _
    | @cons m n ms ns hfirst _ ih =>
      intro before
      obtain ⟨key, x⟩ := m
      obtain ⟨key', y⟩ := n
      obtain ⟨rfl, hreordered⟩ := hfirst
      refine (Reordered.member hreordered).trans ?_
      simpa using ih (before ++ [(key, y)])
  exact hbehind []

theorem reordered_sortKeys (v : Json) : v.Reordered v.sortKeys := by
  induction v using induction_on_parts with
  | arr xs ih =>
    rw [sortKeys_arr]
    exact .items (List.forall₂_map_right_iff.mpr (List.forall₂_same.mpr ih))
  | obj ms ih =>
    rw [sortKeys_obj]
    refine Reordered.trans (.members ?_) (.order (sortMembers_perm _).symm)
    exact List.forall₂_map_right_iff.mpr (List.forall₂_same.mpr fun m hm => ⟨rfl, ih m hm⟩)
  | null | bool | num | str => exact .refl _

theorem Reordered.of_sorted (h : v.sortKeys = w.sortKeys) : v.Reordered w :=
  (reordered_sortKeys v).trans (h ▸ (reordered_sortKeys w).symm)

/-! ## The converse -/

/-- Where the keys are distinct, sorting members forgets their order. -/
theorem sortMembers_eq_of_perm (h : ms.Perm ns) (distinct : (ms.map Prod.fst).Nodup) :
    sortMembers ms = sortMembers ns := by
  have hsorted : ∀ members : Members,
      (sortMembers members).Pairwise fun a b => decide (a.1 ≤ b.1) = true := by
    intro members
    refine List.pairwise_mergeSort ?_ ?_ members
    · intro a b c hab hbc
      exact decide_eq_true (String.le_trans (of_decide_eq_true hab) (of_decide_eq_true hbc))
    · intro a b
      simpa using String.le_total a.1 b.1
  have hperm : (sortMembers ms).Perm (sortMembers ns) :=
    (sortMembers_perm ms).trans (h.trans (sortMembers_perm ns).symm)
  refine List.Perm.eq_of_pairwise ?_ (hsorted ms) (hsorted ns) hperm
  rintro ⟨key, x⟩ ⟨key', y⟩ hx hy hle hge
  have hkey : key = key' := String.le_antisymm (of_decide_eq_true hle) (of_decide_eq_true hge)
  subst hkey
  have hx : ms.lookup key = some x := lookup_of_mem distinct ((sortMembers_perm ms).mem_iff.mp hx)
  have hy : ms.lookup key = some y :=
    lookup_of_mem distinct (h.mem_iff.mpr ((sortMembers_perm ns).mem_iff.mp hy))
  rw [Option.some.inj (hx.symm.trans hy)]

theorem keys_map_sortMember (ms : Members) : (ms.map sortMember).map Prod.fst = ms.map Prod.fst := by
  rw [List.map_map]
  rfl

theorem Reordered.sorted (h : v.Reordered w) (distinct : v.Distinct) : v.sortKeys = w.sortKeys := by
  induction h with
  | refl v => rfl
  | trans hfirst _ ih ih' => exact (ih distinct).trans (ih' (hfirst.distinct distinct))
  | @order ms ns hperm =>
    rw [sortKeys_obj, sortKeys_obj, sortMembers_eq_of_perm (hperm.map _)]
    rw [keys_map_sortMember]
    exact distinct.keys
  | item _ ih =>
    rw [Distinct, eachObject_arr, List.forall_mem_append, List.forall_mem_cons] at distinct
    simp only [sortKeys_arr, List.map_append, List.map_cons, ih distinct.2.1]
  | member _ ih =>
    have hinside := (eachObject_obj.mp distinct).2
    rw [List.forall_mem_append, List.forall_mem_cons] at hinside
    simp only [sortKeys_obj, List.map_append, List.map_cons, sortMember, ih hinside.2.1]

/-- **Equal up to the order of members is equal after sorting.** -/
theorem reordered_iff (distinct : v.Distinct) : v.Reordered w ↔ v.sortKeys = w.sortKeys :=
  ⟨fun h => h.sorted distinct, .of_sorted⟩

/-! ## Twins -/

/-- Members of the same keys, whose values are related, in the same order. -/
abbrev Pairs (R : Json → Json → Prop) (ms ns : Members) : Prop :=
  List.Forall₂ (fun m n => m.1 = n.1 ∧ R m.2 n.2) ms ns

/-- Two values with distinct keys that are equal up to the order of members. -/
structure Twins (v w : Json) : Prop where
  left : v.Distinct
  right : w.Distinct
  sorted : v.sortKeys = w.sortKeys

namespace Twins

theorem symm (h : v.Twins w) : w.Twins v := ⟨h.right, h.left, h.sorted.symm⟩

theorem trans (h : u.Twins v) (h' : v.Twins w) : u.Twins w :=
  ⟨h.left, h'.right, h.sorted.trans h'.sorted⟩

theorem self (h : v.Distinct) : v.Twins v := ⟨h, h, rfl⟩

/-- What is no container has only itself as a twin. -/
theorem eq_of_flat (h : v.Twins w) (arr : ∀ xs, v ≠ .arr xs) (obj : ∀ ms, v ≠ .obj ms) : w = v := by
  have hsorted := h.sorted
  cases v with
  | arr xs => exact absurd rfl (arr xs)
  | obj ms => exact absurd rfl (obj ms)
  | null | bool | num | str =>
    cases w with
    | arr ys => rw [sortKeys_arr] at hsorted; cases hsorted
    | obj ns => rw [sortKeys_obj] at hsorted; cases hsorted
    | null | bool | num | str => exact hsorted.symm

theorem arr_left (h : (Json.arr xs).Twins w) : ∃ ys, w = .arr ys ∧ List.Forall₂ Twins xs ys := by
  cases w with
  | arr ys =>
    refine ⟨ys, rfl, ?_⟩
    have hsorted := h.sorted
    rw [sortKeys_arr, sortKeys_arr] at hsorted
    have hitems := Json.arr.inj hsorted
    have hleft := eachObject_arr.mp h.left
    have hright := eachObject_arr.mp h.right
    clear h hsorted
    induction xs generalizing ys with
    | nil =>
      cases ys with
      | nil => exact .nil
      | cons y ys => cases hitems
    | cons x xs ih =>
      cases ys with
      | nil => cases hitems
      | cons y ys =>
        rw [List.map_cons, List.map_cons, List.cons.injEq] at hitems
        rw [List.forall_mem_cons] at hleft hright
        exact .cons ⟨hleft.1, hright.1, hitems.1⟩ (ih ys hitems.2 hleft.2 hright.2)
  | null | bool | num | str => exact absurd (h.symm.eq_of_flat (by simp) (by simp)) (by simp)
  | obj ns =>
    have hsorted := h.sorted
    rw [sortKeys_arr, sortKeys_obj] at hsorted
    cases hsorted

theorem pairs_of_sorted (h : List.Forall₂ (fun m n => sortMember m = sortMember n) ms ns)
    (left : ∀ m ∈ ms, m.2.Distinct) (right : ∀ n ∈ ns, n.2.Distinct) : Pairs Twins ms ns := by
  induction h with
  | nil => exact .nil
  | cons hfirst _ ih =>
    rw [List.forall_mem_cons] at left right
    obtain ⟨hkey, hvalue⟩ := Prod.mk.inj hfirst
    exact .cons ⟨hkey, left.1, right.1, hvalue⟩ (ih left.2 right.2)

/-- The members of an object, put in the order of its twin's. -/
theorem obj_left (h : (Json.obj ms).Twins w) :
    ∃ ns mid, w = .obj ns ∧ Pairs Twins ms mid ∧ mid.Perm ns := by
  cases w with
  | obj ns =>
    have hsorted := h.sorted
    rw [sortKeys_obj, sortKeys_obj] at hsorted
    have hperm : (ms.map sortMember).Perm (ns.map sortMember) := by
      have hsort := (sortMembers_perm (ms.map sortMember)).symm
      rw [Json.obj.inj hsorted] at hsort
      exact hsort.trans (sortMembers_perm _)
    have hback : List.Forall₂ (fun m n => m = sortMember n) (ns.map sortMember) ns :=
      List.forall₂_map_left_iff.mpr (List.forall₂_same.mpr fun n _ => rfl)
    obtain ⟨mid, hmid, horder⟩ := List.perm_comp_forall₂ hperm hback
    refine ⟨ns, mid, rfl, ?_, horder⟩
    refine pairs_of_sorted (List.forall₂_map_left_iff.mp hmid) (eachObject_obj.mp h.left).2 ?_
    exact fun m hm => (eachObject_obj.mp h.right).2 m (horder.mem_iff.mp hm)
  | arr ys =>
    have hsorted := h.sorted
    rw [sortKeys_arr, sortKeys_obj] at hsorted
    cases hsorted
  | null | bool | num | str => exact absurd (h.symm.eq_of_flat (by simp) (by simp)) (by simp)

/-- Under each key, twins have twins or nothing. -/
theorem lookup (h : (Json.obj ms).Twins (.obj ns)) (key : String) :
    Option.Rel Twins (ms.lookup key) (ns.lookup key) := by
  obtain ⟨_, mid, heq, hpairs, hperm⟩ := h.obj_left
  cases heq
  have hmid : Option.Rel Twins (ms.lookup key) (mid.lookup key) := by
    clear h hperm
    induction hpairs with
    | nil => exact .none
    | @cons m n ms mid hfirst _ ih =>
      obtain ⟨k, x⟩ := m
      obtain ⟨k', y⟩ := n
      obtain ⟨rfl, htwins⟩ := hfirst
      rw [lookup_cons_if, lookup_cons_if]
      split
      · exact .some htwins
      · exact ih
  rwa [lookup_of_perm hperm h.right.keys] at hmid

/-- A step that leads down in a value leads to a twin of its part in a twin. -/
theorem step {step : Segment} {y : Json} (h : v.Twins w) (hy : w.step? step = some y) :
    ∃ x, v.step? step = some x ∧ x.Twins y := by
  cases w with
  | obj ns =>
    cases step with
    | index i => cases hy
    | key key =>
      obtain ⟨ms, -, rfl, -⟩ := h.symm.obj_left
      have hrel : Option.Rel Twins ((Json.obj ms).step? (.key key)) ((Json.obj ns).step? (.key key)) :=
        h.lookup key
      rw [hy] at hrel
      generalize (Json.obj ms).step? (.key key) = x? at hrel ⊢
      cases hrel with
      | some htwins => exact ⟨_, rfl, htwins⟩
  | arr ys =>
    cases step with
    | key key => cases hy
    | index i =>
      obtain ⟨xs, rfl, hitems⟩ := h.symm.arr_left
      obtain ⟨hi, rfl⟩ := List.getElem?_eq_some_iff.mp (hy : ys[i]? = some y)
      have hi' : i < xs.length := hitems.length_eq ▸ hi
      have hpair : ys[i].Twins xs[i] := List.Forall₂.get hitems hi hi'
      exact ⟨xs[i], List.getElem?_eq_getElem hi', hpair.symm⟩
  | null | bool | num | str => cases step <;> cases hy

theorem at? {place : Position} {y : Json} (h : v.Twins w) (hy : w.at? place = some y) :
    ∃ x, v.at? place = some x ∧ x.Twins y := by
  induction place generalizing v w with
  | nil =>
    cases hy
    exact ⟨v, rfl, h⟩
  | cons step rest ih =>
    obtain ⟨part, hpart, hrest⟩ := Option.bind_eq_some_iff.mp hy
    obtain ⟨part', hpart', htwins⟩ := h.step hpart
    obtain ⟨x, hx, hxy⟩ := ih htwins hrest
    exact ⟨x, Option.bind_eq_some_iff.mpr ⟨part', hpart', hx⟩, hxy⟩

end Twins

end Json

end JsonMend
