import JsonMend.Draft7.Unique
import JsonMend.Draft7.Complaint
import JsonMend.JsonType
import JsonMend.Proofs.Json.Reordered
/-
  What does not depend on the order of members.

  Two values are akin when they are one value, or twins: equal up to the order of members, with distinct keys.
  A comparison goes through both values at once, so what it goes by is one view of a pair of akin values
  (`Akin.View`): the same flat value, arrays of akin items, or objects of akin members in another order.

  1. **Parts** — kind, size, depth, counts and keys are those of any akin value.
  2. **Comparisons** (`same_congr`, `alike_congr`, `less?_congr`) — each asks about items in order and about
     members by key, so it does not tell akin values apart.
  3. **Arrays** (`Unique.holds_congr`, `Unique.duplicate?_congr`) — neither does what is built on them.  The
     sorted items of two akin arrays are akin again, because pairs of akin items may be sorted as pairs.
-/
namespace JsonMend

/-! ## Lists side by side -/

section
variable {α β : Type} {R : α → β → Prop} {xs : List α} {ys : List β}

/-- Two lists side by side are the two sides of a list of pairs. -/
theorem exists_pairs (h : List.Forall₂ R xs ys) :
    ∃ zs : List (α × β), zs.map Prod.fst = xs ∧ zs.map Prod.snd = ys ∧ ∀ z ∈ zs, R z.1 z.2 := by
  induction h with
  | nil => exact ⟨[], rfl, rfl, by simp⟩
  | @cons x y xs ys hfirst _ ih =>
    obtain ⟨zs, rfl, rfl, hrest⟩ := ih
    exact ⟨(x, y) :: zs, rfl, rfl, List.forall_mem_cons.mpr ⟨hfirst, hrest⟩⟩

theorem forall₂_of_pairs {zs : List (α × β)} (h : ∀ z ∈ zs, R z.1 z.2) :
    List.Forall₂ R (zs.map Prod.fst) (zs.map Prod.snd) := by
  rw [List.forall₂_map_left_iff, List.forall₂_map_right_iff, List.forall₂_same]
  exact h

theorem all_congr_of_forall₂ {p : α → Bool} {q : β → Bool} (h : List.Forall₂ R xs ys)
    (congr : ∀ x ∈ xs, ∀ y, R x y → p x = q y) : xs.all p = ys.all q := by
  induction h with
  | nil => rfl
  | cons hfirst _ ih =>
    rw [List.forall_mem_cons] at congr
    rw [List.all_cons, List.all_cons, congr.1 _ hfirst, ih congr.2]

theorem any_congr_of_forall₂ {p : α → Bool} {q : β → Bool} (h : List.Forall₂ R xs ys)
    (congr : ∀ x y, R x y → p x = q y) : xs.any p = ys.any q := by
  induction h with
  | nil => rfl
  | cons hfirst _ ih => rw [List.any_cons, List.any_cons, congr _ _ hfirst, ih]

end

namespace Json

variable {u v w a b a' b' : Json} {xs ys : List Json} {ms ns : Members} {key : String}

/-! ## Akin values -/

/-- Equal, or equal up to the order of members with distinct keys. -/
def Akin (v w : Json) : Prop := v = w ∨ v.Twins w

/-- How two akin values look beside each other. -/
inductive Akin.View : Json → Json → Prop
  | flat {v : Json} (arr : ∀ xs, v ≠ .arr xs) (obj : ∀ ms, v ≠ .obj ms) : View v v
  | arr {xs ys : List Json} (items : List.Forall₂ Akin xs ys) : View (.arr xs) (.arr ys)
  | obj {ms mid ns : Members} (members : Pairs Akin ms mid) (order : mid.Perm ns)
      (lookup : ∀ key, Option.Rel Akin (ms.lookup key) (ns.lookup key)) : View (.obj ms) (.obj ns)

namespace Akin

theorem refl (v : Json) : v.Akin v := .inl rfl

theorem symm (h : v.Akin w) : w.Akin v := h.imp Eq.symm Twins.symm

theorem lookup (h : (Json.obj ms).Akin (.obj ns)) (key : String) :
    Option.Rel Akin (ms.lookup key) (ns.lookup key) := by
  rcases h with h | h
  · cases h
    cases ms.lookup key with
    | none => exact .none
    | some x => exact .some (refl x)
  · have hrel := h.lookup key
    generalize ms.lookup key = x?, ns.lookup key = y? at hrel ⊢
    cases hrel with
    | none => exact .none
    | some htwins => exact .some (.inr htwins)

theorem view (h : v.Akin w) : View v w := by
  rcases h with rfl | h
  · cases v with
    | arr xs => exact .arr (List.forall₂_same.mpr fun x _ => refl x)
    | obj ms =>
      exact .obj (List.forall₂_same.mpr fun m _ => ⟨rfl, refl m.2⟩) (.refl _)
        fun key => lookup (refl _) key
    | null | bool | num | str => exact .flat (by simp) (by simp)
  · cases v with
    | arr xs =>
      obtain ⟨ys, rfl, hitems⟩ := h.arr_left
      exact .arr (hitems.imp fun _ _ => .inr)
    | obj ms =>
      obtain ⟨ns, mid, rfl, hpairs, horder⟩ := h.obj_left
      exact .obj (hpairs.imp fun _ _ hpair => ⟨hpair.1, .inr hpair.2⟩) horder
        fun key => lookup (.inr h) key
    | null | bool | num | str => rw [h.eq_of_flat (by simp) (by simp)]; exact .flat (by simp) (by simp)

theorem reordered (h : v.Akin w) : v.Reordered w := by
  rcases h with rfl | h
  · exact .refl v
  · exact .of_sorted h.sorted

theorem sorted (h : v.Akin w) : v.sortKeys = w.sortKeys := by
  rcases h with rfl | h
  · rfl
  · exact h.sorted

end Akin

/-! ## Parts -/

theorem itemsDepth_append (xs ys : List Json) :
    itemsDepth (xs ++ ys) = max (itemsDepth xs) (itemsDepth ys) := by
  induction xs with
  | nil => simp [itemsDepth]
  | cons x xs ih => simp only [List.cons_append, itemsDepth, ih]; omega

theorem membersDepth_append (ms ns : Members) :
    membersDepth (ms ++ ns) = max (membersDepth ms) (membersDepth ns) := by
  induction ms with
  | nil => simp [membersDepth]
  | cons m ms ih => simp only [List.cons_append, membersDepth, ih]; omega

theorem Reordered.depth_eq (h : v.Reordered w) : v.depth = w.depth := by
  induction h with
  | refl v => rfl
  | trans _ _ ih ih' => exact ih.trans ih'
  | order hperm =>
    simp only [depth]
    induction hperm with
    | nil => rfl
    | cons m _ ih => simp only [membersDepth]; omega
    | swap m n ms => simp only [membersDepth]; omega
    | trans _ _ ih ih' => exact ih.trans ih'
  | item _ ih => simp only [depth, itemsDepth_append, itemsDepth, ih]
  | member _ ih => simp only [depth, membersDepth_append, membersDepth, ih]

namespace Akin

theorem isBool_eq (h : v.Akin w) : v.isBool = w.isBool := by
  cases h.view <;> rfl

theorem isOfTypeNamed_eq (h : v.Akin w) : v.isOfTypeNamed = w.isOfTypeNamed := by
  funext name
  cases h.view with
  | flat => rfl
  | arr | obj =>
    -- the type of a container does not depend on its parts
    unfold isOfTypeNamed
    cases JsonType.ofName? name with
    | none => rfl
    | some t => cases t <;> rfl

theorem count?_eq (h : v.Akin w) (what : Countable) : v.count? what = w.count? what := by
  cases h.view with
  | flat => rfl
  | arr hitems => cases what <;> simp [count?, hitems.length_eq]
  | obj hmembers horder => cases what <;> simp [count?, hmembers.length_eq, horder.length_eq]

theorem hasKey_eq (h : (Json.obj ms).Akin (.obj ns)) (key : String) : hasKey ms key = hasKey ns key := by
  have hrel := h.lookup key
  unfold hasKey
  generalize ms.lookup key = x?, ns.lookup key = y? at hrel ⊢
  cases hrel <;> rfl

end Akin

/-! ## Comparisons -/

/-- A comparison of flat values holds of no container. -/
structure FlatLeaf (leaf : Json → Json → Bool) : Prop where
  arr_left : ∀ xs b, leaf (.arr xs) b = false
  arr_right : ∀ a ys, leaf a (.arr ys) = false
  obj_left : ∀ ms b, leaf (.obj ms) b = false
  obj_right : ∀ a ns, leaf a (.obj ns) = false

theorem flatLeaf_same : FlatLeaf sameLeaf where
  arr_left xs b := by cases b <;> rfl
  arr_right a ys := by cases a <;> rfl
  obj_left ms b := by cases b <;> rfl
  obj_right a ns := by cases a <;> rfl

theorem flatLeaf_alike : FlatLeaf alikeLeaf where
  arr_left xs b := by cases b <;> rfl
  arr_right a ys := by cases a <;> rfl
  obj_left ms b := by cases b <;> rfl
  obj_right a ns := by cases a <;> rfl

section
variable {leaf : Json → Json → Bool}

/-- What `agree` asks of one member. -/
def agreeMember (leaf : Json → Json → Bool) (ns : Members) (m : String × Json) : Bool :=
  match ns.lookup m.1 with
  | some w => agree leaf m.2 w
  | none => false

theorem agreeMembers_eq_all (leaf : Json → Json → Bool) (ms ns : Members) :
    agreeMembers leaf ms ns = ms.all (agreeMember leaf ns) := by
  induction ms with
  | nil => rfl
  | cons m ms ih => rw [agreeMembers, List.all_cons, ih]; rfl

theorem agreeItems_congr {xs xs' ys ys' : List Json} (hxs : List.Forall₂ Akin xs xs')
    (hys : List.Forall₂ Akin ys ys')
    (congr : ∀ x ∈ xs, ∀ {x' y y'}, x.Akin x' → y.Akin y' → agree leaf x y = agree leaf x' y') :
    agreeItems leaf xs ys = agreeItems leaf xs' ys' := by
  induction hxs generalizing ys ys' with
  | nil => cases hys <;> rfl
  | cons hx _ ih =>
    rw [List.forall_mem_cons] at congr
    cases hys with
    | nil => rfl
    | cons hy hys => rw [agreeItems, agreeItems, congr.1 hx hy, ih hys congr.2]

/-- Akin values agree with the same values. -/
theorem agree_congr (flat : FlatLeaf leaf) (ha : a.Akin a') (hb : b.Akin b') :
    agree leaf a b = agree leaf a' b' := by
  induction a using induction_on_parts generalizing a' b b' with
  | null | bool | num | str =>
    cases ha.view
    cases hb.view with
    | flat => rfl
    | arr => simp only [agree, flat.arr_right]
    | obj => simp only [agree, flat.obj_right]
  | arr xs ih =>
    cases ha.view with
    | flat harr _ => exact absurd rfl (harr xs)
    | arr hxs =>
      cases hb.view with
      | @flat b harr _ =>
        cases b with
        | arr ys => exact absurd rfl (harr ys)
        | null | bool | num | str | obj => simp only [agree, flat.arr_left]
      | arr hys => exact agreeItems_congr hxs hys fun x hx _ _ _ hx' hy => ih x hx hx' hy
      | obj => simp only [agree, flat.arr_left]
  | obj ms ih =>
    cases ha.view with
    | flat _ hobj => exact absurd rfl (hobj ms)
    | obj hmembers horder hlookup =>
      cases hb.view with
      | @flat b _ hobj =>
        cases b with
        | obj ns => exact absurd rfl (hobj ns)
        | null | bool | num | str | arr => simp only [agree, flat.obj_left]
      | arr => simp only [agree, flat.obj_left]
      | @obj ns _ ns' hmembers' horder' hlookup' =>
        simp only [agree, agreeMembers_eq_all]
        -- the members may be asked about in any order, and each is looked up by its key
        rw [hmembers.length_eq, horder.length_eq, hmembers'.length_eq, horder'.length_eq,
          ← horder.all_eq]
        congr 1
        refine all_congr_of_forall₂ hmembers fun m hm n hmn => ?_
        have hrel := hlookup' m.1
        unfold agreeMember
        rw [← hmn.1]
        generalize ns.lookup m.1 = x?, ns'.lookup m.1 = y? at hrel ⊢
        cases hrel with
        | none => rfl
        | some hxy => exact ih m hm hmn.2 hxy

end

theorem same_congr (ha : a.Akin a') (hb : b.Akin b') : a.same b = a'.same b' :=
  agree_congr flatLeaf_same ha hb

theorem alike_congr (ha : a.Akin a') (hb : b.Akin b') : a.alike b = a'.alike b' :=
  agree_congr flatLeaf_alike ha hb

theorem lessItems?_congr {xs xs' ys ys' : List Json} (hxs : List.Forall₂ Akin xs xs')
    (hys : List.Forall₂ Akin ys ys')
    (congr : ∀ x ∈ xs, ∀ {x' y y'}, x.Akin x' → y.Akin y' → less? x y = less? x' y') :
    lessItems? xs ys = lessItems? xs' ys' := by
  induction hxs generalizing ys ys' with
  | nil => cases hys <;> rfl
  | cons hx _ ih =>
    rw [List.forall_mem_cons] at congr
    cases hys with
    | nil => rfl
    | cons hy hys => rw [lessItems?, lessItems?, alike_congr hx hy, congr.1 hx hy, ih hys congr.2]

/-- Akin values are less than the same values. -/
theorem less?_congr (ha : a.Akin a') (hb : b.Akin b') : a.less? b = a'.less? b' := by
  induction a using induction_on_parts generalizing a' b b' with
  | null | bool | num | str =>
    cases ha.view
    cases hb.view with
    | flat => rfl
    | arr | obj => rfl
  | arr xs ih =>
    cases ha.view with
    | flat harr _ => exact absurd rfl (harr xs)
    | arr hxs =>
      cases hb.view with
      | @flat b harr _ =>
        cases b with
        | arr ys => exact absurd rfl (harr ys)
        | null | bool | num | str | obj => rfl
      | arr hys => exact lessItems?_congr hxs hys fun x hx _ _ _ hx' hy => ih x hx hx' hy
      | obj => rfl
  | obj ms ih =>
    cases ha.view with
    | flat _ hobj => exact absurd rfl (hobj ms)
    | obj =>
      cases hb.view with
      | @flat b _ _ => cases b <;> rfl
      | arr | obj => rfl

end Json

/-! ## Arrays -/

namespace Unique

open Json

variable {xs ys : List Json} {a b a' b' : Json}

theorem itemLess?_congr (ha : a.Akin a') (hb : b.Akin b') : itemLess? a b = itemLess? a' b' := by
  rw [itemLess?, itemLess?, ha.isBool_eq, hb.isBool_eq, less?_congr ha hb]

theorem allComparable_congr (h : List.Forall₂ Akin xs ys) : allComparable xs = allComparable ys := by
  induction h with
  | nil => rfl
  | cons hx hrest ih =>
    rw [allComparable, allComparable, ih,
      all_congr_of_forall₂ hrest fun _ _ _ hy => by rw [itemLess?_congr hx hy]]

theorem allDiffer_congr (h : List.Forall₂ Akin xs ys) : allDiffer xs = allDiffer ys := by
  induction h with
  | nil => rfl
  | cons hx hrest ih =>
    rw [allDiffer, allDiffer, ih, all_congr_of_forall₂ hrest fun _ _ _ hy => by rw [same_congr hx hy]]

theorem neighboursDiffer_congr (h : List.Forall₂ Akin xs ys) :
    neighboursDiffer xs = neighboursDiffer ys := by
  induction h with
  | nil => rfl
  | cons hx hrest ih =>
    cases hrest with
    | nil => rfl
    | cons hy hrest => rw [neighboursDiffer, neighboursDiffer, same_congr hx hy, ih]

/-- Sorting two lists of akin items takes them to akin lists: pairs of akin items are sorted. -/
theorem sorted_akin (h : List.Forall₂ Akin xs ys) : List.Forall₂ Akin (sorted xs) (sorted ys) := by
  obtain ⟨zs, rfl, rfl, hakin⟩ := exists_pairs h
  let le (p q : Json × Json) : Bool := itemLess? q.1 p.1 != some true
  have hfirst : (zs.mergeSort le).map Prod.fst = sorted (zs.map Prod.fst) :=
    List.map_mergeSort fun _ _ _ _ => rfl
  have hsecond : (zs.mergeSort le).map Prod.snd = sorted (zs.map Prod.snd) :=
    List.map_mergeSort fun p hp q hq => by
      simp only [le, itemLess?_congr (hakin q hq) (hakin p hp)]
  rw [← hfirst, ← hsecond]
  exact forall₂_of_pairs fun z hz => hakin z ((List.mergeSort_perm zs le).mem_iff.mp hz)

theorem holds_congr (h : List.Forall₂ Akin xs ys) : holds xs = holds ys := by
  rw [holds, holds, allComparable_congr h, neighboursDiffer_congr (sorted_akin h), allDiffer_congr h]

end Unique

end JsonMend
