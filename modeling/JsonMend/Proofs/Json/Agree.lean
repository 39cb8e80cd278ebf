import JsonMend.Proofs.Json.Akin
/-
  How the comparisons of values go together.

  All comparisons go through two values in one way and differ only in how they compare flat values.  So what
  they share is shown of that way, from what holds of the flat values.

  1. **Two values that agree** (`agree_iff`) — they are flat and compare, or arrays whose items agree in turn, or
     objects of one size in which each member of the first has its partner.
  2. **Coarser comparisons** (`agree_mono`) — a comparison that holds of more flat values holds of more values.
  3. **Both ways round** (`agree_symm`) — objects are compared from the first one only, so that they agree the other
     way round as well needs keys that occur once: equally many keys of which one list holds the other are the
     same keys.
-/
namespace JsonMend

/-- Two lists side by side, with what is known of their entries. -/
theorem forall₂_imp_of_mem {α β : Type} {R S : α → β → Prop} {xs : List α} {ys : List β}
    (h : List.Forall₂ R xs ys) (imp : ∀ x ∈ xs, ∀ y ∈ ys, R x y → S x y) : List.Forall₂ S xs ys := by
  obtain ⟨hlength, hzip⟩ := List.forall₂_iff_zip.mp h
  refine List.forall₂_iff_zip.mpr ⟨hlength, fun hmem => ?_⟩
  obtain ⟨hx, hy⟩ := List.of_mem_zip hmem
  exact imp _ hx _ hy (hzip hmem)

namespace Json

variable {leaf coarser : Json → Json → Bool} {a b : Json} {xs ys : List Json} {ms ns : Members}

/-! ## Two values that agree -/

/-- How two values look that agree. -/
inductive Agree (leaf : Json → Json → Bool) : Json → Json → Prop
  | flat {a b : Json} (compare : leaf a b = true) : Agree leaf a b
  | arr {xs ys : List Json} (items : List.Forall₂ (fun x y => agree leaf x y = true) xs ys) :
      Agree leaf (.arr xs) (.arr ys)
  | obj {ms ns : Members} (length : ms.length = ns.length)
      (partner : ∀ m ∈ ms, ∃ w, ns.lookup m.1 = some w ∧ agree leaf m.2 w = true) :
      Agree leaf (.obj ms) (.obj ns)

theorem agreeItems_iff :
    agreeItems leaf xs ys = true ↔ List.Forall₂ (fun x y => agree leaf x y = true) xs ys := by
  induction xs generalizing ys with
  | nil => cases ys <;> simp [agreeItems]
  | cons x xs ih =>
    cases ys with
    | nil => simp [agreeItems]
    | cons y ys => rw [agreeItems, Bool.and_eq_true, ih, List.forall₂_cons]

theorem agreeMember_iff {m : String × Json} :
    agreeMember leaf ns m = true ↔ ∃ w, ns.lookup m.1 = some w ∧ agree leaf m.2 w = true := by
  unfold agreeMember
  cases ns.lookup m.1 with
  | none => simp
  | some w => simp

theorem agree_iff (flat : FlatLeaf leaf) : agree leaf a b = true ↔ Agree leaf a b := by
  constructor
  · intro h
    cases a with
    | arr xs =>
      cases b with
      | arr ys => exact .arr (agreeItems_iff.mp h)
      | null | bool | num | str | obj => exact .flat h
    | obj ms =>
      cases b with
      | obj ns =>
        rw [agree, agreeMembers_eq_all, Bool.and_eq_true, beq_iff_eq, List.all_eq_true] at h
        exact .obj h.1 fun m hm => agreeMember_iff.mp (h.2 m hm)
      | null | bool | num | str | arr => exact .flat h
    | null | bool | num | str => exact .flat h
  · intro h
    cases h with
    | flat hcompare =>
      cases a with
      | arr xs => exact absurd ((flat.arr_left xs b).symm.trans hcompare) Bool.false_ne_true
      | obj ms => exact absurd ((flat.obj_left ms b).symm.trans hcompare) Bool.false_ne_true
      | null | bool | num | str => simpa only [agree] using hcompare
    | arr hitems => exact agreeItems_iff.mpr hitems
    | obj hlength hpartner =>
      rw [agree, agreeMembers_eq_all, Bool.and_eq_true, beq_iff_eq, List.all_eq_true]
      exact ⟨hlength, fun m hm => agreeMember_iff.mpr (hpartner m hm)⟩

/-! ## Coarser comparisons -/

/-- **A coarser comparison of flat values makes a coarser comparison of values.** -/
theorem agree_mono (flat : FlatLeaf leaf) (flat' : FlatLeaf coarser)
    (coarse : ∀ a b, leaf a b = true → coarser a b = true) (h : agree leaf a b = true) :
    agree coarser a b = true := by
  induction a using induction_on_parts generalizing b with
  | null | bool | num | str =>
    cases (agree_iff flat).mp h with
    | flat hcompare => exact (agree_iff flat').mpr (.flat (coarse _ _ hcompare))
  | arr xs ih =>
    refine (agree_iff flat').mpr ?_
    cases (agree_iff flat).mp h with
    | flat hcompare => exact .flat (coarse _ _ hcompare)
    | arr hitems =>
      exact .arr (forall₂_imp_of_mem hitems fun x hx _ _ => ih x hx)
  | obj ms ih =>
    refine (agree_iff flat').mpr ?_
    cases (agree_iff flat).mp h with
    | flat hcompare => exact .flat (coarse _ _ hcompare)
    | obj hlength hpartner =>
      refine .obj hlength fun m hm => ?_
      obtain ⟨w, hw, hagree⟩ := hpartner m hm
      exact ⟨w, hw, ih m hm hagree⟩

theorem alikeLeaf_of_sameLeaf (h : sameLeaf a b = true) : alikeLeaf a b = true := by
  cases a with
  | bool x =>
    cases b with
    | bool y =>
      cases beq_iff_eq.mp h
      exact Number.sameValue_refl _
    | null | num | str | arr | obj => cases h
  | null | num | str | arr | obj => cases b <;> first | exact h | cases h

/-- **What is the same is alike.** -/
theorem alike_of_same (h : a.same b = true) : a.alike b = true :=
  agree_mono flatLeaf_same flatLeaf_alike (fun _ _ => alikeLeaf_of_sameLeaf) h

theorem isBool_eq_of_same (h : a.same b = true) : a.isBool = b.isBool := by
  cases (agree_iff flatLeaf_same).mp h with
  | flat hcompare => cases a <;> cases b <;> first | rfl | cases hcompare
  | arr | obj => rfl

/-! ## Both ways round -/

/-- Where the keys of the first members occur once and all have partners among equally many others, these have
no other keys. -/
theorem mem_keys_of_partners (length : ms.length = ns.length) (nodup : (ms.map Prod.fst).Nodup)
    (partner : ∀ m ∈ ms, ∃ w, ns.lookup m.1 = some w) : ∀ n ∈ ns, n.1 ∈ ms.map Prod.fst := by
  intro n hn
  have hsub : ms.map Prod.fst ⊆ ns.map Prod.fst := by
    intro key hkey
    obtain ⟨m, hm, rfl⟩ := List.mem_map.mp hkey
    obtain ⟨w, hw⟩ := partner m hm
    exact List.mem_map.mpr ⟨_, mem_keys_of_lookup hw, rfl⟩
  have hperm : (ms.map Prod.fst).Perm (ns.map Prod.fst) :=
    (List.subperm_of_subset nodup hsub).perm_of_length_le (by simp [length])
  exact hperm.mem_iff.mpr (List.mem_map_of_mem hn)

/-- **Values that agree agree the other way round**, where no key occurs twice. -/
theorem agree_symm (flat : FlatLeaf leaf) (symm : ∀ a b, leaf a b = true → leaf b a = true)
    (ha : a.Distinct) (hb : b.Distinct) (h : agree leaf a b = true) : agree leaf b a = true := by
  induction a using induction_on_parts generalizing b with
  | null | bool | num | str =>
    cases (agree_iff flat).mp h with
    | flat hcompare => exact (agree_iff flat).mpr (.flat (symm _ _ hcompare))
  | arr xs ih =>
    refine (agree_iff flat).mpr ?_
    cases (agree_iff flat).mp h with
    | flat hcompare => exact .flat (symm _ _ hcompare)
    | @arr _ ys hitems =>
      refine .arr (List.Forall₂.flip (forall₂_imp_of_mem hitems fun x hx y hy => ?_))
      exact ih x hx (eachObject_arr.mp ha x hx) (eachObject_arr.mp hb y hy)
  | obj ms ih =>
    refine (agree_iff flat).mpr ?_
    cases (agree_iff flat).mp h with
    | flat hcompare => exact .flat (symm _ _ hcompare)
    | @obj _ ns hlength hpartner =>
      have hkeys := mem_keys_of_partners hlength ha.keys fun m hm => (hpartner m hm).imp fun _ => And.left
      refine .obj hlength.symm fun n hn => ?_
      obtain ⟨m, hm, hkey⟩ := List.mem_map.mp (hkeys n hn)
      obtain ⟨w, hw, hagree⟩ := hpartner m hm
      -- the partner of the member is the one that was asked about, because its key occurs once
      rw [hkey, lookup_of_mem hb.keys hn] at hw
      cases hw
      refine ⟨m.2, ?_, ih m hm (ha.mem hm) (hb.mem hn) hagree⟩
      rw [← hkey]
      exact lookup_of_mem ha.keys hm

theorem sameLeaf_symm (h : sameLeaf a b = true) : sameLeaf b a = true := by
  cases a with
  | num m =>
    cases b with
    | num n => exact (Number.sameValue_symm n m).trans h
    | null | bool | str | arr | obj => cases h
  | bool x =>
    cases b with
    | bool y => exact beq_iff_eq.mpr (beq_iff_eq.mp h).symm
    | null | num | str | arr | obj => cases h
  | str s =>
    cases b with
    | str t => exact beq_iff_eq.mpr (beq_iff_eq.mp h).symm
    | null | bool | num | arr | obj => cases h
  | null =>
    cases b with
    | null => rfl
    | bool | num | str | arr | obj => cases h
  | arr | obj => cases b <;> cases h

/-- **Values that are the same are the same the other way round**, where no key occurs twice. -/
theorem same_symm (ha : a.Distinct) (hb : b.Distinct) (h : a.same b = true) : b.same a = true :=
  agree_symm flatLeaf_same (fun _ _ => sameLeaf_symm) ha hb h

end Json

end JsonMend
