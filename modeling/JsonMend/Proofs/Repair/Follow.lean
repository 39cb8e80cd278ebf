import JsonMend.Proofs.Repair.Keys
/-
  How much of a value a repair leaves as it was.

  A repair puts values in at the places that its changes name.  Everywhere else the repaired value has the
  parts of the value that was repaired: an object may lack members, an array has as many items, and any
  other value is the same.

  1. **Following** (`Follows`) — going down both values together, everything is alike but for what was put in
     (`PutIn`).  It is transitive, so it may be shown for one pass after another.
  2. **A visit of the parts** (`PartsRun.follows`) — where the parts follow, the whole does.
  3. **The passes** (`prune_follows`, `coerce_follows`, `settled_follows`) and **the whole repair**
     (`mend_follows`).
-/
namespace JsonMend

open Changed

variable {s sub : Shape} {u v w x y : Json} {put put' : Position → Prop} {step : Segment}
  {place : Position} {ms ns : Members} {changes own : List Change}

/-! ## Following -/

/-- At the top two values are alike: the second has no member that the first lacks, unless it was put in. -/
inductive Outline (put : Position → Prop) : Json → Json → Prop
  | obj {ms ns : Members}
      (keys : ∀ key ∈ ns.map Prod.fst, key ∈ ms.map Prod.fst ∨ put [.key key]) :
      Outline put (.obj ms) (.obj ns)
  | arr {xs ys : List Json} (length : ys.length = xs.length) : Outline put (.arr xs) (.arr ys)
  | flat {v : Json} (noObject : ∀ ms, v ≠ .obj ms) (noArray : ∀ xs, v ≠ .arr xs) : Outline put v v

/-- A value follows another: going down both together, they are alike but for what was put in. -/
inductive Follows : (Position → Prop) → Json → Json → Prop
  | replaced {put : Position → Prop} {v w : Json} (here : put []) : Follows put v w
  | same {put : Position → Prop} {v : Json} : Follows put v v
  | kept {put : Position → Prop} {v w : Json} (outline : Outline put v w)
      (parts : ∀ step x y, v.step? step = some x → w.step? step = some y →
        Follows (fun place => put (step :: place)) x y) : Follows put v w

namespace Outline

theorem refl (put : Position → Prop) (v : Json) : Outline put v v := by
  cases v with
  | obj ms => exact .obj fun key hkey => .inl hkey
  | arr xs => exact .arr rfl
  | null | bool | num | str => exact .flat (fun _ h => nomatch h) (fun _ h => nomatch h)

theorem mono (h : Outline put v w) (weaken : ∀ place, put place → put' place) :
    Outline put' v w := by
  cases h with
  | obj hkeys => exact .obj fun key hkey => (hkeys key hkey).imp_right (weaken _)
  | arr hlength => exact .arr hlength
  | flat hobj harr => exact .flat hobj harr

theorem trans (h : Outline put v u) (h' : Outline put u w) : Outline put v w := by
  cases h with
  | obj hkeys =>
    cases h' with
    | obj hkeys' => exact .obj fun key hkey => (hkeys' key hkey).elim (hkeys key) .inr
    | flat hobj _ => exact absurd rfl (hobj _)
  | arr hlength =>
    cases h' with
    | arr hlength' => exact .arr (hlength'.trans hlength)
    | flat _ harr => exact absurd rfl (harr _)
  | flat hobj harr => exact h'

/-- A part of the second value is a part of the first, unless it was put in. -/
theorem stands (h : Outline put v w) (hy : w.step? step = some y) :
    (∃ x, v.step? step = some x) ∨ put [step] := by
  cases h with
  | @obj ms ns hkeys =>
    cases step with
    | index i => cases hy
    | key key =>
      refine (hkeys key (List.mem_map_of_mem (mem_keys_of_lookup hy))).imp_left fun hkey => ?_
      exact Option.isSome_iff_exists.mp (hasKey_iff.mpr hkey)
  | @arr xs ys hlength =>
    cases step with
    | key key => cases hy
    | index i =>
      have hi : i < xs.length := hlength ▸ (List.getElem?_eq_some_iff.mp hy).1
      exact .inl ⟨xs[i], List.getElem?_eq_getElem hi⟩
  | flat hobj harr => exact .inl ⟨y, hy⟩

end Outline

namespace Follows

/-- Following is replacing, or being alike at the top and below. -/
theorem cases (h : Follows put v w) : put [] ∨ Outline put v w ∧
    ∀ step x y, v.step? step = some x → w.step? step = some y →
      Follows (fun place => put (step :: place)) x y := by
  cases h with
  | replaced hhere => exact .inl hhere
  | same =>
    refine .inr ⟨.refl put v, fun step x y hx hy => ?_⟩
    rw [hx] at hy
    cases hy
    exact .same
  | kept houtline hparts => exact .inr ⟨houtline, hparts⟩

theorem mono (h : Follows put v w) (weaken : ∀ place, put place → put' place) :
    Follows put' v w := by
  induction h generalizing put' with
  | replaced hhere => exact .replaced (weaken _ hhere)
  | same => exact .same
  | kept houtline hparts ih =>
    refine .kept (houtline.mono weaken) fun step x y hx hy => ?_
    exact ih step x y hx hy fun place => weaken _

theorem trans (h : Follows put v u) (h' : Follows put u w) : Follows put v w := by
  induction h generalizing w with
  | @replaced _ v _ hhere => exact .replaced hhere
  | same => exact h'
  | kept houtline hparts ih =>
    rcases h'.cases with hput | ⟨houtline', hparts'⟩
    · exact .replaced hput
    · refine .kept (houtline.trans houtline') fun step x y hx hy => ?_
      rcases houtline'.stands hy with ⟨z, hz⟩ | hput
      · exact ih step x z hx hz (hparts' step z y hz hy)
      · -- what was taken away before was put in again
        exact .replaced hput

end Follows

/-! ## What was put in -/

/-- A change puts a value in at a place. -/
def PutIn (changes : List Change) (place : Position) : Prop :=
  ∃ c ∈ changes, c.place = place ∧ c.edit.after? ≠ none

namespace PutIn

theorem here {edit : Edit} {reason : String} (puts : edit.after? ≠ none) :
    PutIn (.here edit reason :: changes) [] := ⟨_, List.mem_cons_self, rfl, puts⟩

theorem mono (h : PutIn own place) (mem : ∀ c ∈ own, c ∈ changes) : PutIn changes place := by
  obtain ⟨c, hc, hplace, hputs⟩ := h
  exact ⟨c, mem c hc, hplace, hputs⟩

theorem under (h : PutIn own place) (mem : ∀ c ∈ own, c.under step ∈ changes) :
    PutIn changes (step :: place) := by
  obtain ⟨c, hc, rfl, hputs⟩ := h
  exact ⟨c.under step, mem c hc, rfl, hputs⟩

end PutIn

/-! ## A visit of the parts -/

section
variable {pass : Shape → Json → Changed Json} {member : String → Json → Changed (Option Json)}

/-- What became of a member follows it. -/
theorem Changed.MembersRun.follows_part {key : String} (h : MembersRun member ms ns changes)
    (distinct : (Json.obj ms).Distinct)
    (hkept : ∀ {key x y own}, (member key x).run = .ok (some y, own) →
      (s.visit pass key x).run = .ok (y, own))
    (hpass : ∀ {step sub x y own}, s.child step = .ok (some sub) → x.Distinct →
      (pass sub x).run = .ok (y, own) → Follows (PutIn own) x y)
    (hx : ms.lookup key = some x) (hy : (key, y) ∈ ns) :
    Follows (fun place => PutIn changes (.key key :: place)) x y := by
  obtain ⟨x', own, hx', hrun, hrecorded⟩ := h.recorded_of_mem hy
  cases hx.symm.trans (lookup_of_mem distinct.keys hx')
  rcases Shape.visit_run.mp (hkept hrun) with ⟨-, rfl, -⟩ | ⟨sub, hsub, hrun⟩
  · exact .same
  · exact (hpass hsub (distinct.mem hx') hrun).mono fun place hput => hput.under hrecorded

/-- **Where the parts follow, the whole does.** -/
theorem Shape.PartsRun.follows (h : s.PartsRun member pass v w changes) (hv : v.Distinct)
    (hkept : ∀ {key x y own}, (member key x).run = .ok (some y, own) →
      (s.visit pass key x).run = .ok (y, own))
    (hpass : ∀ {step sub x y own}, s.child step = .ok (some sub) → x.Distinct →
      (pass sub x).run = .ok (y, own) → Follows (PutIn own) x y) : Follows (PutIn changes) v w := by
  cases h with
  | members hobject hrun =>
    refine .kept (.obj fun key hkey => .inl (hrun.keys_sublist.subset hkey)) ?_
    rintro (key | i) x y hx hy
    · exact hrun.follows_part hv hkept hpass hx (mem_keys_of_lookup hy)
    · cases hx
  | @items sub xs ys _ hfound hrun =>
    refine .kept (.arr hrun.length_eq) ?_
    rintro (key | i) x y hx hy
    · cases hx
    · obtain ⟨x', own, hx', hrun, hrecorded⟩ := hrun.recorded_of_get hy
      cases hx.symm.trans hx'
      rw [Nat.zero_add] at hrecorded
      have hbelow := hpass (child_of_items hfound i) (hv.item hx') hrun
      exact hbelow.mono fun place hput => hput.under hrecorded
  | whole => exact .same

end

/-! ## The passes -/

theorem prune_follows (h : (prune s v).run = .ok (w, changes)) (hv : v.Distinct) :
    Follows (PutIn changes) v w := by
  induction s using Shape.parts_induction generalizing v w changes with
  | parts s hchild hproperty =>
    exact (prune_cases.mp h).follows hv Prune.visit_of_kept
      fun hsub hx hrun => hchild _ _ hsub hrun hx

theorem coerce_follows (h : (coerce s v).run = .ok (w, changes)) (hv : v.Distinct) :
    Follows (PutIn changes) v w := by
  induction s using Shape.parts_induction generalizing v w changes with
  | parts s hchild hproperty =>
    cases coerce_cases.mp h with
    | kept hadmits hrun =>
      exact hrun.follows hv Shape.visit_of_kept fun hsub hx hrun => hchild _ _ hsub hrun hx
    | stuck hmismatch hfailed hsame =>
      subst hsame
      exact .same
    | coerced hmismatch hfirst hrun => exact .replaced (.here (Option.some_ne_none _))

/-- A missing property that was added is recorded. -/
theorem Defaults.GapsRun.recorded {entries : List (String × Shape)} {name : String}
    (h : GapsRun s entries ns changes) (hmem : name ∈ ns.map Prod.fst) :
    PutIn changes [.key name] := by
  induction h with
  | nil => cases hmem
  | left gap tail ih => exact ih hmem
  | filled gap run tail ih =>
    rcases List.mem_cons.mp hmem with rfl | htail
    · obtain ⟨edit, reason, rfl, -, hafter⟩ := gap.put
      refine ⟨(Change.here edit reason).under (.key _), ?_, rfl, ?_⟩
      · exact List.mem_append_left _ (List.mem_map_of_mem List.mem_cons_self)
      · show edit.after? ≠ none
        rw [hafter]
        exact Option.some_ne_none _
    · exact (ih htail).mono fun c hc => List.mem_append_right _ hc

/-- A value that is settled and filled follows the value, if filling it does. -/
theorem settled_follows (h : (applyDefaults s v).run = .ok (w, changes))
    (hfill : ∀ {w inner}, (fill s v).run = .ok (w, inner) → Follows (PutIn inner) v w) :
    Follows (PutIn changes) v w := by
  obtain ⟨settled, put, inner, hsettle, hrun, rfl⟩ := applyDefaults_cases h
  cases hsettle with
  | kept => exact hfill hrun
  | loose => exact hfill hrun
  | defaulted => exact .replaced (.here (Option.some_ne_none _))
  | emptied => exact .replaced (.here (Option.some_ne_none _))

theorem fill_follows (h : (fill s v).run = .ok (w, changes)) (hv : v.Distinct) :
    Follows (PutIn changes) v w := by
  induction s using Shape.parts_induction generalizing v w changes with
  | parts s hchild hproperty =>
    have hsettled : ∀ {step sub x y own}, s.child step = .ok (some sub) → x.Distinct →
        (applyDefaults sub x).run = .ok (y, own) → Follows (PutIn own) x y :=
      fun hsub hx hrun => settled_follows hrun fun hfill => hchild _ _ hsub hfill hx
    cases fill_cases h with
    | @members ms ns added earlier later hobject hrun hgaps =>
      have hearlier : ∀ {place}, PutIn earlier place → PutIn (earlier ++ later) place :=
        fun h => h.mono fun c hc => List.mem_append_left _ hc
      refine .kept (.obj fun key hkey => ?_) ?_
      · rw [List.map_append, List.mem_append] at hkey
        refine hkey.imp (fun hkey => hrun.keys_sublist.subset hkey) fun hkey => ?_
        exact (hgaps.recorded hkey).mono fun c hc => List.mem_append_right _ hc
      · rintro (key | i) x y hx hy
        · rcases List.mem_append.mp (mem_keys_of_lookup hy) with hmem | hadded
          · have hpart := hrun.follows_part hv Shape.visit_of_kept hsettled hx hmem
            exact hpart.mono fun place => hearlier
          · -- what was added was missing
            obtain ⟨e, he, rfl⟩ :=
              List.mem_map.mp (hgaps.keys_sublist.subset (List.mem_map_of_mem hadded))
            have hmissing := hasKey_eq_false_iff.mp (by simpa using (List.mem_filter.mp he).2)
            exact absurd (List.mem_map_of_mem (mem_keys_of_lookup hx)) hmissing
        · cases hx
    | items hfound hrun =>
      have hparts : s.PartsRun (s.visitKept applyDefaults) applyDefaults (.arr _) (.arr _) changes :=
        .items hfound hrun
      exact hparts.follows hv Shape.visit_of_kept hsettled
    | whole => exact .same

/-! ## The whole repair -/

/-- **The repaired value follows the value that was repaired**, but for what the changes put in. -/
theorem mend_follows (h : (mend s v).run = .ok (w, changes)) (hv : v.Distinct) :
    Follows (PutIn changes) v w := by
  obtain ⟨pruned, dropped, coerced, turned, filled, hprune, hcoerce, hfill, rfl⟩ := mend_cases h
  have hpruned := prune_distinct hprune hv
  have hcoerced := coerce_distinct hcoerce hpruned
  have hfirst := (prune_follows hprune hv).mono fun place hput =>
    hput.mono fun c hc => List.mem_append_left (turned ++ filled) hc
  have hsecond := (coerce_follows hcoerce hpruned).mono fun place hput =>
    hput.mono fun c hc => List.mem_append_right dropped (List.mem_append_left filled hc)
  have hthird := (settled_follows hfill fun hrun => fill_follows hrun hcoerced).mono
    fun place hput => hput.mono fun c hc =>
      List.mem_append_right dropped (List.mem_append_right turned hc)
  exact hfirst.trans (hsecond.trans hthird)

end JsonMend
