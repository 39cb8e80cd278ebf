import JsonMend.Proofs.Repair.Passes
import JsonMend.Proofs.Repair.Scalar
import JsonMend.Proofs.Shape.Schema
import JsonMend.Proofs.Pointer.Split
/-
  Which keys the passes leave, and by which keys their changes are reached.

  1. **Keys that are left** — pruning only takes keys away and coercing changes none, so what holds of all
     key lists of a value, and of all their sublists, holds after both (`prune_eachObject`,
     `coerce_eachObject`).  Filling adds keys, but none that is there already (`fill_distinct`).
  2. **Named changes** — a change of a pass is at the value itself, under an index, or under a key that
     the value, a default or the shape has; so no pass changes anything under the empty key unless one
     of these has it (`prune_named`, `coerce_named`, `applyDefaults_named`).
-/
namespace JsonMend

open Changed

variable {P : List String → Prop} {s : Shape} {v w : Json} {changes : List Change}

/-! ## Keys that are left -/

theorem Shape.PartsRun.eachObject {member : String → Json → Changed (Option Json)}
    {pass : Shape → Json → Changed Json} (hsublist : ∀ ks ls, ls.Sublist ks → P ks → P ls)
    (hkept : ∀ {key x y own}, (member key x).run = .ok (some y, own) →
      (s.visit pass key x).run = .ok (y, own))
    (hpass : ∀ step sub, s.child step = .ok (some sub) → ∀ x y own, x.EachObject P →
      (pass sub x).run = .ok (y, own) → y.EachObject P)
    (h : s.PartsRun member pass v w changes) (hv : v.EachObject P) : w.EachObject P := by
  cases h with
  | members hobject hrun =>
    rw [Json.eachObject_obj] at hv
    refine .obj (hsublist _ _ hrun.keys_sublist hv.1) fun m hm => ?_
    obtain ⟨x, own, hx, hstep⟩ := hrun.member_of_mem hm
    rcases visit_run.mp (hkept hstep) with ⟨-, hsame, -⟩ | ⟨sub, hsub, hrun⟩
    · rw [hsame]
      exact hv.2 _ hx
    · exact hpass _ sub hsub x m.2 own (hv.2 _ hx) hrun
  | items hfound hrun =>
    rw [Json.eachObject_arr] at hv
    refine .arr fun y hy => ?_
    obtain ⟨x, hx, own, hstep⟩ := hrun.item_of_mem hy
    exact hpass _ _ (child_of_items hfound 0) x y own (hv x hx) hstep
  | whole => exact hv

theorem prune_eachObject (hsublist : ∀ ks ls, ls.Sublist ks → P ks → P ls)
    (h : (prune s v).run = .ok (w, changes)) (hv : v.EachObject P) : w.EachObject P := by
  induction s using Shape.parts_induction generalizing v w changes with
  | parts s hchild hproperty =>
    refine (prune_cases.mp h).eachObject hsublist Prune.visit_of_kept ?_ hv
    intro step sub hsub x y own hx hprune
    exact hchild step sub hsub hprune hx

theorem coerce_eachObject (hsublist : ∀ ks ls, ls.Sublist ks → P ks → P ls)
    (h : (coerce s v).run = .ok (w, changes)) (hv : v.EachObject P) : w.EachObject P := by
  induction s using Shape.parts_induction generalizing v w changes with
  | parts s hchild hproperty =>
    have hparts : ∀ {own inner}, own.EachObject P →
        s.PartsRun (s.visitKept coerce) coerce own w inner → w.EachObject P := by
      intro own inner hown hrun
      refine hrun.eachObject hsublist Shape.visit_of_kept ?_ hown
      intro step sub hsub x y own hx hcoerce
      exact hchild step sub hsub hcoerce hx
    cases coerce_cases.mp h with
    | kept hadmits hrun => exact hparts hv hrun
    | stuck hmismatch hfailed hsame => rw [hsame]; exact hv
    | coerced hmismatch hfirst hrun =>
      -- what a scalar is turned into has no keys at all
      have hnamed := Coerce.toTypeNamed_of_firstSuccess hfirst
      exact hparts (Coerce.eachObject_of_toTypeNamed hnamed) hrun

theorem prune_distinct (h : (prune s v).run = .ok (w, changes)) (hv : v.Distinct) : w.Distinct :=
  prune_eachObject (fun _ _ hsublist hnodup => hnodup.sublist hsublist) h hv

theorem coerce_distinct (h : (coerce s v).run = .ok (w, changes)) (hv : v.Distinct) : w.Distinct :=
  coerce_eachObject (fun _ _ hsublist hnodup => hnodup.sublist hsublist) h hv

/-- What is put in the place of a value is the value, the default or an empty object. -/
theorem Defaults.SettleRun.eachObject {own : Json} (h : SettleRun s v own changes) (hnil : P [])
    (hv : v.EachObject P) (hdefault : ∀ d, s.fallback = some d → d.EachObject P) :
    own.EachObject P := by
  cases h with
  | kept => exact hv
  | loose => exact hv
  | defaulted _ _ hd => exact hdefault _ hd
  | emptied => exact .obj hnil fun _ hm => absurd hm List.not_mem_nil

/-- What is put in the place of a missing property is the default or empty. -/
theorem Defaults.GapRun.eachObject {isRequired : Bool} {own : Json}
    (h : GapRun isRequired s (some own) changes) (hnil : P [])
    (hdefault : ∀ d, s.fallback = some d → d.EachObject P) : own.EachObject P := by
  cases h with
  | default hd => exact hdefault _ hd
  | object => exact .obj hnil fun _ hm => absurd hm List.not_mem_nil
  | array => exact .arr fun _ hx => absurd hx List.not_mem_nil

theorem fill_distinct (hs : s.Everywhere (Shape.KeyLists List.Nodup))
    (h : (fill s v).run = .ok (w, changes)) (hv : v.Distinct) : w.Distinct := by
  induction s using Shape.parts_induction generalizing v w changes with
  | parts s hchild hproperty =>
    have hsettled : ∀ {step sub x y own}, s.child step = .ok (some sub) → x.Distinct →
        (applyDefaults sub x).run = .ok (y, own) → y.Distinct := by
      intro step sub x y own hsub hx hrun
      obtain ⟨settled, put, inner, hsettle, hfill, -⟩ := applyDefaults_cases hrun
      have hsub' := hs.child hsub
      exact hchild step sub hsub hsub' hfill
        (hsettle.eachObject List.nodup_nil hx hsub'.here.fallback)
    cases fill_cases h with
    | @members ms ns added earlier later hobject hrun hgaps =>
      have hkeys : ns.map Prod.fst = ms.map Prod.fst :=
        hrun.keys_eq fun _ _ _ _ hstep => Shape.visitKept_ne_none hstep
      refine .obj ?_ fun m hm => ?_
      · rw [List.map_append, hkeys, List.nodup_append]
        have hmissing : (Defaults.missing s ms).map Prod.fst |>.Nodup :=
          hs.here.properties.sublist (List.filter_sublist.map _)
        refine ⟨hv.keys, hmissing.sublist hgaps.keys_sublist, ?_⟩
        -- a key that was added was missing
        rintro key hkey _ hadded rfl
        obtain ⟨e, he, rfl⟩ := List.mem_map.mp (hgaps.keys_sublist.subset hadded)
        have hfree := (List.mem_filter.mp he).2
        simp only [hasKey_iff.mpr hkey] at hfree
        cases hfree
      · rcases List.mem_append.mp hm with hm | hm
        · obtain ⟨x, own, hx, hstep⟩ := hrun.member_of_mem hm
          rcases Shape.visit_run.mp (Shape.visit_of_kept hstep) with ⟨-, hsame, -⟩ | ⟨sub, hsub, hrun⟩
          · rw [hsame]
            exact hv.mem hx
          · exact hsettled hsub (hv.mem hx) hrun
        · obtain ⟨sub, own, put, inner, hentry, hgap, hfill⟩ := hgaps.entry_of_mem hm
          have hdeclared := (List.mem_filter.mp hentry).1
          have hsub := hs.property hdeclared
          exact hproperty _ hdeclared hsub hfill (hgap.eachObject List.nodup_nil hsub.here.fallback)
    | items hfound hrun =>
      refine .arr fun y hy => ?_
      obtain ⟨x, hx, own, hstep⟩ := hrun.item_of_mem hy
      exact hsettled (Shape.child_of_items hfound 0) (Json.eachObject_arr.mp hv x hx) hstep
    | whole => exact hv

theorem mend_distinct (hs : s.Everywhere (Shape.KeyLists List.Nodup))
    (h : (mend s v).run = .ok (w, changes)) (hv : v.Distinct) : w.Distinct := by
  obtain ⟨pruned, dropped, coerced, turned, filled, hprune, hcoerce, hdefaults, -⟩ := mend_cases h
  obtain ⟨own, put, inner, hsettle, hfill, -⟩ := applyDefaults_cases hdefaults
  have hcoerced := coerce_distinct hcoerce (prune_distinct hprune hv)
  exact fill_distinct hs hfill (hsettle.eachObject List.nodup_nil hcoerced hs.here.fallback)

/-! ## Named changes -/

/-- The first step to a change is not the empty key. -/
def Change.Named (c : Change) : Prop := ∀ step ∈ c.place.head?, step.text ≠ ""

theorem Change.named_here (edit : Edit) (reason : String) : (Change.here edit reason).Named :=
  fun _ h => nomatch h

theorem Change.named_under_index (c : Change) (i : Nat) : (c.under (.index i)).Named := by
  rintro step ⟨⟩
  exact Pointer.index_text_ne i

theorem Change.named_under_key {key : String} (hkey : key ≠ "") (c : Change) :
    (c.under (.key key)).Named := by
  rintro step ⟨⟩
  exact hkey

theorem Changed.MembersRun.named {step : String → Json → Changed (Option Json)} {ms ns : Members}
    (h : MembersRun step ms ns changes) (hms : "" ∉ ms.map Prod.fst) : ∀ c ∈ changes, c.Named := by
  intro c hc
  obtain ⟨key, x, y?, own, inner, hx, -, -, rfl⟩ := h.member_of_change hc
  refine inner.named_under_key ?_
  rintro rfl
  exact hms (List.mem_map.mpr ⟨_, hx, rfl⟩)

theorem Changed.ItemsRun.named {step : Json → Changed Json} {i : Nat} {xs ys : List Json}
    (h : ItemsRun step i xs ys changes) : ∀ c ∈ changes, c.Named := by
  intro c hc
  obtain ⟨j, x, y, own, inner, -, -, -, rfl⟩ := h.item_of_change hc
  exact inner.named_under_index (i + j)

theorem Shape.PartsRun.named {member : String → Json → Changed (Option Json)}
    {item : Shape → Json → Changed Json} (h : s.PartsRun member item v w changes)
    (hv : v.NoEmptyKey) : ∀ c ∈ changes, c.Named := by
  cases h with
  | members hobject hrun => exact hrun.named (Json.eachObject_obj.mp hv).1
  | items hitems hrun => exact hrun.named
  | whole => exact fun _ hc => absurd hc List.not_mem_nil

theorem prune_named (h : (prune s v).run = .ok (w, changes)) (hv : v.NoEmptyKey) :
    ∀ c ∈ changes, c.Named := (prune_cases.mp h).named hv

theorem coerce_named (h : (coerce s v).run = .ok (w, changes)) (hv : v.NoEmptyKey) :
    ∀ c ∈ changes, c.Named := by
  cases coerce_cases.mp h with
  | kept hadmits hrun => exact hrun.named hv
  | stuck hmismatch hfailed hsame => exact fun _ hc => absurd hc List.not_mem_nil
  | coerced hmismatch hfirst hrun =>
    have hnamed := Coerce.toTypeNamed_of_firstSuccess hfirst
    rintro c (_ | ⟨_, hc⟩)
    · exact Change.named_here _ _
    · exact hrun.named (Coerce.eachObject_of_toTypeNamed hnamed) c hc

theorem fill_named (h : (fill s v).run = .ok (w, changes)) (hv : v.NoEmptyKey)
    (hs : "" ∉ s.properties.map Prod.fst) : ∀ c ∈ changes, c.Named := by
  cases fill_cases h with
  | members hobject hrun hgaps =>
    intro c hc
    rcases List.mem_append.mp hc with hc | hc
    · exact hrun.named (Json.eachObject_obj.mp hv).1 c hc
    · -- what is put in stands under a name that the shape declares
      obtain ⟨name, sub, _, _, _, _, c', hentry, -, -, -, rfl⟩ := hgaps.entry_of_change hc
      refine c'.named_under_key ?_
      rintro rfl
      exact hs (List.mem_map.mpr ⟨_, (List.mem_filter.mp hentry).1, rfl⟩)
  | items hitems hrun => exact hrun.named
  | whole => exact fun _ hc => absurd hc List.not_mem_nil

theorem applyDefaults_named (h : (applyDefaults s v).run = .ok (w, changes)) (hv : v.NoEmptyKey)
    (hs : "" ∉ s.properties.map Prod.fst) (hdefault : ∀ d, s.fallback = some d → d.NoEmptyKey) :
    ∀ c ∈ changes, c.Named := by
  obtain ⟨own, put, inner, hsettle, hfill, rfl⟩ := applyDefaults_cases h
  have hown : own.NoEmptyKey := hsettle.eachObject List.not_mem_nil hv hdefault
  intro c hc
  rcases List.mem_append.mp hc with hc | hc
  · cases hsettle with
    | kept => cases hc
    | loose => cases hc
    | defaulted => rw [List.mem_singleton.mp hc]; exact Change.named_here _ _
    | emptied => rw [List.mem_singleton.mp hc]; exact Change.named_here _ _
  · exact fill_named hfill hown hs c hc

end JsonMend
