import JsonMend.Proofs.Repair.Settled
/-
  Where the changes of a repair stand in the value that was repaired.

  A change is about something that the value had, or about something that it lacked, or that an earlier
  change had put in.  The passes work on each other's results; this file leads each change back to the
  value that the repair began with.

  1. **Foreign places** (`Foreign`) — a place that leads through a part which the value does not have: past
     a scalar, past a value of another kind, or past a declared key that is missing.
  2. **One pass** (`coerce_accounted`, `fill_accounted`) — each change stands at a foreign place, or at one
     whose value its shape does not admit (`Accounted`).
  3. **Back through a pass** (`accounted_of_prune`, `accounted_of_coerce`) — what is foreign to the result of
     a pass is foreign to what the pass was given, and what is not admitted there was not admitted here:
     pruning drops undeclared keys only, and a scalar that was coerced is admitted ever after.
  4. **Only pruning removes** (`coerce_puts`, `fill_puts`) — every other change puts a value.
  5. **The whole repair** (`mend_origins`).
-/
namespace JsonMend

open Changed Shape

variable {s sub g : Shape} {v w x y : Json} {changes : List Change} {place : Position}
  {step : Segment}

/-! ## Foreign places -/

/-- A step that a value cannot take, and that no undeclared key is. -/
def Blocked (g : Shape) (y : Json) : Segment → Prop
  | .key key => ∀ ms, y = .obj ms → key ∉ ms.map Prod.fst ∧ key ∈ g.properties.map Prod.fst
  | .index _ => ∀ xs, y ≠ .arr xs

/-- A place that leads through a part which the value does not have. -/
def Foreign (s : Shape) (v : Json) (place : Position) : Prop :=
  ∃ above step below g y, place = above ++ step :: below ∧ s.Walk v above g y ∧ Blocked g y step

theorem blocked_of_scalar (h : v.isScalar = true) : Blocked s v step := by
  cases step with
  | key key =>
    rintro ms rfl
    cases h
  | index i =>
    rintro xs rfl
    cases h

theorem Blocked.step?_eq_none (h : Blocked g y step) : y.step? step = none := by
  cases step with
  | key key =>
    cases y with
    | obj ms => exact lookup_eq_none_iff.mpr (h ms rfl).1
    | null | bool | num | str | arr => rfl
  | index i =>
    cases y with
    | arr xs => exact absurd rfl (h xs)
    | null | bool | num | str | obj => rfl

namespace Foreign

/-- Nothing stands at a foreign place. -/
theorem at?_eq_none (h : Foreign s v place) : v.at? place = none := by
  obtain ⟨above, step, below, g, y, rfl, hwalk, hblocked⟩ := h
  rw [Json.at?_append, hwalk.at?, Option.bind_some, Json.at?_cons, hblocked.step?_eq_none]
  rfl

theorem here (h : Blocked s v step) (below : Position) : Foreign s v (step :: below) :=
  ⟨[], step, below, s, v, rfl, .here, h⟩

theorem down (stands : v.step? step = some x) (part : s.Part v step sub x)
    (h : Foreign sub x place) : Foreign s v (step :: place) := by
  obtain ⟨above, step', below, g, y, rfl, hwalk, hblocked⟩ := h
  exact ⟨step :: above, step', below, g, y, rfl, .down stands part hwalk, hblocked⟩

theorem append (h : Foreign s v place) (more : Position) : Foreign s v (place ++ more) := by
  obtain ⟨above, step, below, g, y, rfl, hwalk, hblocked⟩ := h
  exact ⟨above, step, below ++ more, g, y, by rw [List.append_assoc]; rfl, hwalk, hblocked⟩

end Foreign

/-- A place is foreign, or the value there is one that its shape does not admit. -/
def Accounted (s : Shape) (v : Json) (place : Position) : Prop :=
  Foreign s v place ∨ ∃ g x, s.Walk v place g x ∧ g.admits x = false

theorem Accounted.here (mismatch : s.admits v = false) : Accounted s v [] :=
  .inr ⟨s, v, .here, mismatch⟩

theorem Accounted.down (stands : v.step? step = some x) (part : s.Part v step sub x)
    (h : Accounted sub x place) : Accounted s v (step :: place) := by
  rcases h with hforeign | ⟨g, y, hwalk, hmismatch⟩
  · exact .inl (hforeign.down stands part)
  · exact .inr ⟨g, y, .down stands part hwalk, hmismatch⟩

/-! ## One pass -/

theorem coerce_accounted (h : (coerce s v).run = .ok (w, changes)) (hv : v.Distinct) :
    ∀ c ∈ changes, Accounted s v c.place := by
  induction s using Shape.parts_induction generalizing v w changes with
  | parts s hchild hproperty =>
    intro c hc
    cases coerce_cases.mp h with
    | kept hadmits hrun =>
      obtain ⟨step, sub, x, y, own, inner, hpart, hcoerce, hinner, rfl⟩ :=
        hrun.part_of_change visit_of_run hc
      have hbelow := hchild step sub hpart.child hcoerce (hpart.distinct hv) inner hinner
      exact hbelow.down (hpart.stands hv) hpart
    | stuck => cases hc
    | coerced hmismatch hfirst hrun =>
      rcases List.mem_cons.mp hc with rfl | hc
      · exact .here hmismatch
      · -- the parts of what a scalar was turned into are no parts of the scalar
        have hnamed := Coerce.toTypeNamed_of_firstSuccess hfirst
        obtain ⟨step, sub, x, y, own, inner, -, -, -, rfl⟩ := hrun.part_of_change visit_of_run hc
        exact .inl (.here (blocked_of_scalar (Coerce.isScalar_of_toTypeNamed hnamed)) _)

/-- What is filled into a value that took the place of another one is foreign to that one. -/
theorem fill_foreign {own : Json} (outside : Defaults.enters s v = false)
    (h : (fill s own).run = .ok (w, changes)) : ∀ c ∈ changes, Foreign s v c.place := by
  have hkey : ∀ key, s.isObject = true → Blocked s v (.key key) := by
    rintro key hobject ms rfl
    exact absurd (hobject.symm.trans outside) (by decide)
  intro c hc
  cases fill_cases h with
  | members hobject hrun hgaps =>
    rcases List.mem_append.mp hc with hc | hc
    · obtain ⟨key, _, _, _, inner, -, -, -, rfl⟩ := hrun.member_of_change hc
      exact .here (hkey key hobject) _
    · obtain ⟨name, _, _, _, _, _, inner, -, -, -, -, rfl⟩ := hgaps.entry_of_change hc
      exact .here (hkey name hobject) _
  | items hfound hrun =>
    obtain ⟨_, _, _, _, inner, -, -, -, rfl⟩ := hrun.item_of_change hc
    refine .here ?_ _
    rintro xs rfl
    exact absurd ((isArray_of_items hfound).symm.trans outside) (by decide)
  | whole => cases hc

/-- Settling a value changes it where it is not admitted; what is filled into it then is either foreign to
it or filled into the value itself. -/
theorem settled_accounted (h : (applyDefaults s v).run = .ok (w, changes))
    (hfill : ∀ {w inner}, (fill s v).run = .ok (w, inner) →
      ∀ c ∈ inner, Accounted s v c.place) :
    ∀ c ∈ changes, Accounted s v c.place := by
  obtain ⟨settled, put, inner, hsettle, hrun, rfl⟩ := applyDefaults_cases h
  intro c hc
  rcases List.mem_append.mp hc with hput | hinner
  · cases hsettle with
    | kept => cases hput
    | loose => cases hput
    | defaulted _ hmismatch _ =>
      rw [List.mem_singleton.mp hput]
      exact .here hmismatch
    | emptied _ hmismatch _ _ _ =>
      rw [List.mem_singleton.mp hput]
      exact .here hmismatch
  · -- a default or an empty object has parts that the value did not have
    cases hsettle with
    | kept => exact hfill hrun c hinner
    | loose => exact hfill hrun c hinner
    | defaulted houtside _ _ => exact .inl (fill_foreign houtside hrun c hinner)
    | emptied houtside _ _ _ _ => exact .inl (fill_foreign houtside hrun c hinner)

theorem fill_accounted (h : (fill s v).run = .ok (w, changes)) (hv : v.Distinct) :
    ∀ c ∈ changes, Accounted s v c.place := by
  induction s using Shape.parts_induction generalizing v w changes with
  | parts s hchild hproperty =>
    have hsettled : ∀ {step sub x y own}, s.child step = .ok (some sub) → x.Distinct →
        (applyDefaults sub x).run = .ok (y, own) → ∀ c ∈ own, Accounted sub x c.place := by
      intro step sub x y own hsub hx hrun
      exact settled_accounted hrun fun hfill => hchild _ sub hsub hfill hx
    intro c hc
    cases fill_cases h with
    | members hobject hrun hgaps =>
      rcases List.mem_append.mp hc with hc | hc
      · obtain ⟨step, sub, x, y, own, inner, hpart, hrun, hinner, rfl⟩ :=
          hrun.part_of_change hobject visit_of_run hc
        have hbelow := hsettled hpart.child (hpart.distinct hv) hrun inner hinner
        exact hbelow.down (hpart.stands hv) hpart
      · -- a declared property that is missing
        obtain ⟨name, sub, _, _, _, _, inner, hentry, -, -, -, rfl⟩ := hgaps.entry_of_change hc
        obtain ⟨hdeclared, hmissing⟩ := List.mem_filter.mp hentry
        refine .inl (.here ?_ _)
        rintro ms ⟨⟩
        refine ⟨hasKey_eq_false_iff.mp (by simpa using hmissing), ?_⟩
        exact List.mem_map.mpr ⟨_, hdeclared, rfl⟩
    | items hfound hrun =>
      obtain ⟨step, sub, x, y, own, inner, hpart, hrun, hinner, rfl⟩ := hrun.part_of_change hfound hc
      have hbelow := hsettled hpart.child (hpart.distinct hv) hrun inner hinner
      exact hbelow.down (hpart.stands hv) hpart
    | whole => cases hc

/-! ## Back through a pass -/

/-- A way down in a pruned value is a way down in the value, and at its end is what was pruned. -/
theorem walk_of_prune (h : (prune s v).run = .ok (w, changes)) (hv : v.Distinct)
    (hwalk : s.Walk w place g x) :
    ∃ x₀ own, s.Walk v place g x₀ ∧ (prune g x₀).run = .ok (x, own) := by
  induction hwalk generalizing v changes with
  | here => exact ⟨v, changes, .here, h⟩
  | down stands part rest ih =>
    obtain ⟨x₀, own, hpart, hprune⟩ := (prune_cases.mp h).of_part Prune.visit_of_kept part
    obtain ⟨y₀, own', hbelow, hlast⟩ := ih hprune (hpart.distinct hv)
    exact ⟨y₀, own', .down (hpart.stands hv) hpart hbelow, hlast⟩

/-- A declared key is never forbidden, so pruning does not take it away. -/
theorem blocked_of_prune (h : (prune g x).run = .ok (y, changes)) (hblocked : Blocked g y step) :
    Blocked g x step := by
  cases prune_cases.mp h with
  | members hobject hrun =>
    cases step with
    | index i => rintro xs ⟨⟩
    | key key =>
      rintro ms ⟨⟩
      obtain ⟨hfree, hdeclared⟩ := hblocked _ rfl
      refine ⟨fun hkey => ?_, hdeclared⟩
      obtain ⟨m, hm, rfl⟩ := List.mem_map.mp hkey
      obtain ⟨y?, own, hstep, hkept⟩ := hrun.result_of_mem hm
      -- had the value the key, it would have been kept
      rcases Prune.member_run.mp hstep with ⟨hforbids, -, -⟩ | ⟨-, y', -, rfl⟩
      · obtain ⟨-, -, hundeclared⟩ := Prune.forbids_eq_true.mp hforbids
        rw [declares, if_pos (hasKey_iff.mpr hdeclared)] at hundeclared
        cases hundeclared
      · exact hfree (List.mem_map.mpr ⟨_, hkept y' rfl, rfl⟩)
  | items hfound hrun =>
    cases step with
    | index i => exact absurd rfl (hblocked _)
    | key key => rintro ms ⟨⟩
  | whole => exact hblocked

theorem accounted_of_prune (h : (prune s v).run = .ok (w, changes)) (hv : v.Distinct)
    (haccounted : Accounted s w place) : Accounted s v place := by
  rcases haccounted with ⟨above, step, below, g, y, rfl, hwalk, hblocked⟩ | ⟨g, x, hwalk, hmismatch⟩
  · obtain ⟨y₀, own, hwalk₀, hprune⟩ := walk_of_prune h hv hwalk
    exact .inl ⟨above, step, below, g, y₀, rfl, hwalk₀, blocked_of_prune hprune hblocked⟩
  · obtain ⟨x₀, own, hwalk₀, hprune⟩ := walk_of_prune h hv hwalk
    refine .inr ⟨g, x₀, hwalk₀, ?_⟩
    rw [← (prune_cases.mp hprune).admits_eq]
    exact hmismatch

/-- What coercing leaves of a value that it meets, or of one that it does not enter. -/
def CoercedFrom (g : Shape) (x₀ x : Json) : Prop :=
  x = x₀ ∨ ∃ changes, (coerce g x₀).run = .ok (x, changes)

/-- A way down in a coerced value is a way down in the value, unless it leads into a wrapped scalar. -/
theorem walk_of_coerce (h : (coerce s v).run = .ok (w, changes)) (hv : v.Distinct)
    (hwalk : s.Walk w place g x) :
    Foreign s v place ∨ ∃ x₀, s.Walk v place g x₀ ∧ CoercedFrom g x₀ x := by
  induction hwalk generalizing v changes with
  | here => exact .inr ⟨v, .here, .inr ⟨changes, h⟩⟩
  | @down s w step sub x place g y stands part rest ih =>
    cases coerce_cases.mp h with
    | kept hadmits hrun =>
      obtain ⟨x₀, own, hpart, hcoerce⟩ := hrun.of_part visit_of_kept part
      rcases ih hcoerce (hpart.distinct hv) with hforeign | ⟨y₀, hbelow, hlast⟩
      · exact .inl (hforeign.down (hpart.stands hv) hpart)
      · exact .inr ⟨y₀, .down (hpart.stands hv) hpart hbelow, hlast⟩
    | stuck hmismatch hfailed hsame =>
      -- the value was not entered, so everything below is as it was
      subst hsame
      exact .inr ⟨y, .down stands part rest, .inl rfl⟩
    | coerced hmismatch hfirst hrun =>
      have hnamed := Coerce.toTypeNamed_of_firstSuccess hfirst
      exact .inl (.here (blocked_of_scalar (Coerce.isScalar_of_toTypeNamed hnamed)) _)

theorem blocked_of_coerced (h : CoercedFrom g x y) (hblocked : Blocked g y step) :
    Blocked g x step := by
  rcases h with rfl | ⟨changes, h⟩
  · exact hblocked
  · cases coerce_cases.mp h with
    | kept hadmits hrun =>
      cases hrun with
      | members hobject hrun =>
        have hkeys := hrun.keys_eq fun _ _ _ _ hstep => visitKept_ne_none hstep
        cases step with
        | index i => rintro xs ⟨⟩
        | key key =>
          rintro ms ⟨⟩
          rw [← hkeys]
          exact hblocked _ rfl
      | items hfound hrun =>
        cases step with
        | index i => exact absurd rfl (hblocked _)
        | key key => rintro ms ⟨⟩
      | whole => exact hblocked
    | stuck hmismatch hfailed hsame =>
      subst hsame
      exact hblocked
    | coerced hmismatch hfirst hrun =>
      have hnamed := Coerce.toTypeNamed_of_firstSuccess hfirst
      exact blocked_of_scalar (Coerce.isScalar_of_toTypeNamed hnamed)

/-- A value that is not admitted after coercing is the one that was there before. -/
theorem eq_of_coerced (h : CoercedFrom g x y) (hmismatch : g.admits y = false) : y = x := by
  rcases h with rfl | ⟨changes, h⟩
  · rfl
  · cases coerce_cases.mp h with
    | kept hadmits hrun =>
      rw [hrun.admits_eq, hadmits] at hmismatch
      cases hmismatch
    | stuck _ _ hsame => exact hsame
    | coerced _ hfirst hrun =>
      rw [hrun.admits_eq, admits_of_firstSuccess hfirst] at hmismatch
      cases hmismatch

theorem accounted_of_coerce (h : (coerce s v).run = .ok (w, changes)) (hv : v.Distinct)
    (haccounted : Accounted s w place) : Accounted s v place := by
  rcases haccounted with ⟨above, step, below, g, y, rfl, hwalk, hblocked⟩ | ⟨g, x, hwalk, hmismatch⟩
  · rcases walk_of_coerce h hv hwalk with hforeign | ⟨y₀, hwalk₀, hcoerced⟩
    · exact .inl (hforeign.append _)
    · exact .inl ⟨above, step, below, g, y₀, rfl, hwalk₀, blocked_of_coerced hcoerced hblocked⟩
  · rcases walk_of_coerce h hv hwalk with hforeign | ⟨x₀, hwalk₀, hcoerced⟩
    · exact .inl hforeign
    · rw [eq_of_coerced hcoerced hmismatch] at hmismatch
      exact .inr ⟨g, x₀, hwalk₀, hmismatch⟩

/-! ## Only pruning removes -/

theorem coerce_puts (h : (coerce s v).run = .ok (w, changes)) :
    ∀ c ∈ changes, c.edit.after? ≠ none := by
  induction s using Shape.parts_induction generalizing v w changes with
  | parts s hchild hproperty =>
    have hparts : ∀ {u own}, s.PartsRun (s.visitKept coerce) coerce u w own →
        ∀ c ∈ own, c.edit.after? ≠ none := by
      intro u own hrun c hc
      obtain ⟨step, sub, x, y, _, inner, hpart, hcoerce, hinner, rfl⟩ :=
        hrun.part_of_change visit_of_run hc
      exact hchild step sub hpart.child hcoerce inner hinner
    cases coerce_cases.mp h with
    | kept hadmits hrun => exact hparts hrun
    | stuck hmismatch hfailed hsame =>
      intro c hc
      cases hc
    | coerced hmismatch hfirst hrun =>
      rintro c (_ | ⟨_, hc⟩)
      · exact Option.some_ne_none _
      · exact hparts hrun c hc

theorem settled_puts (h : (applyDefaults s v).run = .ok (w, changes))
    (hfill : ∀ {own w inner}, (fill s own).run = .ok (w, inner) →
      ∀ c ∈ inner, c.edit.after? ≠ none) : ∀ c ∈ changes, c.edit.after? ≠ none := by
  obtain ⟨own, put, inner, hsettle, hrun, rfl⟩ := applyDefaults_cases h
  intro c hc
  rcases List.mem_append.mp hc with hput | hinner
  · cases hsettle with
    | kept => cases hput
    | loose => cases hput
    | defaulted =>
      rw [List.mem_singleton.mp hput]
      exact Option.some_ne_none _
    | emptied =>
      rw [List.mem_singleton.mp hput]
      exact Option.some_ne_none _
  · exact hfill hrun c hinner

theorem fill_puts (h : (fill s v).run = .ok (w, changes)) :
    ∀ c ∈ changes, c.edit.after? ≠ none := by
  induction s using Shape.parts_induction generalizing v w changes with
  | parts s hchild hproperty =>
    intro c hc
    cases fill_cases h with
    | members hobject hrun hgaps =>
      rcases List.mem_append.mp hc with hc | hc
      · obtain ⟨step, sub, x, y, _, inner, hpart, hrun, hinner, rfl⟩ :=
          hrun.part_of_change hobject visit_of_run hc
        exact settled_puts hrun (fun hfill => hchild step sub hpart.child hfill) inner hinner
      · obtain ⟨name, sub, _, _, put, filled, inner, hentry, hgap, hfill, hinner, rfl⟩ :=
          hgaps.entry_of_change hc
        rcases List.mem_append.mp hinner with hput | hfilled
        · obtain ⟨edit, reason, rfl, -, hafter⟩ := hgap.put
          rw [List.mem_singleton.mp hput]
          show edit.after? ≠ none
          rw [hafter]
          exact Option.some_ne_none _
        · exact hproperty _ (List.mem_filter.mp hentry).1 hfill inner hfilled
    | items hfound hrun =>
      obtain ⟨step, sub, x, y, _, inner, hpart, hrun, hinner, rfl⟩ := hrun.part_of_change hfound hc
      exact settled_puts hrun (fun hfill => hchild step sub hpart.child hfill) inner hinner
    | whole => cases hc

/-! ## The whole repair -/

/-- A key that is removed stands in an object whose shape forbids it. -/
inductive Removed (s : Shape) (v : Json) (c : Change) : Prop
  | intro {above key parent ms value} (place : c.place = above ++ [.key key])
      (edit : c.edit = .removed value) (walk : s.Walk v above parent (.obj ms))
      (mem : (key, value) ∈ ms) (closed : parent.closed = true)
      (undeclared : parent.declares key = .ok false) : Removed s v c

theorem Removed.down {c : Change} (stands : v.step? step = some x) (part : s.Part v step sub x)
    (h : Removed sub x c) : Removed s v (c.under step) := by
  obtain ⟨hplace, hedit, hwalk, hmem, hclosed, hundeclared⟩ := h
  refine .intro ?_ hedit (.down stands part hwalk) hmem hclosed hundeclared
  rw [Change.under, hplace]
  rfl

theorem prune_removed (h : (prune s v).run = .ok (w, changes)) (hv : v.Distinct) :
    ∀ c ∈ changes, Removed s v c := by
  induction s using Shape.parts_induction generalizing v w changes with
  | parts s hchild hproperty =>
    intro c hc
    rcases Prune.change_cases h hc with ⟨ms, key, x, rfl, hx, hforbids, rfl⟩ |
      ⟨step, sub, x, y, own, inner, hpart, hprune, hinner, rfl⟩
    · obtain ⟨hclosed, -, hundeclared⟩ := Prune.forbids_eq_true.mp hforbids
      exact .intro (List.nil_append _).symm rfl .here hx hclosed hundeclared
    · have hbelow := hchild step sub hpart.child hprune (hpart.distinct hv) inner hinner
      exact hbelow.down (hpart.stands hv) hpart

/-- **Every change is accounted for in the value that was repaired**: it removes a forbidden key, or puts
something at a foreign place, or at one whose value is not admitted. -/
theorem mend_origins (h : (mend s v).run = .ok (w, changes)) (hv : v.Distinct) :
    ∀ c ∈ changes, Removed s v c ∨ (c.edit.after? ≠ none ∧ Accounted s v c.place) := by
  obtain ⟨pruned, dropped, coerced, turned, filled, hprune, hcoerce, hfill, rfl⟩ := mend_cases h
  have hpruned := prune_distinct hprune hv
  have hcoerced := coerce_distinct hcoerce hpruned
  intro c hc
  rcases List.mem_append.mp hc with hc | hc
  · exact .inl (prune_removed hprune hv c hc)
  · right
    rcases List.mem_append.mp hc with hc | hc
    · refine ⟨coerce_puts hcoerce c hc, ?_⟩
      exact accounted_of_prune hprune hv (coerce_accounted hcoerce hpruned c hc)
    · refine ⟨settled_puts hfill fill_puts c hc, ?_⟩
      have hlast := settled_accounted hfill (fun hrun => fill_accounted hrun hcoerced) c hc
      exact accounted_of_prune hprune hv (accounted_of_coerce hcoerce hpruned hlast)

end JsonMend
