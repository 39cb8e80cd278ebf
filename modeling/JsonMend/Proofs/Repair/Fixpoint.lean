import JsonMend.Proofs.Repair.Settled
/-
  A repaired value is repaired for good.

  1. **At rest** — a visit leaves a value alone if it leaves each of its parts alone (`visitParts_gives`).  For
     that every key of the value must lead somewhere, which a pattern that is none would prevent (`Charted`).
     What is recorded meanwhile is left open: a pass may put the same thing in place of itself.
  2. **Each pass at rest** (`prune_still`, `coerce_still`, `applyDefaults_still`) — what a pass would leave
     behind, it leaves alone.  Filling needs one thing more, that no default would take the place of a value
     (`Kept`).
  3. **The whole repair at rest** (`mend_still`) — from what all the passes leave, however it came about.
  4. **Once is enough** (`mend_idempotent`) — a repair leaves all of that, where the defaults are stable.
-/
namespace JsonMend

open Changed Shape

variable {s sub : Shape} {v w x : Json} {ms : Members} {xs : List Json} {key : String}
  {changes : List Change}

/-! ## At rest -/

/-- Every key of an object leads to a shape, or to none, without a fault. -/
def Charted (s : Shape) (v : Json) : Prop :=
  ∀ ms, v = .obj ms → s.isObject = true → ∀ key ∈ ms.map Prod.fst,
    ∃ sub?, s.child (.key key) = .ok sub?

namespace Changed

/-- What a pass may record while it leaves a value as it is: nothing, and of several parts whatever it may
record of each. -/
structure Permits (allowed : List Change → Prop) : Prop where
  nil : allowed []
  append : ∀ {earlier later}, allowed earlier → allowed later → allowed (earlier ++ later)
  deeper : ∀ {step changes}, allowed changes → allowed (changes.map (·.under step))

theorem permits_nothing : Permits (· = []) where
  nil := rfl
  append := by rintro _ _ rfl rfl; rfl
  deeper := by rintro _ _ rfl; rfl

theorem permits_all : Permits fun _ => True := ⟨trivial, fun _ _ => trivial, fun _ => trivial⟩

/-- The step returns the given result and records what is allowed. -/
def Gives {α : Type} (allowed : List Change → Prop) (x : Changed α) (a : α) : Prop :=
  ∃ changes, allowed changes ∧ x.run = .ok (a, changes)

theorem gives_nothing {α : Type} {x : Changed α} {a : α} : Gives (· = []) x a ↔ x.run = .ok (a, []) :=
  exists_eq_left

namespace Permits

variable {α β : Type} {allowed : List Change → Prop}

theorem pure (hallowed : Permits allowed) (a : α) : Gives allowed (Pure.pure a) a :=
  ⟨[], hallowed.nil, rfl⟩

theorem bind (hallowed : Permits allowed) {x : Changed α} {f : α → Changed β} {a : α} {b : β}
    (h : Gives allowed x a) (hf : Gives allowed (f a) b) : Gives allowed (x >>= f) b := by
  obtain ⟨earlier, hearlier, hx⟩ := h
  obtain ⟨later, hlater, hrest⟩ := hf
  exact ⟨_, hallowed.append hearlier hlater, run_bind_eq_ok.mpr ⟨a, earlier, later, hx, hrest, rfl⟩⟩

theorem below (hallowed : Permits allowed) {step : Segment} {x : Changed α} {a : α}
    (h : Gives allowed x a) : Gives allowed (under step x) a := by
  obtain ⟨changes, hchanges, hx⟩ := h
  exact ⟨_, hallowed.deeper hchanges, run_under_eq_ok.mpr ⟨changes, hx, rfl⟩⟩

theorem items (hallowed : Permits allowed) {step : Json → Changed Json} {i : Nat}
    (h : ∀ x ∈ xs, Gives allowed (step x) x) : Gives allowed (Changed.items step i xs) xs := by
  induction xs generalizing i with
  | nil => exact hallowed.pure []
  | cons x xs ih =>
    obtain ⟨hx, hxs⟩ := List.forall_mem_cons.mp h
    exact hallowed.bind (hallowed.below hx) (hallowed.bind (ih hxs) (hallowed.pure _))

theorem members (hallowed : Permits allowed) {step : String → Json → Changed (Option Json)}
    (h : ∀ m ∈ ms, Gives allowed (step m.1 m.2) (some m.2)) :
    Gives allowed (Changed.members step ms) ms := by
  induction ms with
  | nil => exact hallowed.pure []
  | cons m ms ih =>
    obtain ⟨hm, hms⟩ := List.forall_mem_cons.mp h
    refine hallowed.bind (hallowed.below hm) (hallowed.bind (ih hms) ?_)
    exact hallowed.pure _

end Permits

end Changed

section
variable {allowed : List Change → Prop} {pass : Shape → Json → Changed Json}
  {member : String → Json → Changed (Option Json)}

theorem Shape.visit_gives (hallowed : Permits allowed) (charted : ∃ sub?, s.child (.key key) = .ok sub?)
    (below : ∀ sub, s.child (.key key) = .ok (some sub) → Gives allowed (pass sub x) x) :
    Gives allowed (s.visit pass key x) x := by
  obtain ⟨sub?, hsub⟩ := charted
  cases sub? with
  | none => exact ⟨[], hallowed.nil, visit_run.mpr (.inl ⟨hsub, rfl, rfl⟩)⟩
  | some sub =>
    rw [visit_of_child hsub]
    exact below sub hsub

theorem Shape.visitKept_gives (hallowed : Permits allowed) (h : Gives allowed (s.visit pass key x) x) :
    Gives allowed (s.visitKept pass key x) (some x) :=
  hallowed.bind h (hallowed.pure _)

/-- The members of a charted object are left alone if the pass leaves alone what it is led to. -/
theorem Charted.members_give (hallowed : Permits allowed) (charted : Charted s (.obj ms))
    (object : s.isObject = true)
    (hparts : ∀ step sub x, s.Part (.obj ms) step sub x → Gives allowed (pass sub x) x)
    (hmember : ∀ key x, (key, x) ∈ ms → Gives allowed (s.visit pass key x) x →
      Gives allowed (member key x) (some x)) : Gives allowed (Changed.members member ms) ms := by
  refine hallowed.members fun m hm => hmember m.1 m.2 hm ?_
  refine visit_gives hallowed (charted ms rfl object _ (List.mem_map_of_mem hm)) fun sub hsub => ?_
  exact hparts _ sub m.2 (.member object hm hsub)

/-- **A visit leaves a charted value alone if the pass leaves all parts of it alone.** -/
theorem Shape.visitParts_gives (hallowed : Permits allowed) (charted : Charted s v)
    (hparts : ∀ step sub x, s.Part v step sub x → Gives allowed (pass sub x) x)
    (hmember : ∀ ms, v = .obj ms → s.isObject = true → ∀ key x, (key, x) ∈ ms →
      Gives allowed (s.visit pass key x) x → Gives allowed (member key x) (some x)) :
    Gives allowed (s.visitParts member pass v) v := by
  cases v with
  | obj ms =>
    rw [visitParts]
    cases hobject : s.isObject with
    | true =>
      exact hallowed.bind (charted.members_give hallowed hobject hparts (hmember ms rfl hobject))
        (hallowed.pure _)
    | false => exact hallowed.pure _
  | arr xs =>
    rw [visitParts]
    cases hitems : s.items with
    | none => exact hallowed.pure _
    | some sub =>
      refine hallowed.bind (hallowed.items fun x hx => ?_) (hallowed.pure _)
      obtain ⟨i, hi⟩ := List.mem_iff_getElem?.mp hx
      exact hparts _ sub x (.item hi hitems)
  | null | bool | num | str => exact hallowed.pure _

end

/-! ## Each pass at rest -/

theorem prune_still (hpruned : Governed Unguarded Pruned s v)
    (hcharted : Governed Unguarded Charted s v) : (prune s v).run = .ok (v, []) := by
  induction s using Shape.parts_induction generalizing v with
  | parts s hchild hproperty =>
    rw [prune_eq, ← gives_nothing]
    refine visitParts_gives permits_nothing hcharted.here ?_ ?_
    · intro step sub x hpart
      exact gives_nothing.mpr <|
        hchild step sub hpart.child (hpruned.part trivial hpart) (hcharted.part trivial hpart)
    · rintro ms rfl hobject key x hmem hvisit
      have hallowed := hpruned.here ms rfl hobject key (List.mem_map_of_mem hmem)
      exact gives_nothing.mpr (Prune.member_run.mpr (.inr ⟨hallowed, x, gives_nothing.mp hvisit, rfl⟩))

/-- Coercing asks where the keys lead only of values of a right type. -/
theorem coerce_still (hcoerced : Governed Admitted Coerced s v)
    (hcharted : Governed Admitted (fun s v => Admitted s v → Charted s v) s v) :
    (coerce s v).run = .ok (v, []) := by
  induction s using Shape.parts_induction generalizing v with
  | parts s hchild hproperty =>
    rw [coerce_cases]
    cases hadmits : s.admits v with
    | true =>
      refine .kept hadmits (visitParts_run.mp (gives_nothing.mp ?_))
      refine visitParts_gives permits_nothing (hcharted.here hadmits) ?_
        fun _ _ _ _ _ _ => visitKept_gives permits_nothing
      intro step sub x hpart
      exact gives_nothing.mpr <|
        hchild step sub hpart.child (hcoerced.part hadmits hpart) (hcharted.part hadmits hpart)
    | false =>
      rcases hcoerced.here with hadmits' | hfailed
      · rw [hadmits] at hadmits'
        cases hadmits'
      · exact .stuck hadmits hfailed rfl

/-- No default and no empty object would take the place of a value. -/
def Kept (s : Shape) (v : Json) : Prop :=
  Defaults.enters s v = true ∨ s.admits v = true ∨
    ((s.isObject = true → s.fallback = none ∧ s.namesKeys = false) ∧
      (s.isArray = true → s.fallback = none))

namespace Defaults

/-- Settling leaves alone what is kept, and nothing else. -/
theorem settle_still : (settle s v).run = .ok (v, []) ↔ Kept s v := by
  have hrecord : ∀ (edit : Edit) (reason : String) (own : Json),
      ((fun _ => own) <$> record edit reason : Changed Json).run ≠ .ok (v, []) := by
    intro edit reason own h
    rw [map_eq_pure_bind] at h
    obtain ⟨later, -, hchanges⟩ := run_record_bind_eq_ok.mp h
    cases hchanges
  have hstays : (pure v : Changed Json).run = .ok (v, []) := rfl
  unfold settle Kept
  cases henters : enters s v with
  | true => simp [hstays]
  | false =>
    cases hadmits : s.admits v with
    | true => simp [hstays]
    | false =>
      simp only [Bool.or_self, Bool.false_eq_true, if_false, false_or]
      cases hobject : s.isObject with
      | true =>
        cases hdefault : s.fallback with
        | some d => simp [hrecord]
        | none => cases hnames : s.namesKeys <;> simp [hrecord, hstays]
      | false =>
        cases harray : s.isArray with
        | true => cases hdefault : s.fallback <;> simp [hrecord, hstays]
        | false => simp [hstays]

/-- What settling has put in the place of a value, or that it has kept the value. -/
theorem settle_result {own : Json} (h : (settle s v).run = .ok (own, changes)) :
    (own = v ∧ Kept s own) ∨ s.fallback = some own ∨ (own = .obj [] ∧ s.isObject = true) := by
  cases settle_cases h with
  | kept => exact .inl ⟨rfl, settle_still.mp h⟩
  | loose => exact .inl ⟨rfl, settle_still.mp h⟩
  | defaulted _ _ hdefault => exact .inr (.inl hdefault)
  | emptied _ _ hobject _ _ => exact .inr (.inr ⟨rfl, hobject⟩)

theorem gapFiller?_still {isRequired : Bool} (h : GapRun isRequired s none []) :
    (gapFiller? isRequired s).run = .ok (none, []) := by
  cases h with
  | left hnone hunlicensed =>
    unfold gapFiller?
    cases isRequired with
    | false =>
      simp only [hnone]
      rfl
    | true =>
      obtain ⟨hobject, harray⟩ := hunlicensed rfl
      simp only [hnone, hobject, harray]
      rfl

theorem fillGaps_still {entries : List (String × Shape)}
    (h : ∀ e ∈ entries, GapRun (s.required.contains e.1) e.2 none []) :
    (entries.filterMapM (fillGap s)).run = .ok ([], []) := by
  induction entries with
  | nil => rw [List.filterMapM_nil, run_pure]
  | cons e rest ih =>
    obtain ⟨he, hrest⟩ := List.forall_mem_cons.mp h
    have hgap : (fillGap s e).run = .ok (none, []) :=
      run_under_eq_ok.mpr ⟨[], run_bind_eq_ok.mpr ⟨none, [], [], gapFiller?_still he, rfl, rfl⟩, rfl⟩
    rw [List.filterMapM_cons]
    exact run_bind_eq_ok.mpr ⟨none, [], [], hgap, ih hrest, rfl⟩

end Defaults

/-- Filling leaves alone a value that lacks nothing, if the parts are left alone. -/
theorem fill_gives {allowed : List Change → Prop} (hallowed : Permits allowed) (hfilled : Filled s v)
    (charted : Charted s v)
    (hparts : ∀ step sub x, s.Part v step sub x → Gives allowed (applyDefaults sub x) x) :
    Gives allowed (fill s v) v := by
  cases v with
  | obj ms =>
    rw [fill_obj]
    cases hobject : s.isObject with
    | false => exact hallowed.pure _
    | true =>
      have hmembers : Gives allowed (Changed.members (s.visitKept applyDefaults) ms) ms :=
        charted.members_give hallowed hobject hparts fun _ _ _ => visitKept_gives hallowed
      have hgaps : ((Defaults.missing s ms).filterMapM (Defaults.fillGap s)).run = .ok ([], []) := by
        refine Defaults.fillGaps_still fun e he => ?_
        obtain ⟨hdeclared, hmissing⟩ := List.mem_filter.mp he
        rcases hfilled ms rfl hobject e hdeclared with hpresent | hgap
        · rw [← hasKey_iff] at hpresent
          simp only [hpresent] at hmissing
          cases hmissing
        · exact hgap
      rw [if_pos rfl]
      refine hallowed.bind hmembers (hallowed.bind ⟨[], hallowed.nil, hgaps⟩ ?_)
      rw [List.append_nil]
      exact hallowed.pure _
  | arr xs =>
    rw [fill_arr]
    exact visitParts_gives hallowed charted hparts fun _ h => nomatch h
  | null | bool | num | str =>
    rw [fill]
    · exact hallowed.pure _
    · intro _ h; cases h
    · intro _ h; cases h

theorem applyDefaults_still (hkept : Governed Unguarded Kept s v)
    (hfilled : Governed Unguarded Filled s v) (hcharted : Governed Unguarded Charted s v) :
    (applyDefaults s v).run = .ok (v, []) := by
  induction s using Shape.parts_induction generalizing v with
  | parts s hchild hproperty =>
    have hsettle := Defaults.settle_still.mpr hkept.here
    have hfill : Gives (· = []) (fill s v) v := by
      refine fill_gives permits_nothing hfilled.here hcharted.here fun step sub x hpart => ?_
      exact gives_nothing.mpr <| hchild step sub hpart.child (hkept.part trivial hpart)
        (hfilled.part trivial hpart) (hcharted.part trivial hpart)
    exact run_bind_eq_ok.mpr ⟨v, [], [], hsettle, gives_nothing.mp hfill, rfl⟩

/-! ## The whole repair at rest -/

/-- **A value on which every pass has nothing left to do is left alone.** -/
theorem mend_still (hpruned : Governed Unguarded Pruned s v) (hcoerced : Governed Admitted Coerced s v)
    (hkept : Governed Unguarded Kept s v) (hfilled : Governed Unguarded Filled s v)
    (hcharted : Governed Unguarded Charted s v) : (mend s v).run = .ok (v, []) := by
  have hprune := prune_still hpruned hcharted
  have hcoerce := coerce_still hcoerced (hcharted.imp (fun _ _ _ => trivial) fun _ _ h _ => h)
  have hfill := applyDefaults_still hkept hfilled hcharted
  refine run_bind_eq_ok.mpr ⟨v, [], [], hprune, ?_, rfl⟩
  exact run_bind_eq_ok.mpr ⟨v, [], [], hcoerce, hfill, rfl⟩

/-! ## Once is enough -/

/-- Filling has looked up where each key of its result leads. -/
theorem FillRun.charted (h : FillRun s v w changes) : Charted s w := by
  cases h with
  | @members ms ns added earlier later hobject hrun hgaps =>
    rintro _ ⟨⟩ - key hkey
    rw [List.map_append, List.mem_append] at hkey
    rcases hkey with hkey | hkey
    · obtain ⟨m, hm, rfl⟩ := List.mem_map.mp hkey
      obtain ⟨x, own, -, hstep⟩ := hrun.member_of_mem hm
      rcases visit_run.mp (visit_of_kept hstep) with ⟨hnone, -, -⟩ | ⟨sub, hsub, -⟩
      · exact ⟨none, hnone⟩
      · exact ⟨some sub, hsub⟩
    · -- what was added is declared
      obtain ⟨e, he, rfl⟩ := List.mem_map.mp (hgaps.keys_sublist.subset hkey)
      have hdeclared : hasKey s.properties e.1 = true :=
        hasKey_iff.mpr (List.mem_map_of_mem (List.mem_filter.mp he).1)
      obtain ⟨sub, hsub⟩ := Option.isSome_iff_exists.mp hdeclared
      exact ⟨some sub, child_of_property hsub⟩
  | items => rintro _ ⟨⟩
  | whole hmember hitem =>
    intro ms hms hobject
    rw [hmember ms hms] at hobject
    cases hobject

theorem fill_charted (hnames : s.Everywhere DeclaresOnce) (h : (fill s v).run = .ok (w, changes)) :
    Governed Unguarded Charted s w :=
  fill_governed hnames hnames (fun _ _ hfill => (fill_cases hfill).charted)
    (fun _ _ hfill => (fill_cases hfill).charted) h (fill_cases h).charted

/-- Filling does not change what decides whether a value is kept. -/
theorem FillRun.kept (h : FillRun s v w changes) (hv : Kept s v) : Kept s w := by
  cases h with
  | members =>
    unfold Kept at hv ⊢
    rw [admits_obj _ _]
    exact hv
  | items =>
    unfold Kept at hv ⊢
    rw [admits_arr _ _]
    exact hv
  | whole => exact hv

/-- What was settled is kept, or it is the default. -/
theorem kept_or_default_of_settle {own : Json} {put : List Change}
    (h : (Defaults.settle s v).run = .ok (own, put)) : Kept s own ∨ s.fallback = some own := by
  rcases Defaults.settle_result h with ⟨-, hkept⟩ | hdefault | ⟨rfl, hobject⟩
  · exact .inl hkept
  · exact .inr hdefault
  · exact .inl (.inl hobject)

theorem kept_or_default_of_gap {isRequired : Bool} {own : Json} {put : List Change}
    (h : Defaults.GapRun isRequired s (some own) put) : Kept s own ∨ s.fallback = some own := by
  cases h with
  | default hdefault => exact .inr hdefault
  | object _ _ hlisted =>
    exact .inl (.inr (.inl (admits_of_mem (List.contains_iff_mem.mp hlisted) rfl)))
  | array _ _ _ hlisted =>
    exact .inl (.inr (.inl (admits_of_mem (List.contains_iff_mem.mp hlisted) rfl)))

/-- A default that is of a right type is kept. -/
theorem StableDefault.kept {own : Json} (hs : StableDefault s) (h : Kept s own ∨ s.fallback = some own) :
    Kept s own :=
  h.elim id fun hdefault => .inr (.inl (hs.admitted own hdefault))

theorem mend_charted (hnames : s.Everywhere DeclaresOnce) (h : (mend s v).run = .ok (w, changes)) :
    Governed Unguarded Charted s w := by
  obtain ⟨-, -, coerced, -, filled, -, -, hdefaults, -⟩ := mend_cases h
  obtain ⟨own, put, inner, -, hfill, -⟩ := applyDefaults_cases hdefaults
  exact fill_charted hnames hfill

theorem mend_kept (hnames : s.Everywhere DeclaresOnce) (hs : s.Everywhere StableDefault)
    (h : (mend s v).run = .ok (w, changes)) : Governed Unguarded Kept s w := by
  obtain ⟨-, -, coerced, -, filled, -, -, hdefaults, -⟩ := mend_cases h
  obtain ⟨own, put, inner, hsettle, hfill, -⟩ := run_bind_eq_ok.mp hdefaults
  refine fill_governed hnames hs ?_ ?_ hfill ?_
  · intro s v own w put inner hstable hsettle hfill
    exact (fill_cases hfill).kept (hstable.kept (kept_or_default_of_settle hsettle))
  · intro s isRequired own w put inner hstable hgap hfill
    exact (fill_cases hfill).kept (hstable.kept (kept_or_default_of_gap hgap))
  · exact (fill_cases hfill).kept (hs.here.kept (kept_or_default_of_settle hsettle))

/-- **A repaired value is left alone by a second repair**, which records nothing, where every default is of a
right type and is changed neither by pruning nor by coercing. -/
theorem mend_idempotent (hnames : s.Everywhere DeclaresOnce) (hs : s.Everywhere StableDefault)
    (h : (mend s v).run = .ok (w, changes)) : (mend s w).run = .ok (w, []) := by
  obtain ⟨hpruned, hcoerced, hfilled⟩ := mend_leaves hnames hs h
  exact mend_still hpruned hcoerced (mend_kept hnames hs h) hfilled (mend_charted hnames h)

/-- A forbidden key, a key that a pattern declares, a scalar that is wrapped, an undeclared key that the
items govern, a default, and an empty object with a default inside: the second repair finds nothing. -/
theorem mend_idempotent_of_six :
    let number : Json := .obj [("type", .str "integer"), ("default", .num (.int 0))]
    let schema : Json := .obj [
      ("properties", .obj [
        ("n", number),
        ("list", .obj [("type", .str "array"), ("items", number)]),
        ("both", .obj [("properties", .obj [("a", .bool true)]),
          ("items", .obj [("type", .str "boolean")])]),
        ("deep", .obj [("type", .str "object"), ("properties", .obj [("m", number)])])]),
      ("patternProperties", .obj [("^x", .obj [("type", .str "string")])]),
      ("required", .arr [.str "deep"]), ("additionalProperties", .bool false)]
    let v : Json := .obj [("z", .null), ("x1", .bool true), ("list", .str "5"),
      ("both", .obj [("q", .num (.int 1))])]
    let w : Json := .obj [("x1", .str "true"), ("list", .arr [.num (.int 5)]),
      ("both", .obj [("q", .bool true)]), ("n", .num (.int 0)),
      ("deep", .obj [("m", .num (.int 0))])]
    ∃ ledger, (mend (ofSchema schema) v).run = .ok (w, ledger) ∧ ledger.length = 8 ∧
      (mend (ofSchema schema) w).run = .ok (w, []) := by
  intro number schema v w
  have hnames : (ofSchema schema).Everywhere DeclaresOnce := by decide +kernel
  have hstable : (ofSchema schema).Everywhere StableDefault := by decide +kernel
  have hrun : (mend (ofSchema schema) v).run.toOption.map (fun r => (r.1, r.2.length)) =
      some (w, 8) := by decide +kernel
  cases h : (mend (ofSchema schema) v).run with
  | error fault => rw [h] at hrun; cases hrun
  | ok result =>
    obtain ⟨result, ledger⟩ := result
    rw [h] at hrun
    obtain ⟨rfl, hlength⟩ := Prod.mk.inj (Option.some.inj hrun)
    exact ⟨ledger, rfl, hlength, mend_idempotent hnames hstable h⟩

end JsonMend
