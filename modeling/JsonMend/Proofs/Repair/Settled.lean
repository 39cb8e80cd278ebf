import JsonMend.Proofs.Repair.Keys
import JsonMend.Proofs.Shape.Schema
/-
  What each pass leaves behind, and that the passes after it do not undo it.

  1. **What is left** — after pruning no governed object has a forbidden key (`Pruned`), after coercing no
     governed scalar of a wrong type could still be turned into a right one (`Coerced`), after filling
     no governed object lacks what can be put in (`Filled`).
  2. **Each pass leaves it** (`prune_pruned`, `coerce_coerced`, `fill_filled`) — for all values that the pass
     enters.  Coercing does not enter a value of a wrong type, so what it leaves is guarded by
     `Admitted`; the other two enter such values as well.
  3. **Later passes keep it** — coercing keeps the keys, and a conversion has none (`coerce_keeps_pruned`).
     Filling adds declared members only, and what it puts in is clean if the defaults are
     (`fill_keeps`, for every property that is `Growable`).
-/
namespace JsonMend

open Changed Shape

variable {guard P : Shape → Json → Prop} {s sub : Shape} {v w x y : Json} {changes : List Change}

/-! ## What is left -/

/-- No key of an object is forbidden. -/
def Pruned (s : Shape) (v : Json) : Prop :=
  ∀ ms, v = .obj ms → s.isObject = true → ∀ key ∈ ms.map Prod.fst, Prune.forbids s key = .ok false

/-- A value is of a right type or cannot be given one. -/
def Coerced (s : Shape) (v : Json) : Prop :=
  s.admits v = true ∨ Coerce.firstSuccess v s.types = .ok none

/-- What an object lacks, nothing licenses a value for. -/
def Filled (s : Shape) (v : Json) : Prop :=
  ∀ ms, v = .obj ms → s.isObject = true → ∀ e ∈ s.properties,
    e.1 ∈ ms.map Prod.fst ∨ Defaults.GapRun (s.required.contains e.1) e.2 none []

/-- The guard that a value is of a right type. -/
def Admitted (s : Shape) (v : Json) : Prop := s.admits v = true

/-! ## Types and visits -/

theorem admits_congr (h : ∀ t : JsonType, v.isOfType t = w.isOfType t) : s.admits v = s.admits w := by
  have hnamed : v.isOfTypeNamed = w.isOfTypeNamed := by
    funext name
    unfold Json.isOfTypeNamed
    split
    · exact h _
    · rfl
  rw [admits, admits, hnamed]

/-- Whether a value is of a type depends on its members or items in nothing. -/
theorem admits_obj (ms ns : Members) : s.admits (.obj ms) = s.admits (.obj ns) :=
  admits_congr fun t => by cases t <;> rfl

theorem admits_arr (xs ys : List Json) : s.admits (.arr xs) = s.admits (.arr ys) :=
  admits_congr fun t => by cases t <;> rfl

theorem admits_of_mem {name : String} (hmem : name ∈ s.types) (h : v.isOfTypeNamed name = true) :
    s.admits v = true := by
  rw [admits, Bool.or_eq_true]
  exact .inr (List.any_eq_true.mpr ⟨name, hmem, h⟩)

/-- What a value is turned into is of a right type. -/
theorem admits_of_firstSuccess {target : String}
    (h : Coerce.firstSuccess v s.types = .ok (some (target, w))) : s.admits w = true := by
  obtain ⟨earlier, later, htypes, -, hnamed⟩ := Coerce.firstSuccess_cases h
  have hmem : target ∈ s.types := by
    rw [htypes]
    exact List.mem_append_right _ List.mem_cons_self
  exact admits_of_mem hmem (Coerce.isOfTypeNamed_of_toTypeNamed hnamed)

/-- Nothing but a scalar is turned into anything. -/
theorem firstSuccess_of_not_scalar (h : v.isScalar = false) (names : List String) :
    Coerce.firstSuccess v names = .ok none := by
  rw [Coerce.firstSuccess_eq_none]
  intro name hname
  unfold Coerce.toTypeNamed
  split
  · unfold Coerce.toType
    rw [h]
    rfl
  · rfl

namespace Shape.PartsRun

variable {member : String → Json → Changed (Option Json)} {item : Shape → Json → Changed Json}

theorem admits_eq (h : s.PartsRun member item v w changes) : s.admits w = s.admits v := by
  cases h with
  | members => exact admits_obj _ _
  | items => exact admits_arr _ _
  | whole => rfl

theorem pruned (h : s.PartsRun member item v w changes) (hv : Pruned s v) : Pruned s w := by
  cases h with
  | members hobject hrun =>
    rintro _ ⟨⟩ - key hkey
    exact hv _ rfl hobject key (hrun.keys_sublist.subset hkey)
  | items hfound hrun =>
    rintro _ ⟨⟩
  | whole => exact hv

/-- What holds of the result and of what was made of each part is governed. -/
theorem governed {pass : Shape → Json → Changed Json} (h : s.PartsRun member pass v w changes)
    (hkept : ∀ {key x y own}, (member key x).run = .ok (some y, own) →
      (s.visit pass key x).run = .ok (y, own)) (hhere : P s w)
    (hparts : guard s w → ∀ step sub x y own, s.Part v step sub x →
      (pass sub x).run = .ok (y, own) → Governed guard P sub y) : Governed guard P s w := by
  refine .intro hhere fun hguard step sub y hpart => ?_
  obtain ⟨x, own, hx, hrun⟩ := h.of_part hkept hpart
  exact hparts hguard step sub x y own hx hrun

end Shape.PartsRun

/-! ## Pruning -/

/-- What the visit of a value leaves, pruning leaves everywhere. -/
theorem prune_governed (hvisit : ∀ {s v w changes},
      s.PartsRun (Prune.member s) prune v w changes → P s w)
    (h : (prune s v).run = .ok (w, changes)) : Governed Unguarded P s w := by
  induction s using Shape.parts_induction generalizing v w changes with
  | parts s hchild hproperty =>
    have hrun := prune_cases.mp h
    refine hrun.governed Prune.visit_of_kept (hvisit hrun) fun _ step sub x y own hpart hprune => ?_
    exact hchild step sub hpart.child hprune

theorem prune_pruned (h : (prune s v).run = .ok (w, changes)) : Governed Unguarded Pruned s w := by
  refine prune_governed (fun {s v w changes} hrun => ?_) h
  cases hrun with
  | members hobject hms =>
    rintro _ ⟨⟩ - key hkey
    obtain ⟨m, hm, rfl⟩ := List.mem_map.mp hkey
    obtain ⟨x, own, -, hstep⟩ := hms.member_of_mem hm
    rcases Prune.member_run.mp hstep with ⟨-, hnone, -⟩ | ⟨hforbids, -⟩
    · cases hnone
    · exact hforbids
  | items => rintro _ ⟨⟩
  | whole hmember hitem =>
    intro ms hms hobject
    rw [hmember ms hms] at hobject
    cases hobject

/-! ## Coercing -/

/-- What comes out of a conversion is governed by every property of values that are no objects. -/
theorem governed_of_toTypeNamed {name : String} (h : Coerce.toTypeNamed name v = .ok (some w))
    (hP : ∀ s x, x.isObj = false → P s x) : Governed guard P s w := by
  have hscalar : v.isScalar = true := Coerce.isScalar_of_toTypeNamed h
  have hleaf : ∀ sub, Governed guard P sub v := by
    intro sub
    cases v with
    | null | arr | obj => cases hscalar
    | bool | num | str =>
      refine .of_no_part (hP _ _ rfl) fun _ _ _ => ?_
      exact not_part_of_flat (fun _ h => nomatch h) (fun _ h => nomatch h)
  rcases Coerce.toTypeNamed_flat h with rfl | hflat
  · -- the one part of the array is the scalar that was wrapped
    refine .intro (hP _ _ rfl) fun _ step sub x hpart => ?_
    cases hpart with
    | item hget hfound =>
      rw [List.mem_singleton.mp (List.mem_of_getElem? hget)]
      exact hleaf sub
  · cases w with
    | arr | obj => exact hflat.elim
    | null | bool | num | str =>
      refine .of_no_part (hP _ _ rfl) fun _ _ _ => ?_
      exact not_part_of_flat (fun _ h => nomatch h) (fun _ h => nomatch h)

/-- What holds of values that are no objects and is kept by the visit of a value, coercing keeps. -/
theorem coerce_keeps (hflat : ∀ s x, x.isObj = false → P s x)
    (hvisit : ∀ {s own w inner}, P s own →
      s.PartsRun (s.visitKept coerce) coerce own w inner → P s w)
    (h : (coerce s v).run = .ok (w, changes)) (hv : Governed Unguarded P s v) :
    Governed Unguarded P s w := by
  induction s using Shape.parts_induction generalizing v w changes with
  | parts s hchild hproperty =>
    have hparts : ∀ {own inner}, Governed Unguarded P s own →
        s.PartsRun (s.visitKept coerce) coerce own w inner → Governed Unguarded P s w := by
      intro own inner hown hrun
      refine hrun.governed visit_of_kept (hvisit hown.here hrun) ?_
      intro _ step sub x y own hpart hcoerce
      exact hchild step sub hpart.child hcoerce (hown.part trivial hpart)
    cases coerce_cases.mp h with
    | kept hadmits hrun => exact hparts hv hrun
    | stuck hmismatch hfailed hsame => rw [hsame]; exact hv
    | coerced hmismatch hfirst hrun =>
      exact hparts (governed_of_toTypeNamed (Coerce.toTypeNamed_of_firstSuccess hfirst) hflat) hrun

theorem coerce_keeps_pruned (h : (coerce s v).run = .ok (w, changes))
    (hv : Governed Unguarded Pruned s v) : Governed Unguarded Pruned s w := by
  refine coerce_keeps ?_ (fun hown hrun => hrun.pruned hown) h hv
  rintro s _ hobj _ rfl
  cases hobj

/-- What the visit of a value of a right type leaves, and what holds of a value of a wrong type that stays,
coercing leaves wherever it enters. -/
theorem coerce_governed
    (hvisit : ∀ {s own w inner}, s.admits own = true →
      s.PartsRun (s.visitKept coerce) coerce own w inner → P s w)
    (hstuck : ∀ {s v}, s.admits v = false → Coerce.firstSuccess v s.types = .ok none → P s v)
    (h : (coerce s v).run = .ok (w, changes)) : Governed Admitted P s w := by
  induction s using Shape.parts_induction generalizing v w changes with
  | parts s hchild hproperty =>
    have hparts : ∀ {own inner}, s.admits own = true →
        s.PartsRun (s.visitKept coerce) coerce own w inner → Governed Admitted P s w := by
      intro own inner hown hrun
      refine hrun.governed visit_of_kept (hvisit hown hrun) ?_
      intro _ step sub x y own hpart hcoerce
      exact hchild step sub hpart.child hcoerce
    cases coerce_cases.mp h with
    | kept hadmits hrun => exact hparts hadmits hrun
    | stuck hmismatch hfailed hsame =>
      rw [hsame]
      -- the guard fails here, so nothing is asked of the parts
      refine .intro (hstuck hmismatch hfailed) fun hadmits => ?_
      rw [Admitted, hmismatch] at hadmits
      cases hadmits
    | coerced hmismatch hfirst hrun => exact hparts (admits_of_firstSuccess hfirst) hrun

theorem coerce_coerced (h : (coerce s v).run = .ok (w, changes)) : Governed Admitted Coerced s w :=
  coerce_governed (fun hown hrun => .inl (hrun.admits_eq.trans hown)) (fun _ hfailed => .inr hfailed) h

/-! ## Filling in defaults -/

/-- A property that an object keeps when its members are replaced and declared ones are added, that says
nothing of the items of an array, and that holds of what is empty.  The guard does not look into a
value. -/
structure Growable (guard P : Shape → Json → Prop) : Prop where
  members : ∀ {s ms ns}, P s (.obj ms) →
    (∀ key ∈ ns.map Prod.fst, key ∈ ms.map Prod.fst ∨ hasKey s.properties key = true) → P s (.obj ns)
  items : ∀ {s xs ys}, P s (.arr xs) → P s (.arr ys)
  emptyObject : ∀ s, P s (.obj [])
  emptyArray : ∀ s, P s (.arr [])
  guardMembers : ∀ {s ms ns}, guard s (.obj ns) → guard s (.obj ms)
  guardItems : ∀ {s xs ys}, guard s (.arr ys) → guard s (.arr xs)

/-- The default of a shape has the property. -/
def CleanDefault (guard P : Shape → Json → Prop) (s : Shape) : Prop :=
  ∀ d, s.fallback = some d → Governed guard P s d

theorem Growable.empty_object (hP : Growable guard P) (s : Shape) :
    Governed guard P s (.obj []) := by
  refine .of_no_part (hP.emptyObject s) ?_
  rintro _ _ _ ⟨_, hmem, _⟩
  exact List.not_mem_nil hmem

theorem Growable.empty_array (hP : Growable guard P) (s : Shape) : Governed guard P s (.arr []) := by
  refine .of_no_part (hP.emptyArray s) ?_
  rintro _ _ _ (_ | ⟨hget, _⟩)
  cases hget

theorem settle_keeps {own : Json} (hP : Growable guard P) (hs : CleanDefault guard P s)
    (h : Defaults.SettleRun s v own changes) (hv : Governed guard P s v) :
    Governed guard P s own := by
  cases h with
  | kept => exact hv
  | loose => exact hv
  | defaulted _ _ hd => exact hs _ hd
  | emptied => exact hP.empty_object s

theorem gap_clean {isRequired : Bool} {own : Json} (hP : Growable guard P)
    (hs : CleanDefault guard P s) (h : Defaults.GapRun isRequired s (some own) changes) :
    Governed guard P s own := by
  cases h with
  | default hd => exact hs _ hd
  | object => exact hP.empty_object s
  | array => exact hP.empty_array s

/-- A shape declares no name twice. -/
def DeclaresOnce (s : Shape) : Prop := (s.properties.map Prod.fst).Nodup

instance (s : Shape) : Decidable (DeclaresOnce s) :=
  inferInstanceAs (Decidable (s.properties.map Prod.fst).Nodup)

/-- The shape of a member that was added is the one that declares it. -/
theorem child_of_missing {ms : Members} {name : String} {sub' : Shape}
    (hnames : DeclaresOnce s) (hentry : (name, sub') ∈ Defaults.missing s ms)
    (hchild : s.child (.key name) = .ok (some sub)) : sub' = sub := by
  have hdeclared := child_of_property (lookup_of_mem hnames (List.mem_filter.mp hentry).1)
  rw [hdeclared] at hchild
  cases hchild
  rfl

theorem fill_keeps (hP : Growable guard P) (hnames : s.Everywhere DeclaresOnce)
    (hs : s.Everywhere (CleanDefault guard P)) (h : (fill s v).run = .ok (w, changes))
    (hv : Governed guard P s v) : Governed guard P s w := by
  induction s using Shape.parts_induction generalizing v w changes with
  | parts s hchild hproperty =>
    have hsettled : ∀ {step sub x y own}, s.child step = .ok (some sub) → Governed guard P sub x →
        (applyDefaults sub x).run = .ok (y, own) → Governed guard P sub y := by
      intro step sub x y own hsub hx hrun
      obtain ⟨settled, put, inner, hsettle, hfill, rfl⟩ := applyDefaults_cases hrun
      have hown := settle_keeps hP (hs.child hsub).here hsettle hx
      exact hchild _ sub hsub (hnames.child hsub) (hs.child hsub) hfill hown
    cases fill_cases h with
    | @members ms ns added earlier later hobject hrun hgaps =>
      refine .intro (hP.members hv.here ?_) fun hguard step sub y hpart => ?_
      · intro key hkey
        rw [List.map_append, List.mem_append] at hkey
        -- each key was there before, or is declared
        rcases hkey with hkey | hkey
        · exact .inl (hrun.keys_sublist.subset hkey)
        · obtain ⟨e, he, rfl⟩ := List.mem_map.mp (hgaps.keys_sublist.subset hkey)
          exact .inr (hasKey_iff.mpr (List.mem_map.mpr ⟨e, (List.mem_filter.mp he).1, rfl⟩))
      · cases hpart with
        | member _ hmem hsub =>
          rcases List.mem_append.mp hmem with hmem | hmem
          · obtain ⟨x, own, hx, hstep⟩ := hrun.of_part visit_of_kept (.member hobject hmem hsub)
            exact hsettled hsub (hv.part (hP.guardMembers hguard) hx) hstep
          · -- an added member is governed by the shape that declares it
            obtain ⟨sub', own, put, inner, hentry, hgap, hfill⟩ := hgaps.entry_of_mem hmem
            cases child_of_missing hnames.here hentry hsub
            have hown := gap_clean hP (hs.child hsub).here hgap
            exact hchild _ _ hsub (hnames.child hsub) (hs.child hsub) hfill hown
    | @items sub xs ys own hfound hrun =>
      refine .intro (hP.items hv.here) fun hguard step sub' y hpart => ?_
      obtain ⟨x, own, hx, hstep⟩ := hrun.of_part hfound hpart
      exact hsettled hx.child (hv.part (hP.guardItems hguard) hx) hstep
    | whole => exact hv

theorem applyDefaults_keeps (hP : Growable guard P) (hnames : s.Everywhere DeclaresOnce)
    (hs : s.Everywhere (CleanDefault guard P)) (h : (applyDefaults s v).run = .ok (w, changes))
    (hv : Governed guard P s v) : Governed guard P s w := by
  obtain ⟨own, put, inner, hsettle, hfill, rfl⟩ := applyDefaults_cases h
  exact fill_keeps hP hnames hs hfill (settle_keeps hP hs.here hsettle hv)

/-- **What every settled value has once it is filled, filling leaves everywhere.**  The parts of a filled
value were settled first, or were put where a property was missing; `D` is what is known of the shapes
by which that was done. -/
theorem fill_governed {D : Shape → Prop} (hnames : s.Everywhere DeclaresOnce) (hs : s.Everywhere D)
    (hsettled : ∀ {s v own w put inner}, D s → (Defaults.settle s v).run = .ok (own, put) →
      (fill s own).run = .ok (w, inner) → P s w)
    (hgap : ∀ {s isRequired own w put inner}, D s → Defaults.GapRun isRequired s (some own) put →
      (fill s own).run = .ok (w, inner) → P s w)
    (h : (fill s v).run = .ok (w, changes)) (hhere : P s w) : Governed Unguarded P s w := by
  induction s using Shape.parts_induction generalizing v w changes with
  | parts s hchild hproperty =>
    have hpart : ∀ {step sub x y own}, s.child step = .ok (some sub) →
        (applyDefaults sub x).run = .ok (y, own) → Governed Unguarded P sub y := by
      intro step sub x y own hsub hrun
      obtain ⟨settled, put, inner, hsettle, hfill, -⟩ := run_bind_eq_ok.mp hrun
      exact hchild _ sub hsub (hnames.child hsub) (hs.child hsub) hfill
        (hsettled (hs.child hsub).here hsettle hfill)
    refine .intro hhere fun _ step sub y hy => ?_
    cases fill_cases h with
    | @members ms ns added earlier later hobject hrun hgaps =>
      cases hy with
      | member _ hmem hsub =>
        rcases List.mem_append.mp hmem with hmem | hmem
        · obtain ⟨x, own, hx, hstep⟩ := hrun.of_part visit_of_kept (.member hobject hmem hsub)
          exact hpart hsub hstep
        · -- an added member is governed by the shape that declares it
          obtain ⟨sub', own, put, inner, hentry, hgapped, hfill⟩ := hgaps.entry_of_mem hmem
          cases child_of_missing hnames.here hentry hsub
          exact hchild _ _ hsub (hnames.child hsub) (hs.child hsub) hfill
            (hgap (hs.child hsub).here hgapped hfill)
    | @items sub xs ys own hfound hrun =>
      obtain ⟨x, own, hx, hstep⟩ := hrun.of_part hfound hy
      exact hpart hx.child hstep
    | whole hmember hitem => exact absurd hy (not_part_of_whole hmember hitem)

/-- What filling did left no gap that could be filled. -/
theorem FillRun.filled (h : FillRun s v w changes) : Filled s w := by
  cases h with
  | @members ms ns added earlier later hobject hrun hgaps =>
    have hkeys : ns.map Prod.fst = ms.map Prod.fst :=
      hrun.keys_eq fun _ _ _ _ hstep => visitKept_ne_none hstep
    rintro _ ⟨⟩ - e he
    rw [List.map_append, List.mem_append, hkeys]
    cases hpresent : hasKey ms e.1 with
    | true => exact .inl (.inl (hasKey_iff.mp hpresent))
    | false =>
      have hmissing : e ∈ Defaults.missing s ms :=
        List.mem_filter.mpr ⟨he, by simpa using hpresent⟩
      rcases hgaps.added_or_left hmissing with hadded | hleft
      · exact .inl (.inr hadded)
      · exact .inr hleft
  | items => rintro _ ⟨⟩
  | whole hmember hitem =>
    intro ms hms hobject
    rw [hmember ms hms] at hobject
    cases hobject

theorem fill_filled (hnames : s.Everywhere DeclaresOnce)
    (h : (fill s v).run = .ok (w, changes)) : Governed Unguarded Filled s w :=
  fill_governed hnames hnames (fun _ _ hfill => (fill_cases hfill).filled)
    (fun _ _ hfill => (fill_cases hfill).filled) h (fill_cases h).filled

/-! ## The whole repair -/

theorem growable_pruned : Growable Unguarded Pruned where
  members := by
    rintro s ms ns hms hkeys _ ⟨⟩ hobject key hkey
    rcases hkeys key hkey with hold | hdeclared
    · exact hms ms rfl hobject key hold
    · unfold Prune.forbids
      split
      · rw [declares, if_pos hdeclared]
        rfl
      · rfl
  items := by rintro s xs ys _ _ ⟨⟩
  emptyObject := by
    rintro s _ ⟨⟩ _ key hkey
    cases hkey
  emptyArray := by rintro s _ ⟨⟩
  guardMembers := fun _ => trivial
  guardItems := fun _ => trivial

theorem growable_coerced : Growable Admitted Coerced where
  members := by
    rintro s ms ns (hadmits | hfailed) -
    · exact .inl ((admits_obj _ _).trans hadmits)
    · exact .inr (firstSuccess_of_not_scalar rfl _)
  items := by
    rintro s xs ys (hadmits | hfailed)
    · exact .inl ((admits_arr _ _).trans hadmits)
    · exact .inr (firstSuccess_of_not_scalar rfl _)
  emptyObject := fun _ => .inr (firstSuccess_of_not_scalar rfl _)
  emptyArray := fun _ => .inr (firstSuccess_of_not_scalar rfl _)
  guardMembers := fun h => (admits_obj _ _).trans h
  guardItems := fun h => (admits_arr _ _).trans h

/-- The default of a shape is of a right type, and neither pruning nor coercing changes it. -/
structure StableDefault (s : Shape) : Prop where
  admitted : ∀ d, s.fallback = some d → s.admits d = true
  pruned : ∀ d, s.fallback = some d → ∃ changes, (prune s d).run = .ok (d, changes)
  coerced : ∀ d, s.fallback = some d → ∃ changes, (coerce s d).run = .ok (d, changes)

theorem StableDefault.of_none (h : s.fallback = none) : StableDefault s := by
  refine ⟨?_, ?_, ?_⟩
  all_goals
    intro d hd
    rw [h] at hd
    cases hd

theorem StableDefault.clean_pruned (h : StableDefault s) : CleanDefault Unguarded Pruned s := by
  intro d hd
  obtain ⟨changes, hrun⟩ := h.pruned d hd
  exact prune_pruned hrun

theorem StableDefault.clean_coerced (h : StableDefault s) : CleanDefault Admitted Coerced s := by
  intro d hd
  obtain ⟨changes, hrun⟩ := h.coerced d hd
  exact coerce_coerced hrun

/-- What a pass leaves of a value is the value itself. -/
theorem run_eq_self_iff {pass : Changed Json} :
    (∃ changes, pass.run = .ok (v, changes)) ↔ pass.run.toOption.map Prod.fst = some v := by
  cases pass.run with
  | error fault => simp [Except.toOption]
  | ok result => simp [Except.toOption, Prod.ext_iff]

instance (s : Shape) : Decidable (StableDefault s) :=
  decidable_of_iff (∀ d ∈ s.fallback, s.admits d = true ∧
      (prune s d).run.toOption.map Prod.fst = some d ∧
      (coerce s d).run.toOption.map Prod.fst = some d) <| by
    simp only [← run_eq_self_iff]
    constructor
    · intro h
      exact ⟨fun d hd => (h d hd).1, fun d hd => (h d hd).2.1, fun d hd => (h d hd).2.2⟩
    · intro h d hd
      exact ⟨h.admitted d hd, h.pruned d hd, h.coerced d hd⟩

theorem mend_filled (hnames : s.Everywhere DeclaresOnce) (h : (mend s v).run = .ok (w, changes)) :
    Governed Unguarded Filled s w := by
  obtain ⟨-, -, coerced, -, filled, -, -, hdefaults, -⟩ := mend_cases h
  obtain ⟨own, put, inner, -, hfill, -⟩ := applyDefaults_cases hdefaults
  exact fill_filled hnames hfill

/-- A repaired value, where the defaults are stable: what each pass left is still there. -/
theorem mend_leaves (hnames : s.Everywhere DeclaresOnce)
    (hs : s.Everywhere StableDefault) (h : (mend s v).run = .ok (w, changes)) :
    Governed Unguarded Pruned s w ∧ Governed Admitted Coerced s w ∧
      Governed Unguarded Filled s w := by
  have hfilled := mend_filled hnames h
  obtain ⟨pruned, dropped, coerced, turned, filled, hprune, hcoerce, hfill, rfl⟩ := mend_cases h
  have hclean₁ := hs.imp fun _ => StableDefault.clean_pruned
  have hclean₂ := hs.imp fun _ => StableDefault.clean_coerced
  have h₁ : Governed Unguarded Pruned s coerced := coerce_keeps_pruned hcoerce (prune_pruned hprune)
  have h₂ : Governed Admitted Coerced s coerced := coerce_coerced hcoerce
  exact ⟨applyDefaults_keeps growable_pruned hnames hclean₁ hfill h₁,
    applyDefaults_keeps growable_coerced hnames hclean₂ hfill h₂, hfilled⟩

/-- The same for a shape all of whose key lists are distinct. -/
theorem mend_settled (hnames : s.Everywhere (KeyLists List.Nodup))
    (hs : s.Everywhere StableDefault) (h : (mend s v).run = .ok (w, changes)) :
    Governed Unguarded Pruned s w ∧ Governed Admitted Coerced s w ∧
      Governed Unguarded Filled s w :=
  mend_leaves (hnames.imp fun _ => KeyLists.properties) hs h

end JsonMend
