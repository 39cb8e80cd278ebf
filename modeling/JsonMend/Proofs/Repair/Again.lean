import JsonMend.Proofs.Repair.Fixpoint
/-
  Each pass by itself is done after one run.

  No default has to be of a right type here, and no type name has to be known: what follows holds of every
  shape, on every value on which the pass returns.

  1. **Pruning** — what it has looked at is charted, so with what it leaves (`Pruned`) a second run has
     nothing to do; coercing keeps both (`prune_again_after_coerce`).
  2. **Coercing** — the same below values of right types only, as it never enters others
     (`coerce_again`).
  3. **Filling in** — the crux.  A default of a wrong type gives way to itself on every run, so the second run
     may record something.  But what is filled of it then is what was filled of it before: a settled value
     is kept, or is the default again (`Restored`), at every place (`fill_restored`).

  Main result (`each_pass_settles`): what each pass leaves, at the places that the passes reach, and that a
  second run returns the same value.
-/
namespace JsonMend

open Changed Shape

variable {s g : Shape} {v w u x : Json} {ms : Members} {place : Position}
  {changes turned : List Change}

/-! ## Pruning -/

/-- A visit has looked up where each key of its result leads. -/
theorem Shape.PartsRun.charted {member : String → Json → Changed (Option Json)}
    {pass : Shape → Json → Changed Json} (h : s.PartsRun member pass v w changes)
    (hkept : ∀ {key x y own}, (member key x).run = .ok (some y, own) →
      (s.visit pass key x).run = .ok (y, own)) : Charted s w := by
  cases h with
  | members hobject hrun =>
    rintro _ ⟨⟩ - key hkey
    obtain ⟨m, hm, rfl⟩ := List.mem_map.mp hkey
    obtain ⟨x, own, -, hstep⟩ := hrun.member_of_mem hm
    rcases visit_run.mp (hkept hstep) with ⟨hnone, -, -⟩ | ⟨sub, hsub, -⟩
    · exact ⟨none, hnone⟩
    · exact ⟨some sub, hsub⟩
  | items => rintro _ ⟨⟩
  | whole hmember hitem =>
    intro ms hms hobject
    rw [hmember ms hms] at hobject
    cases hobject

theorem prune_charted (h : (prune s v).run = .ok (w, changes)) : Governed Unguarded Charted s w :=
  prune_governed (fun hrun => hrun.charted Prune.visit_of_kept) h

theorem prune_again (h : (prune s v).run = .ok (w, changes)) : (prune s w).run = .ok (w, []) :=
  prune_still (prune_pruned h) (prune_charted h)

theorem prune_again_after_coerce (h : (prune s v).run = .ok (w, changes))
    (hcoerce : (coerce s w).run = .ok (u, turned)) : (prune s u).run = .ok (u, []) := by
  have hcharted : Governed Unguarded Charted s u := by
    refine coerce_keeps ?_ (fun _ hrun => hrun.charted visit_of_kept) hcoerce (prune_charted h)
    rintro s _ hobj _ rfl
    cases hobj
  exact prune_still (coerce_keeps_pruned hcoerce (prune_pruned h)) hcharted

/-- Every key that pruning leaves in an object is declared, where the shape forbids those that are not. -/
theorem declares_of_pruned (h : Governed Unguarded Pruned s w) (hwalk : s.Walk w place g (.obj ms))
    (closed : g.closed = true) (names : g.namesKeys = true) :
    ∀ key ∈ ms.map Prod.fst, g.declares key = .ok true := by
  intro key hkey
  have hobject : g.isObject = true := by rw [isObject, names, Bool.or_true]
  have hallowed := h.of_walk_unguarded hwalk ms rfl hobject key hkey
  rw [Prune.forbids, Prune.isStrict, closed, names, Bool.and_self, if_pos rfl] at hallowed
  cases hdeclares : g.declares key with
  | error fault => rw [hdeclares] at hallowed; cases hallowed
  | ok declared =>
    rw [hdeclares] at hallowed
    cases declared with
    | true => rfl
    | false => cases hallowed

/-! ## Coercing -/

theorem coerce_charted (h : (coerce s v).run = .ok (w, changes)) :
    Governed Admitted (fun s v => Admitted s v → Charted s v) s w := by
  refine coerce_governed (fun _ hrun _ => hrun.charted visit_of_kept) ?_ h
  intro s v hmismatch _ hadmits
  rw [Admitted, hmismatch] at hadmits
  cases hadmits

theorem coerce_again (h : (coerce s v).run = .ok (w, changes)) : (coerce s w).run = .ok (w, []) :=
  coerce_still (coerce_coerced h) (coerce_charted h)

/-- Every value on the way to a place is of a right type. -/
def Shape.AdmittedAbove (s : Shape) (w : Json) (place : Position) : Prop :=
  ∀ above step below g x, place = above ++ step :: below → s.Walk w above g x → g.admits x = true

/-- What is still of a wrong type can be turned into none of the types that are listed. -/
theorem unconvertible_of_coerced (h : Governed Admitted Coerced s w) (hwalk : s.Walk w place g x)
    (habove : s.AdmittedAbove w place) (mismatch : g.admits x = false) :
    ∀ name ∈ g.types, Coerce.toTypeNamed name x = .ok none := by
  rcases h.of_walk hwalk with hend | ⟨above, step, below, g', x', hplace, hwalk', hfails⟩
  · rcases hend with hadmits | hfailed
    · rw [mismatch] at hadmits
      cases hadmits
    · exact Coerce.firstSuccess_eq_none.mp hfailed
  · exact absurd (habove above step below g' x' hplace hwalk') hfails

/-! ## Filling in -/

/-- Settling comes back to the value: it is kept, or it is what is filled of the default. -/
def Restored (s : Shape) (w : Json) : Prop :=
  Kept s w ∨ ∃ d changes, s.fallback = some d ∧ (fill s d).run = .ok (w, changes)

theorem restored_of_fill {own : Json} (hown : Kept s own ∨ s.fallback = some own)
    (h : (fill s own).run = .ok (w, changes)) : Restored s w := by
  rcases hown with hkept | hdefault
  · exact .inl ((fill_cases h).kept hkept)
  · exact .inr ⟨own, changes, hdefault, h⟩

/-- Every part of a filled value was settled, or was put where it was missing. -/
theorem fill_restored (hnames : s.Everywhere DeclaresOnce) (h : (fill s v).run = .ok (w, changes))
    (hhere : Restored s w) : Governed Unguarded Restored s w :=
  fill_governed hnames hnames (fun _ hsettle => restored_of_fill (kept_or_default_of_settle hsettle))
    (fun _ hgap => restored_of_fill (kept_or_default_of_gap hgap)) h hhere

/-- Where there is a default, a value is settled as itself or as the default. -/
theorem Defaults.settle_of_default {d : Json} (h : s.fallback = some d) (v : Json) :
    ∃ own put, (settle s v).run = .ok (own, put) ∧ (own = v ∨ own = d) := by
  have hrecord : ∀ (edit : Edit) (reason : String),
      (record edit reason >>= fun _ => pure d : Changed Json).run = .ok (d, [.here edit reason]) :=
    fun _ _ => rfl
  unfold settle
  rw [h]
  cases enters s v || s.admits v with
  | true => exact ⟨v, [], rfl, .inl rfl⟩
  | false =>
    cases s.isObject with
    | true => exact ⟨d, _, hrecord _ _, .inr rfl⟩
    | false =>
      cases s.isArray with
      | true => exact ⟨d, _, hrecord _ _, .inr rfl⟩
      | false => exact ⟨v, [], rfl, .inl rfl⟩

/-- **A value on which filling in comes back to itself everywhere is returned again**, whatever is recorded
about its defaults. -/
theorem applyDefaults_returns (hrestored : Governed Unguarded Restored s w)
    (hfilled : Governed Unguarded Filled s w) (hcharted : Governed Unguarded Charted s w) :
    ∃ again, (applyDefaults s w).run = .ok (w, again) := by
  induction s using Shape.parts_induction generalizing w with
  | parts s hchild hproperty =>
    have hfill : Gives (fun _ => True) (fill s w) w := by
      refine fill_gives permits_all hfilled.here hcharted.here fun step sub x hpart => ?_
      obtain ⟨again, hrun⟩ := hchild step sub hpart.child (hrestored.part trivial hpart)
        (hfilled.part trivial hpart) (hcharted.part trivial hpart)
      exact ⟨again, trivial, hrun⟩
    obtain ⟨inner, -, hfill⟩ := hfill
    rcases hrestored.here with hkept | ⟨d, filled, hdefault, hrefill⟩
    · exact ⟨_, run_bind_eq_ok.mpr ⟨w, [], inner, Defaults.settle_still.mpr hkept, hfill, rfl⟩⟩
    · obtain ⟨own, put, hsettle, rfl | rfl⟩ := Defaults.settle_of_default hdefault w
      · exact ⟨_, run_bind_eq_ok.mpr ⟨own, put, inner, hsettle, hfill, rfl⟩⟩
      · exact ⟨_, run_bind_eq_ok.mpr ⟨own, put, filled, hsettle, hrefill, rfl⟩⟩

theorem applyDefaults_again (hnames : s.Everywhere DeclaresOnce)
    (h : (applyDefaults s v).run = .ok (w, changes)) :
    ∃ again, (applyDefaults s w).run = .ok (w, again) := by
  obtain ⟨own, put, inner, hsettle, hfill, -⟩ := run_bind_eq_ok.mp h
  have hhere := restored_of_fill (kept_or_default_of_settle hsettle) hfill
  exact applyDefaults_returns (fill_restored hnames hfill hhere) (fill_filled hnames hfill)
    (fill_charted hnames hfill)

/-- A filled object holds each declared property for which there is something to put in. -/
theorem present_of_filled {name : String} {sub : Shape} (h : Governed Unguarded Filled s w)
    (hwalk : s.Walk w place g (.obj ms)) (hdeclared : (name, sub) ∈ g.properties)
    (licensed : sub.fallback.isSome = true ∨
      name ∈ g.required ∧ ("object" ∈ sub.types ∨ "array" ∈ sub.types)) :
    name ∈ ms.map Prod.fst := by
  have hobject := isObject_of_mem_properties hdeclared
  rcases h.of_walk_unguarded hwalk ms rfl hobject _ hdeclared with hpresent | hgap
  · exact hpresent
  · cases hgap with
    | left hnone hunlicensed =>
      rcases licensed with hdefault | ⟨hrequired, hlisted⟩
      · rw [hnone] at hdefault
        cases hdefault
      · obtain ⟨hobject, harray⟩ := hunlicensed (List.contains_iff_mem.mpr hrequired)
        rcases hlisted with hlisted | hlisted
        · rw [List.contains_iff_mem.mpr hlisted] at hobject
          cases hobject
        · rw [List.contains_iff_mem.mpr hlisted] at harray
          cases harray

/-! ## Each pass -/

/-- **One run of a pass is enough.**  Pruning leaves no key that is not declared in an object whose shape
forbids such keys, and finds none again, even after coercing; coercing leaves no value that could be
turned into a listed type below values of right types, and changes nothing again; filling in leaves no
declared property missing for which there is something to put in, and returns the same value again. -/
theorem each_pass_settles (hnames : s.Everywhere DeclaresOnce) :
    (∀ v w changes, (prune s v).run = .ok (w, changes) →
      (∀ place g ms, s.Walk w place g (.obj ms) → g.closed = true → g.namesKeys = true →
        ∀ key ∈ ms.map Prod.fst, g.declares key = .ok true) ∧
      (prune s w).run = .ok (w, []) ∧
      ∀ u turned, (coerce s w).run = .ok (u, turned) → (prune s u).run = .ok (u, [])) ∧
    (∀ v w changes, (coerce s v).run = .ok (w, changes) →
      (∀ place g x, s.Walk w place g x → s.AdmittedAbove w place → g.admits x = false →
        ∀ name ∈ g.types, Coerce.toTypeNamed name x = .ok none) ∧
      (coerce s w).run = .ok (w, [])) ∧
    ∀ v w changes, (applyDefaults s v).run = .ok (w, changes) →
      (∀ place g ms, s.Walk w place g (.obj ms) → ∀ name sub, (name, sub) ∈ g.properties →
        sub.fallback.isSome = true ∨
          name ∈ g.required ∧ ("object" ∈ sub.types ∨ "array" ∈ sub.types) →
        name ∈ ms.map Prod.fst) ∧
      ∃ again, (applyDefaults s w).run = .ok (w, again) := by
  refine ⟨fun v w changes h => ⟨?_, prune_again h, ?_⟩, fun v w changes h => ⟨?_, coerce_again h⟩,
    fun v w changes h => ⟨?_, applyDefaults_again hnames h⟩⟩
  · intro place g ms hwalk hclosed hshaped
    exact declares_of_pruned (prune_pruned h) hwalk hclosed hshaped
  · intro u turned hcoerce
    exact prune_again_after_coerce h hcoerce
  · intro place g x hwalk habove hmismatch
    exact unconvertible_of_coerced (coerce_coerced h) hwalk habove hmismatch
  · intro place g ms hwalk name sub hdeclared hlicensed
    obtain ⟨own, put, inner, -, hfill, -⟩ := run_bind_eq_ok.mp h
    exact present_of_filled (fill_filled hnames hfill) hwalk hdeclared hlicensed

/-- A default of a wrong type, a type that has no name, and a shape for objects and arrays both: pruning drops
one key, coercing leaves the number under the nameless type, and filling in puts the default there, which
the second run replaces by itself. -/
theorem each_pass_settles_of_three :
    let both : Json := .obj [("properties", .obj [("k", .obj [("type", .str "integer")])]),
      ("additionalProperties", .bool false),
      ("items", .obj [("type", .str "array"), ("items", .obj [("type", .str "integer")])])]
    let odd : Json := .obj [("type", .str "decimal")]
    let schema : Json := .obj [("properties", .obj [("bad", .obj [("type", .str "object"),
        ("default", .str "x")]), ("odd", odd), ("both", both), ("list", both)])]
    let s := ofSchema schema
    let v : Json := .obj [("odd", .num (.int 5)), ("list", .arr [.str "7"]),
      ("both", .obj [("q", .null), ("k", .str "2")])]
    let pruned : Json := .obj [("odd", .num (.int 5)), ("list", .arr [.str "7"]),
      ("both", .obj [("k", .str "2")])]
    let coerced : Json := .obj [("odd", .num (.int 5)), ("list", .arr [.arr [.num (.int 7)]]),
      ("both", .obj [("q", .null), ("k", .num (.int 2))])]
    let filled : Json := .obj [("odd", .num (.int 5)), ("list", .arr [.str "7"]),
      ("both", .obj [("q", .null), ("k", .str "2")]), ("bad", .str "x")]
    ((prune s v).run.toOption.map Prod.fst = some pruned ∧ (prune s pruned).run = .ok (pruned, []) ∧
      (ofSchema both).declares "k" = .ok true) ∧
    ((coerce s v).run.toOption.map Prod.fst = some coerced ∧
      (coerce s coerced).run = .ok (coerced, []) ∧
      Coerce.toTypeNamed "decimal" (.num (.int 5)) = .ok none) ∧
    (applyDefaults s v).run.toOption.map Prod.fst = some filled ∧
      (applyDefaults s filled).run.toOption.map (fun r => r.2.length) = some 1 ∧
      ∃ again, (applyDefaults s filled).run = .ok (filled, again) := by
  intro both odd schema s v pruned coerced filled
  have hnames : s.Everywhere DeclaresOnce := by decide +kernel
  have hprune : (prune s v).run.toOption.map Prod.fst = some pruned := by decide +kernel
  have hcoerce : (coerce s v).run.toOption.map Prod.fst = some coerced := by decide +kernel
  have hfill : (applyDefaults s v).run.toOption.map Prod.fst = some filled := by decide +kernel
  obtain ⟨ofPrune, ofCoerce, ofFill⟩ := each_pass_settles hnames
  obtain ⟨_, hrun⟩ := run_eq_self_iff.mpr hprune
  obtain ⟨hdeclared, hprune', -⟩ := ofPrune v pruned _ hrun
  obtain ⟨_, hrun⟩ := run_eq_self_iff.mpr hcoerce
  obtain ⟨hunconvertible, hcoerce'⟩ := ofCoerce v coerced _ hrun
  obtain ⟨_, hrun⟩ := run_eq_self_iff.mpr hfill
  obtain ⟨-, hfill'⟩ := ofFill v filled _ hrun
  have hboth : s.Walk pruned [.key "both"] (ofSchema both) (.obj [("k", .str "2")]) :=
    .down rfl (.member rfl (List.mem_of_getElem? (i := 2) rfl) (child_of_property rfl)) .here
  have hodd : s.Walk coerced [.key "odd"] (ofSchema odd) (.num (.int 5)) :=
    .down rfl (.member rfl List.mem_cons_self (child_of_property rfl)) .here
  refine ⟨⟨hprune, hprune', ?_⟩, ⟨hcoerce, hcoerce', ?_⟩, hfill, by decide +kernel, hfill'⟩
  · exact hdeclared _ _ _ hboth rfl rfl "k" List.mem_cons_self
  · refine hunconvertible _ _ _ hodd ?_ (by decide +kernel) "decimal" List.mem_cons_self
    -- only the root, whose shape lists no type, is above
    rintro above step below g x hplace hwalk
    cases above with
    | nil => cases hwalk; rfl
    | cons first above => cases above <;> cases hplace

end JsonMend
