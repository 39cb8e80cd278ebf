import JsonMend.Proofs.Ledger.Replay
import JsonMend.Proofs.Repair.Keys
import JsonMend.Proofs.Shape.Schema
/-
  The ledger of a repair, replayed on the value that was repaired, gives the repaired value.

  1. **The passes** — each pass leads from its value to its result by the entries it makes
     (`prune_replays`, `coerce_replays`, `fill_replays`): by induction on the shape, the visitors
     being dealt with once.  A scalar that is wrapped, a default and an empty object are entered after
     the entry that put them there, so what their parts need is a sequence from that value on.
  2. **The whole repair** (`mend_replays`) — the three sequences behind each other; keys stay distinct.
  3. **From places to text** (`mend_ledger_replays`) — where no key that a change can begin with is empty,
     every pointer splits into the steps of its place, and entries can be carried out by their text.
-/
namespace JsonMend

open Changed Defaults

variable {s : Shape} {v w : Json} {changes : List Change}

/-! ## The passes -/

/-- A pass on a member replays where it does under the shape one step below. -/
theorem Replays.of_visit {pass : Shape → Json → Changed Json} {key : String} {x y : Json}
    {own : List Change} (h : (s.visit pass key x).run = .ok (y, own))
    (hpass : ∀ sub, s.child (.key key) = .ok (some sub) → (pass sub x).run = .ok (y, own) →
      Replays x own y) : Replays x own y := by
  rcases Shape.visit_run.mp h with ⟨-, rfl, rfl⟩ | ⟨sub, hsub, hrun⟩
  · exact .nil
  · exact hpass sub hsub hrun

theorem Replays.of_parts {member : String → Json → Changed (Option Json)}
    {pass : Shape → Json → Changed Json} (h : s.PartsRun member pass v w changes) (hv : v.Distinct)
    (hkept : ∀ {key x y own}, (member key x).run = .ok (some y, own) →
      (s.visit pass key x).run = .ok (y, own))
    (hdropped : ∀ {key x own}, (member key x).run = .ok (none, own) →
      ∃ reason, own = [.here (.removed x) reason])
    (hpass : ∀ step sub, s.child step = .ok (some sub) → ∀ x y own, x.Distinct →
      (pass sub x).run = .ok (y, own) → Replays x own y) : Replays v changes w := by
  cases h with
  | members hobject hrun =>
    obtain ⟨hkeys, hmembers⟩ := Json.eachObject_obj.mp hv
    refine Replays.of_members [] hrun hkeys ?_ fun key x _ own hstep => hdropped hstep
    intro key x hx y own hstep
    exact Replays.of_visit (hkept hstep) fun sub hsub hrun =>
      hpass _ sub hsub x y own (hmembers _ hx) hrun
  | items hfound hrun =>
    refine Replays.of_items [] hrun fun x hx y own hstep => ?_
    have hdistinct := Json.eachObject_arr.mp hv x hx
    exact hpass _ _ (Shape.child_of_items hfound 0) x y own hdistinct hstep
  | whole => exact .nil

theorem prune_replays (h : (prune s v).run = .ok (w, changes)) (hv : v.Distinct) :
    Replays v changes w := by
  induction s using Shape.parts_induction generalizing v w changes with
  | parts s hchild hproperty =>
    refine Replays.of_parts (prune_cases.mp h) hv Prune.visit_of_kept ?_ ?_
    · intro key x own hrun
      rcases Prune.member_run.mp hrun with ⟨-, -, rfl⟩ | ⟨-, y', -, hy⟩
      · exact ⟨_, rfl⟩
      · cases hy
    · intro step sub hsub x y own hx hprune
      exact hchild step sub hsub hprune hx

theorem coerce_replays (h : (coerce s v).run = .ok (w, changes)) (hv : v.Distinct) :
    Replays v changes w := by
  induction s using Shape.parts_induction generalizing v w changes with
  | parts s hchild hproperty =>
    have hparts : ∀ {own inner}, own.Distinct →
        s.PartsRun (s.visitKept coerce) coerce own w inner → Replays own inner w := by
      intro own inner hown hrun
      refine Replays.of_parts hrun hown Shape.visit_of_kept ?_ ?_
      · intro key x own hstep
        exact absurd rfl (Shape.visitKept_ne_none hstep)
      · intro step sub hsub x y own hx hcoerce
        exact hchild step sub hsub hcoerce hx
    cases coerce_cases.mp h with
    | kept hadmits hrun => exact hparts hv hrun
    | stuck hmismatch hfailed hsame => rw [hsame]; exact .nil
    | @coerced target own inner hmismatch hfirst hrun =>
      -- the entry that replaces the value comes first, those about its parts are carried out on the result
      have hnamed := Coerce.toTypeNamed_of_firstSuccess hfirst
      exact .cons (Entry.whole rfl rfl) (hparts (Coerce.eachObject_of_toTypeNamed hnamed) hrun)

theorem settle_replays {own : Json} {put : List Change} (h : SettleRun s v own put) :
    Replays v put own := by
  cases h with
  | kept => exact .nil
  | loose => exact .nil
  | defaulted => exact .cons (Entry.whole rfl rfl) .nil
  | emptied => exact .cons (Entry.whole rfl rfl) .nil

/-- The names that a shape declares are distinct, and so are the keys of its default. -/
abbrev Shape.DistinctNames : Shape → Prop := Shape.KeyLists List.Nodup

theorem fill_replays (hs : s.Everywhere Shape.DistinctNames) (h : (fill s v).run = .ok (w, changes))
    (hv : v.Distinct) : Replays v changes w := by
  induction s using Shape.parts_induction generalizing v w changes with
  | parts s hchild hproperty =>
    -- a value that is kept is settled first, and filling goes on with what then stands there
    have hsettled : ∀ {step sub x y own}, s.child step = .ok (some sub) → x.Distinct →
        (applyDefaults sub x).run = .ok (y, own) → Replays x own y := by
      intro step sub x y own hsub hx hrun
      obtain ⟨settled, put, inner, hsettle, hfill, rfl⟩ := applyDefaults_cases hrun
      have hsub' := hs.child hsub
      have hown : settled.Distinct := hsettle.eachObject List.nodup_nil hx hsub'.here.fallback
      exact (settle_replays hsettle).append (hchild _ sub hsub hsub' hfill hown)
    cases fill_cases h with
    | @members ms ns added earlier later hobject hrun hgaps =>
      obtain ⟨hkeys, hmembers⟩ := Json.eachObject_obj.mp hv
      have hpresent : Replays (.obj ms) earlier (.obj ns) := by
        refine Replays.of_members [] hrun hkeys ?_ ?_
        · intro key x hx y own hstep
          exact Replays.of_visit (Shape.visit_of_kept hstep) fun sub hsub hrun =>
            hsettled hsub (hmembers _ hx) hrun
        · intro key x hx own hstep
          exact absurd rfl (Shape.visitKept_ne_none hstep)
      have hmissing : Replays (.obj ns) later (.obj (ns ++ added)) := by
        -- what is put in has a key that is missing, and no two of them are alike
        refine Replays.of_gaps hgaps ?_ ?_
        · refine List.nodup_append.mpr ⟨hkeys.sublist hrun.keys_sublist, ?_, ?_⟩
          · exact hs.here.properties.sublist (List.filter_sublist.map Prod.fst)
          · rintro key hkey _ hentry rfl
            obtain ⟨e, he, rfl⟩ := List.mem_map.mp hentry
            have hfree := (List.mem_filter.mp he).2
            rw [Bool.not_eq_true', hasKey_eq_false_iff] at hfree
            exact hfree (hrun.keys_sublist.subset hkey)
        · intro e he isRequired own put y inner hgap hfill
          have hmem := (List.mem_filter.mp he).1
          have hown : own.Distinct :=
            hgap.eachObject List.nodup_nil (hs.property hmem).here.fallback
          exact hproperty e hmem (hs.property hmem) hfill hown
      exact hpresent.append hmissing
    | items hitems hrun =>
      exact Replays.of_items [] hrun fun x hx y own hstep =>
        hsettled (Shape.child_of_items hitems 0) (Json.eachObject_arr.mp hv x hx) hstep
    | whole => exact .nil

theorem applyDefaults_replays (hs : s.Everywhere Shape.DistinctNames)
    (h : (applyDefaults s v).run = .ok (w, changes)) (hv : v.Distinct) : Replays v changes w := by
  obtain ⟨own, put, inner, hsettle, hfill, rfl⟩ := applyDefaults_cases h
  have hown : own.Distinct := hsettle.eachObject List.nodup_nil hv hs.here.fallback
  exact (settle_replays hsettle).append (fill_replays hs hfill hown)

/-! ## The whole repair -/

theorem mend_replays (hs : s.Everywhere Shape.DistinctNames) (h : (mend s v).run = .ok (w, changes))
    (hv : v.Distinct) : Replays v changes w := by
  obtain ⟨pruned, dropped, coerced, turned, filled, hprune, hcoerce, hfill, rfl⟩ := mend_cases h
  have hpruned := prune_distinct hprune hv
  have hcoerced := coerce_distinct hcoerce hpruned
  have h₁ := prune_replays hprune hv
  have h₂ := coerce_replays hcoerce hpruned
  have h₃ := applyDefaults_replays hs hfill hcoerced
  exact h₁.append (h₂.append h₃)

/-- The properties of a shape have names, and so have the members of its default. -/
structure Shape.Named (s : Shape) : Prop where
  properties : "" ∉ s.properties.map Prod.fst
  fallback : ∀ d, s.fallback = some d → d.NoEmptyKey

theorem mend_named (hs : s.Named) (h : (mend s v).run = .ok (w, changes)) (hv : v.NoEmptyKey) :
    ∀ c ∈ changes, c.Named := by
  obtain ⟨pruned, dropped, coerced, turned, filled, hprune, hcoerce, hfill, rfl⟩ := mend_cases h
  have hsublist : ∀ ks ls : List String, ls.Sublist ks → "" ∉ ks → "" ∉ ls :=
    fun _ _ h hks hls => hks (h.subset hls)
  have hpruned : pruned.NoEmptyKey := prune_eachObject hsublist hprune hv
  have hcoerced : coerced.NoEmptyKey := coerce_eachObject hsublist hcoerce hpruned
  intro c hc
  rcases List.mem_append.mp hc with hc | hc
  · exact prune_named hprune hv c hc
  · rcases List.mem_append.mp hc with hc | hc
    · exact coerce_named hcoerce hpruned c hc
    · exact applyDefaults_named hfill hcoerced hs.properties hs.fallback c hc

/-! ## From places to text -/

/-- The pointer of a named change splits into the steps of its place. -/
theorem Change.Named.split_path {c : Change} (h : c.Named) : Pointer.split c.path = c.steps :=
  Pointer.split_display_below h

theorem Entry.replay? {u x : Json} {c : Change} (h : Entry u c x) (hc : c.Named) :
    c.replay? u = some x := by
  rw [Change.replay?, hc.split_path, h.places]
  rfl

theorem Entry.fits_path {u x : Json} {c : Change} (h : Entry u c x) (hc : c.Named) : c.Fits u := by
  rw [Change.Fits, hc.split_path]
  exact h.fits

/-- Entries that lead from one value to another do so by their pointers. -/
theorem Replays.replay? (h : Replays v changes w) (hnamed : ∀ c ∈ changes, c.Named) :
    replay? v changes = some w := by
  induction h with
  | nil => rfl
  | @cons v u w c rest entry _ ih =>
    show (c.replay? v).bind (JsonMend.replay? · rest) = some w
    rw [entry.replay? (hnamed c List.mem_cons_self)]
    exact ih fun c' hc' => hnamed c' (List.mem_cons_of_mem _ hc')

/-- Each entry of a sequence fits the value that the entries before it lead to. -/
theorem Replays.fits {earlier later : List Change} {c : Change}
    (h : Replays v (earlier ++ c :: later) w) (hnamed : ∀ c' ∈ earlier ++ c :: later, c'.Named) :
    ∃ u, JsonMend.replay? v earlier = some u ∧ c.Fits u := by
  induction earlier generalizing v with
  | nil =>
    cases h with
    | cons entry _ => exact ⟨v, rfl, entry.fits_path (hnamed c List.mem_cons_self)⟩
  | cons first rest ih =>
    cases h with
    | @cons _ x _ _ _ entry tail =>
      obtain ⟨u, hu, hfits⟩ := ih tail fun c' hc' => hnamed c' (List.mem_cons_of_mem _ hc')
      refine ⟨u, ?_, hfits⟩
      show (first.replay? v).bind (JsonMend.replay? · rest) = some u
      rw [entry.replay? (hnamed first List.mem_cons_self)]
      exact hu

/-- **A ledger is a faithful edit script.**  Replayed entry by entry on the value that was repaired, it
gives the repaired value, and every entry tells the truth about the value it is carried out on. -/
theorem mend_ledger_replays {schema v w : Json} {ledger : List Change}
    (schemaDistinct : schema.Distinct) (distinct : v.Distinct)
    (schemaNamed : (Shape.ofSchema schema).Named) (named : v.NoEmptyKey)
    (h : (mend (Shape.ofSchema schema) v).run = .ok (w, ledger)) :
    replay? v ledger = some w ∧
      ∀ earlier c later, ledger = earlier ++ c :: later →
        ∃ u, replay? v earlier = some u ∧ c.Fits u := by
  have hnames : (Shape.ofSchema schema).Everywhere Shape.DistinctNames :=
    Shape.everywhere_ofSchema List.nodup_nil schemaDistinct
  have hreplays : Replays v ledger w := mend_replays hnames h distinct
  have hnamed : ∀ c ∈ ledger, c.Named := mend_named schemaNamed h named
  refine ⟨hreplays.replay? hnamed, ?_⟩
  rintro earlier c later rfl
  exact hreplays.fits hnamed

/-- A forbidden key, a scalar that is wrapped before it is coerced, a default, and an object that is asked for and filled
where it is missing, in one ledger. -/
theorem mend_ledger_replays_all_actions :
    let schema : Json := .obj [("properties", .obj [
        ("a", .obj [("type", .str "array"), ("items", .obj [("type", .str "integer")])]),
        ("b", .obj [("default", .obj [("c", .null)])]),
        ("d", .obj [("type", .str "object"), ("properties", .obj [("e", .obj [("default", .bool true)])])])]),
      ("required", .arr [.str "d"]), ("additionalProperties", .bool false)]
    let v : Json := .obj [("x", .null), ("a", .str "7")]
    let ledger : List Change :=
      [⟨[.key "x"], .removed .null, Prune.reason⟩,
       ⟨[.key "a"], .coerced (.str "7") (.arr [.str "7"]), "Coerced string to array"⟩,
       ⟨[.key "a", .index 0], .coerced (.str "7") (.num (.int 7)), "Coerced string to integer"⟩,
       ⟨[.key "b"], .defaulted (.obj [("c", .null)]) none, Defaults.reason⟩,
       ⟨[.key "d"], .added (.obj []) none, Defaults.reasonRequiredObject⟩,
       ⟨[.key "d", .key "e"], .defaulted (.bool true) none, Defaults.reason⟩]
    let w : Json := .obj [("a", .arr [.num (.int 7)]), ("b", .obj [("c", .null)]), ("d", .obj [("e", .bool true)])]
    (mend (Shape.ofSchema schema) v).run = .ok (w, ledger) ∧ replay? v ledger = some w := by
  intro schema v ledger w
  have hrun : (mend (Shape.ofSchema schema) v).run = .ok (w, ledger) :=
    Changed.run_eq_ok_of_toOption (by decide +kernel)
  have hnamed : (Shape.ofSchema schema).Named := by
    refine ⟨by decide +kernel, fun d hd => ?_⟩
    have hnone : (Shape.ofSchema schema).fallback = none := by decide +kernel
    rw [hnone] at hd
    cases hd
  obtain ⟨hreplay, -⟩ :=
    mend_ledger_replays (by decide +kernel) (by decide +kernel) hnamed (by decide +kernel) hrun
  exact ⟨hrun, hreplay⟩

end JsonMend
