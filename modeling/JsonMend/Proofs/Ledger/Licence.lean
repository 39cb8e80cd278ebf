import JsonMend.Proofs.Repair.Keys
import JsonMend.Proofs.Shape.Schema
/-
  Every change of a repair is licensed by the shape that governs its place.

  1. **Licence** (`Licensed`) — what the schema must say for an edit at a place, one case for each kind of
     edit.  The governing shape is found by walking down from the root shape along the place, beside the
     value; an edit that takes a key away or puts one in is governed by the shape of the object as well.
  2. **One step down** (`Licensed.under`) — a licence under the shape of a part is one under the whole.
  3. **The passes** (`prune_licensed`, `coerce_licensed`, `fill_licensed`) — by induction on the shape.  The
     changes inside a default, an empty object or a wrapped scalar need no case of their own: what was
     put there is entered under the same shape as what was kept.
-/
namespace JsonMend

open Changed

/-! ## Licence -/

/-- What a schema must say for an edit at a place. -/
inductive Licensed (s : Shape) : Position → Edit → Prop
  | removed (above : Position) {key parent value}
      (governed : Shape.descend (some s) above = .ok (some parent)) (closed : parent.closed = true)
      (names : parent.namesKeys = true) (undeclared : parent.declares key = .ok false) :
      Licensed s (above ++ [.key key]) (.removed value)
  | coerced {place g before after earlier target later}
      (governed : Shape.descend (some s) place = .ok (some g)) (scalar : before.isScalar = true)
      (mismatch : g.admits before = false) (types : g.types = earlier ++ target :: later)
      (failed : ∀ name ∈ earlier, Coerce.toTypeNamed name before = .ok none)
      (first : Coerce.toTypeNamed target before = .ok (some after))
      (right : after.isOfTypeNamed target = true) : Licensed s place (.coerced before after)
  | defaulted {place g value before?}
      (governed : Shape.descend (some s) place = .ok (some g)) (default : g.fallback = some value)
      (mismatch : ∀ before ∈ before?, g.admits before = false) :
      Licensed s place (.defaulted value before?)
  | addedObject (above : Position) {key parent g}
      (governed : Shape.descend (some s) above = .ok (some parent))
      (declared : parent.properties.lookup key = some g)
      (required : parent.required.contains key = true) (noDefault : g.fallback = none)
      (listed : g.types.contains "object" = true) :
      Licensed s (above ++ [.key key]) (.added (.obj []) none)
  | addedArray (above : Position) {key parent g}
      (governed : Shape.descend (some s) above = .ok (some parent))
      (declared : parent.properties.lookup key = some g)
      (required : parent.required.contains key = true) (noDefault : g.fallback = none)
      (unlisted : g.types.contains "object" = false) (listed : g.types.contains "array" = true) :
      Licensed s (above ++ [.key key]) (.added (.arr []) none)
  | emptied {place g before} (governed : Shape.descend (some s) place = .ok (some g))
      (object : g.isObject = true) (names : g.namesKeys = true) (noDefault : g.fallback = none)
      (noObject : before.isObj = false) (mismatch : g.admits before = false) :
      Licensed s place (.added (.obj []) (some before))

/-- A ledger all of whose entries are licensed. -/
def AllLicensed (s : Shape) (changes : List Change) : Prop :=
  ∀ c ∈ changes, Licensed s c.place c.edit

variable {s sub : Shape} {v w : Json} {changes : List Change}

/-! ## One step down -/

/-- A licence under the shape of a part is one under the whole. -/
theorem Licensed.under {step : Segment} {place : Position} {edit : Edit}
    (hchild : s.child step = .ok (some sub)) (h : Licensed sub place edit) :
    Licensed s (step :: place) edit := by
  have hgoverned : ∀ {place g}, Shape.descend (some sub) place = .ok (some g) →
      Shape.descend (some s) (step :: place) = .ok (some g) := by
    intro place g hg
    rw [Shape.descend_cons_of_child hchild]
    exact hg
  cases h with
  | removed above hg hclosed hnames hundeclared =>
    exact .removed (step :: above) (hgoverned hg) hclosed hnames hundeclared
  | coerced hg hscalar hmismatch htypes hfailed hfirst hright =>
    exact .coerced (hgoverned hg) hscalar hmismatch htypes hfailed hfirst hright
  | defaulted hg hdefault hmismatch => exact .defaulted (hgoverned hg) hdefault hmismatch
  | addedObject above hg hdeclared hrequired hnone hlisted =>
    exact .addedObject (step :: above) (hgoverned hg) hdeclared hrequired hnone hlisted
  | addedArray above hg hdeclared hrequired hnone hunlisted hlisted =>
    exact .addedArray (step :: above) (hgoverned hg) hdeclared hrequired hnone hunlisted hlisted
  | emptied hg hobject hnames hnone hplain hmismatch =>
    exact .emptied (hgoverned hg) hobject hnames hnone hplain hmismatch

namespace AllLicensed

theorem nil : AllLicensed s [] := fun _ hc => absurd hc List.not_mem_nil

theorem append {earlier later : List Change} (h : AllLicensed s earlier)
    (h' : AllLicensed s later) : AllLicensed s (earlier ++ later) := by
  intro c hc
  rcases List.mem_append.mp hc with hc | hc
  · exact h c hc
  · exact h' c hc

theorem here {edit : Edit} {reason : String} (h : Licensed s [] edit) :
    AllLicensed s [.here edit reason] := by
  intro c hc
  rw [List.mem_singleton.mp hc]
  exact h

end AllLicensed

/-! ## The passes -/

theorem prune_licensed (h : (prune s v).run = .ok (w, changes)) : AllLicensed s changes := by
  induction s using Shape.parts_induction generalizing v w changes with
  | parts s hchild hproperty =>
    intro c hc
    rcases Prune.change_cases h hc with ⟨ms, key, x, rfl, -, hforbids, rfl⟩ |
      ⟨step, sub, x, y, own, inner, hpart, hprune, hinner, rfl⟩
    · obtain ⟨hclosed, hnames, hundeclared⟩ := Prune.forbids_eq_true.mp hforbids
      exact .removed [] rfl hclosed hnames hundeclared
    · exact (hchild step sub hpart.child hprune inner hinner).under hpart.child

theorem coerce_licensed (h : (coerce s v).run = .ok (w, changes)) : AllLicensed s changes := by
  induction s using Shape.parts_induction generalizing v w changes with
  | parts s hchild hproperty =>
    have hparts : ∀ {own inner}, s.PartsRun (s.visitKept coerce) coerce own w inner →
        AllLicensed s inner := by
      intro own changes hrun c hc
      obtain ⟨step, sub, x, y, _, inner, hpart, hcoerce, hinner, rfl⟩ :=
        hrun.part_of_change Shape.visit_of_run hc
      exact (hchild step sub hpart.child hcoerce inner hinner).under hpart.child
    cases coerce_cases.mp h with
    | kept hadmits hrun => exact hparts hrun
    | stuck hmismatch hfailed hsame => exact .nil
    | @coerced target own inner hmismatch hfirst hrun =>
      obtain ⟨earlier, later, htypes, hfailed, htarget⟩ := Coerce.firstSuccess_cases hfirst
      have hscalar := Coerce.isScalar_of_toTypeNamed htarget
      have hright := Coerce.isOfTypeNamed_of_toTypeNamed htarget
      have hown : Licensed s [] (.coerced v own) :=
        .coerced rfl hscalar hmismatch htypes hfailed htarget hright
      exact (AllLicensed.here hown).append (hparts hrun)

theorem settle_licensed {own : Json} (h : Defaults.SettleRun s v own changes) :
    AllLicensed s changes := by
  cases h with
  | kept => exact .nil
  | loose => exact .nil
  | defaulted houtside hmismatch hdefault =>
    refine .here (.defaulted rfl hdefault ?_)
    rintro before ⟨⟩
    exact hmismatch
  | emptied houtside hmismatch hobject hnone hnames =>
    have hplain : v.isObj = false := by
      cases v with
      | obj ms => exact absurd (hobject.symm.trans houtside) (by decide)
      | null | bool | num | str | arr => rfl
    exact .here (.emptied rfl hobject hnames hnone hplain hmismatch)

/-- What is put in the place of a missing property is licensed by the shape that declares it. -/
theorem gap_licensed {name : String} {own : Json} (hlookup : s.properties.lookup name = some sub)
    (h : Defaults.GapRun (s.required.contains name) sub (some own) changes) :
    AllLicensed s (changes.map (·.under (.key name))) := by
  intro c hc
  obtain ⟨inner, hinner, rfl⟩ := List.mem_map.mp hc
  cases h with
  | default hdefault =>
    rw [List.mem_singleton.mp hinner]
    exact .defaulted (Shape.descend_cons_of_child (Shape.child_of_property hlookup) []) hdefault
      fun _ hbefore => nomatch hbefore
  | object hnone hrequired hlisted =>
    rw [List.mem_singleton.mp hinner]
    exact .addedObject [] rfl hlookup hrequired hnone hlisted
  | array hnone hrequired hunlisted hlisted =>
    rw [List.mem_singleton.mp hinner]
    exact .addedArray [] rfl hlookup hrequired hnone hunlisted hlisted

theorem fill_licensed (hs : s.Everywhere (Shape.KeyLists List.Nodup))
    (h : (fill s v).run = .ok (w, changes)) : AllLicensed s changes := by
  induction s using Shape.parts_induction generalizing v w changes with
  | parts s hchild hproperty =>
    have hsettled : ∀ {step sub x y own}, s.child step = .ok (some sub) →
        (applyDefaults sub x).run = .ok (y, own) → AllLicensed sub own := by
      intro step sub x y own hsub hrun
      obtain ⟨settled, put, inner, hsettle, hfill, rfl⟩ := applyDefaults_cases hrun
      exact (settle_licensed hsettle).append (hchild _ sub hsub (hs.child hsub) hfill)
    cases fill_cases h with
    | @members ms ns added earlier later hobject hrun hgaps =>
      refine .append ?_ ?_
      · intro c hc
        obtain ⟨step, sub, x, y, _, inner, hpart, hrun, hinner, rfl⟩ :=
          hrun.part_of_change hobject Shape.visit_of_run hc
        exact (hsettled hpart.child hrun inner hinner).under hpart.child
      · intro c hc
        obtain ⟨name, sub, own, y, put, inner, c', hentry, hgap, hfill, hc', rfl⟩ :=
          hgaps.entry_of_change hc
        have hmem := (List.mem_filter.mp hentry).1
        have hlookup := lookup_of_mem hs.here.properties hmem
        -- the change puts the value in, or fills what was put in
        rcases List.mem_append.mp hc' with hput | hinner
        · exact gap_licensed hlookup hgap _ (List.mem_map.mpr ⟨c', hput, rfl⟩)
        · have hinside := hproperty _ hmem (hs.property hmem) hfill
          exact (hinside c' hinner).under (Shape.child_of_property hlookup)
    | items hitems hrun =>
      intro c hc
      obtain ⟨step, sub, x, y, _, inner, hpart, hrun, hinner, rfl⟩ := hrun.part_of_change hitems hc
      exact (hsettled hpart.child hrun inner hinner).under hpart.child
    | whole => exact .nil

/-! ## The whole repair -/

/-- **Every entry of a ledger is licensed by the schema**: by the shape that is found at the place of the
entry, walking down from the root as the passes do. -/
theorem mend_ledger_licensed {schema v w : Json} {ledger : List Change}
    (schemaDistinct : schema.Distinct)
    (h : (mend (Shape.ofSchema schema) v).run = .ok (w, ledger)) :
    ∀ c ∈ ledger, Licensed (Shape.ofSchema schema) c.place c.edit := by
  have hnames : (Shape.ofSchema schema).Everywhere (Shape.KeyLists List.Nodup) :=
    Shape.everywhere_ofSchema List.nodup_nil schemaDistinct
  obtain ⟨pruned, dropped, coerced, turned, filled, hprune, hcoerce, hfill, rfl⟩ := mend_cases h
  obtain ⟨own, put, inner, hsettle, hinner, rfl⟩ := applyDefaults_cases hfill
  have hdropped := prune_licensed hprune
  have hturned := coerce_licensed hcoerce
  have hfilled := (settle_licensed hsettle).append (fill_licensed hnames hinner)
  exact hdropped.append (hturned.append hfilled)

/-- A required object that is missing is put in empty, and the default inside it after it. -/
theorem mend_ledger_licensed_skeleton :
    let schema : Json := .obj [("properties", .obj [("a", .obj [("type", .str "object"),
        ("properties", .obj [("b", .obj [("default", .null)])])])]), ("required", .arr [.str "a"])]
    Licensed (Shape.ofSchema schema) [.key "a"] (.added (.obj []) none) ∧
      Licensed (Shape.ofSchema schema) [.key "a", .key "b"] (.defaulted .null none) := by
  intro schema
  have hrun : (mend (Shape.ofSchema schema) (.obj [])).run =
      .ok (.obj [("a", .obj [("b", .null)])],
        [⟨[.key "a"], .added (.obj []) none, Defaults.reasonRequiredObject⟩,
         ⟨[.key "a", .key "b"], .defaulted .null none, Defaults.reason⟩]) :=
    Changed.run_eq_ok_of_toOption (by decide +kernel)
  have hlicensed := mend_ledger_licensed (by decide +kernel) hrun
  exact ⟨hlicensed _ List.mem_cons_self, hlicensed _ (List.mem_cons_of_mem _ List.mem_cons_self)⟩

end JsonMend
