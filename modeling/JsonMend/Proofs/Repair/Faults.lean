import JsonMend.Proofs.Repair.Representable
/-
  Where a fault of a repair comes from.

  1. **The monad and the visitors** — a fault of a bind is one of its two parts; a fault of a visit is one
     of the visit of a part.
  2. **Pruning and filling in defaults** — without patterns there is nothing in them that can fail
     (`prune_total`, `applyDefaults_total`).
  3. **Coercing** — it comes to a part by way of values of a right type and of scalars that were put into an
     array (`Reaches`).  It fails exactly where something that it comes to stops it (`coerce_returns_iff`):
     a conversion of an integer of too many digits, or a pattern that cannot be read (`Stops`).  One
     direction is by induction on the shape, the other on the way to what stops it.
-/
namespace JsonMend

namespace Changed

/-! ## The monad and the visitors -/

theorem run_bind_eq_error {α β : Type} {x : Changed α} {f : α → Changed β} {fault : Fault} :
    (x >>= f).run = .error fault ↔
      x.run = .error fault ∨ ∃ a earlier, x.run = .ok (a, earlier) ∧ (f a).run = .error fault := by
  rw [run_bind]
  cases x.run with
  | error other => simp [Except.bind]
  | ok result =>
    obtain ⟨a, earlier⟩ := result
    cases hf : (f a).run with
    | error other => simp [Except.bind, Except.map, hf]
    | ok result => simp [Except.bind, Except.map, hf]

theorem run_pure_ne_error {α : Type} {a : α} {fault : Fault} :
    (pure a : Changed α).run ≠ .error fault := by
  rintro ⟨⟩

theorem run_record_bind_eq_error {β : Type} {edit : Edit} {reason : String} {f : Unit → Changed β}
    {fault : Fault} :
    (record edit reason >>= f).run = .error fault ↔ (f ()).run = .error fault := by
  rw [run_bind_eq_error]
  constructor
  · rintro (⟨⟨⟩⟩ | ⟨a, earlier, -, hf⟩)
    exact hf
  · intro hf
    exact .inr ⟨(), _, rfl, hf⟩

theorem run_ofExcept_eq_error {α : Type} {x : Except Fault α} {fault : Fault} :
    (ofExcept x).run = .error fault ↔ x = .error fault := by
  cases x <;> simp [ofExcept, run]

theorem run_under_eq_error {α : Type} {step : Segment} {x : Changed α} {fault : Fault} :
    (under step x).run = .error fault ↔ x.run = .error fault := by
  show under step x = _ ↔ x = _
  cases x <;> simp [under]

/-- A result that is only reshaped fails where it fails. -/
theorem run_bind_pure_eq_error {α β : Type} {x : Changed α} {g : α → β} {fault : Fault} :
    (x >>= fun a => pure (g a)).run = .error fault ↔ x.run = .error fault := by
  rw [run_bind_eq_error]
  constructor
  · rintro (hx | ⟨a, earlier, -, hpure⟩)
    · exact hx
    · exact absurd hpure run_pure_ne_error
  · exact .inl

theorem items_error {step : Json → Changed Json} {i : Nat} {xs : List Json} {fault : Fault}
    (h : (items step i xs).run = .error fault) :
    ∃ (j : Nat) (x : Json), xs[j]? = some x ∧ (step x).run = .error fault := by
  induction xs generalizing i with
  | nil => exact absurd h run_pure_ne_error
  | cons x xs ih =>
    rw [items] at h
    rcases run_bind_eq_error.mp h with hx | ⟨y, earlier, -, hrest⟩
    · exact ⟨0, x, rfl, run_under_eq_error.mp hx⟩
    · obtain ⟨j, x', hget, hx'⟩ := ih (run_bind_pure_eq_error.mp hrest)
      exact ⟨j + 1, x', hget, hx'⟩

theorem members_error {step : String → Json → Changed (Option Json)} {ms : Members} {fault : Fault}
    (h : (members step ms).run = .error fault) :
    ∃ key x, (key, x) ∈ ms ∧ (step key x).run = .error fault := by
  induction ms with
  | nil => exact absurd h run_pure_ne_error
  | cons m ms ih =>
    obtain ⟨key, x⟩ := m
    rw [members] at h
    rcases run_bind_eq_error.mp h with hx | ⟨y?, earlier, -, hrest⟩
    · exact ⟨key, x, List.mem_cons_self, run_under_eq_error.mp hx⟩
    · rcases run_bind_eq_error.mp hrest with htail | ⟨ns, later, -, hpure⟩
      · obtain ⟨key', x', hmem, hx'⟩ := ih htail
        exact ⟨key', x', List.mem_cons_of_mem _ hmem, hx'⟩
      · cases y? <;> exact absurd hpure run_pure_ne_error

theorem filterMapM_error {α β : Type} {f : α → Changed (Option β)} {xs : List α} {fault : Fault}
    (h : (xs.filterMapM f).run = .error fault) : ∃ x ∈ xs, (f x).run = .error fault := by
  induction xs with
  | nil => exact absurd h run_pure_ne_error
  | cons x xs ih =>
    rw [List.filterMapM_cons] at h
    rcases run_bind_eq_error.mp h with hx | ⟨y?, earlier, -, hrest⟩
    · exact ⟨x, List.mem_cons_self, hx⟩
    · have htail : (xs.filterMapM f).run = .error fault := by
        cases y? with
        | none => exact hrest
        | some y => exact run_bind_pure_eq_error.mp hrest
      obtain ⟨x', hmem, hx'⟩ := ih htail
      exact ⟨x', List.mem_cons_of_mem _ hmem, hx'⟩

end Changed

open Changed

namespace Shape

variable {s sub : Shape} {v x : Json} {fault : Fault} {pass : Shape → Json → Changed Json}
  {member : String → Json → Changed (Option Json)}

/-- A visit of a member fails where its key cannot be matched or the pass fails. -/
theorem visit_error {key : String} (h : (s.visit pass key x).run = .error fault) :
    s.child (.key key) = .error fault ∨
      ∃ sub, s.child (.key key) = .ok (some sub) ∧ (pass sub x).run = .error fault := by
  unfold visit at h
  split at h
  · rename_i hchild
    cases h
    exact .inl hchild
  · exact absurd h run_pure_ne_error
  · rename_i sub hchild
    exact .inr ⟨sub, hchild, h⟩

theorem visitKept_error {key : String} (h : (s.visitKept pass key x).run = .error fault) :
    s.child (.key key) = .error fault ∨
      ∃ sub, s.child (.key key) = .ok (some sub) ∧ (pass sub x).run = .error fault :=
  visit_error (run_bind_pure_eq_error.mp h)

/-- A visit of the parts of a value fails at a member or in an item. -/
theorem visitParts_error (h : (s.visitParts member pass v).run = .error fault) :
    (∃ ms key x, v = .obj ms ∧ s.isObject = true ∧ (key, x) ∈ ms ∧
      (member key x).run = .error fault) ∨
    ∃ step sub x, s.Part v step sub x ∧ (pass sub x).run = .error fault := by
  cases v with
  | obj ms =>
    rw [visitParts] at h
    split at h
    · rename_i hobject
      obtain ⟨key, x, hmem, hx⟩ := members_error (run_bind_pure_eq_error.mp h)
      exact .inl ⟨ms, key, x, rfl, hobject, hmem, hx⟩
    · exact absurd h run_pure_ne_error
  | arr xs =>
    rw [visitParts] at h
    split at h
    · exact absurd h run_pure_ne_error
    · rename_i sub hitems
      obtain ⟨j, x, hget, hx⟩ := items_error (run_bind_pure_eq_error.mp h)
      exact .inr ⟨.index j, sub, x, .item hget hitems, hx⟩
  | null | bool | num | str => exact absurd h run_pure_ne_error

/-- A pass that keeps all members fails where a key cannot be matched, or in a part. -/
theorem visitAll_error (h : (s.visitParts (s.visitKept pass) pass v).run = .error fault) :
    (∃ ms key x, v = .obj ms ∧ s.isObject = true ∧ (key, x) ∈ ms ∧
      s.child (.key key) = .error fault) ∨
    ∃ step sub x, s.Part v step sub x ∧ (pass sub x).run = .error fault := by
  rcases visitParts_error h with ⟨ms, key, x, rfl, hobject, hmem, hx⟩ | hpart
  · rcases visitKept_error hx with hkey | ⟨sub, hsub, hx⟩
    · exact .inl ⟨ms, key, x, rfl, hobject, hmem, hkey⟩
    · exact .inr ⟨_, sub, x, .member hobject hmem hsub, hx⟩
  · exact .inr hpart

/-! ### Without patterns -/

theorem child_ne_error (noPattern : s.patterns = []) (step : Segment) :
    s.child step ≠ .error fault := by
  cases step with
  | index i => simp
  | key key =>
    unfold child
    rw [noPattern, items_if_isArray]
    dsimp only
    split
    · split <;> simp [firstMatching, Except.map]
    · simp

theorem forbids_ne_error (noPattern : s.patterns = []) (key : String) :
    Prune.forbids s key ≠ .error fault := by
  unfold Prune.forbids declares
  rw [noPattern]
  split
  · split <;> simp [firstMatching, Except.map]
  · simp

end Shape

variable {s g sub : Shape} {v w x : Json} {fault : Fault}

/-! ## Pruning and filling in defaults -/

/-- What never fails returns. -/
theorem Changed.returns_of_ne_error {α : Type} {x : Changed α}
    (h : ∀ fault, x.run ≠ .error fault) : ∃ a changes, x.run = .ok (a, changes) := by
  cases hx : x.run with
  | error fault => exact absurd hx (h fault)
  | ok result => exact ⟨result.1, result.2, rfl⟩

theorem prune_ne_error (noPattern : s.Everywhere (·.patterns = [])) (v : Json) (fault : Fault) :
    (prune s v).run ≠ .error fault := by
  induction s using Shape.parts_induction generalizing v with
  | parts s hchild hproperty =>
    intro h
    rw [prune_eq] at h
    rcases Shape.visitParts_error h with ⟨ms, key, x, rfl, -, -, hmember⟩ | ⟨step, sub, x, hpart, hx⟩
    · unfold Prune.member at hmember
      rcases run_bind_eq_error.mp hmember with hforbids | ⟨forbidden, -, -, hrest⟩
      · exact Shape.forbids_ne_error noPattern.here key (run_ofExcept_eq_error.mp hforbids)
      · cases forbidden with
        | true => exact absurd (run_record_bind_eq_error.mp hrest) run_pure_ne_error
        | false =>
          rcases Shape.visit_error (run_bind_pure_eq_error.mp hrest) with hkey | ⟨sub, hsub, hx⟩
          · exact Shape.child_ne_error noPattern.here _ hkey
          · exact hchild _ sub hsub (noPattern.child hsub) x hx
    · exact hchild step sub hpart.child (noPattern.child hpart.child) x hx

namespace Defaults

theorem settle_ne_error : (settle s v).run ≠ .error fault := by
  intro h
  unfold settle at h
  repeat' split at h
  all_goals
    first
    | exact absurd h run_pure_ne_error
    | exact absurd (run_record_bind_eq_error.mp h) run_pure_ne_error

theorem gapFiller?_ne_error {isRequired : Bool} : (gapFiller? isRequired s).run ≠ .error fault := by
  intro h
  unfold gapFiller? supply? at h
  repeat' split at h
  all_goals
    first
    | exact absurd h run_pure_ne_error
    | exact absurd (run_record_bind_eq_error.mp h) run_pure_ne_error

end Defaults

theorem applyDefaults_error (h : (applyDefaults s v).run = .error fault) :
    ∃ own, (fill s own).run = .error fault := by
  rcases run_bind_eq_error.mp h with hsettle | ⟨own, _, -, hfill⟩
  · exact absurd hsettle Defaults.settle_ne_error
  · exact ⟨own, hfill⟩

theorem fill_ne_error (noPattern : s.Everywhere (·.patterns = [])) (v : Json) (fault : Fault) :
    (fill s v).run ≠ .error fault := by
  induction s using Shape.parts_induction generalizing v with
  | parts s hchild hproperty =>
    intro h
    have hpart : ∀ step sub x, s.child step = .ok (some sub) →
        (applyDefaults sub x).run ≠ .error fault := by
      intro step sub x hsub hx
      obtain ⟨own, hfill⟩ := applyDefaults_error hx
      exact hchild step sub hsub (noPattern.child hsub) own hfill
    cases v with
    | obj ms =>
      rw [fill_obj] at h
      split at h
      · rcases run_bind_eq_error.mp h with hmembers | ⟨ns, -, -, hrest⟩
        · obtain ⟨key, x, -, hx⟩ := members_error hmembers
          rcases Shape.visitKept_error hx with hkey | ⟨sub, hsub, hx⟩
          · exact Shape.child_ne_error noPattern.here _ hkey
          · exact hpart _ sub x hsub hx
        · obtain ⟨⟨name, sub⟩, hmem, hgap⟩ := filterMapM_error (run_bind_pure_eq_error.mp hrest)
          rcases run_bind_eq_error.mp (run_under_eq_error.mp hgap) with hput | ⟨own?, -, -, hfill⟩
          · exact absurd hput Defaults.gapFiller?_ne_error
          · cases own? with
            | none => exact absurd hfill run_pure_ne_error
            | some own =>
              have hproperties := (List.mem_filter.mp hmem).1
              exact hproperty _ hproperties (noPattern.property hproperties) own
                (run_bind_pure_eq_error.mp hfill)
      · exact absurd h run_pure_ne_error
    | arr xs =>
      rw [fill_arr] at h
      rcases Shape.visitParts_error h with ⟨ms, key, x, ⟨⟩, -⟩ | ⟨step, sub, x, hx, herror⟩
      exact hpart step sub x hx.child herror
    | null | bool | num | str =>
      rw [fill_flat (by simp) (by simp)] at h
      exact absurd h run_pure_ne_error

/-- **Without patterns pruning always returns.** -/
theorem prune_total (noPattern : s.Everywhere (·.patterns = [])) (v : Json) :
    ∃ w changes, (prune s v).run = .ok (w, changes) :=
  Changed.returns_of_ne_error (prune_ne_error noPattern v)

/-- **Without patterns filling in defaults always returns.** -/
theorem applyDefaults_total (noPattern : s.Everywhere (·.patterns = [])) (v : Json) :
    ∃ w changes, (applyDefaults s v).run = .ok (w, changes) := by
  refine Changed.returns_of_ne_error fun fault h => ?_
  obtain ⟨own, hfill⟩ := applyDefaults_error h
  exact fill_ne_error noPattern own fault hfill

/-! ## Coercing -/

namespace Coerce

/-- Coercing a value comes to a value inside it, with the shape that governs it: through values of a right
type, and through a scalar that is put into an array. -/
inductive Reaches : Shape → Json → Shape → Json → Prop
  | here {s : Shape} {v : Json} : Reaches s v s v
  | part {s sub g : Shape} {v x y : Json} {step : Segment} (admitted : s.admits v = true)
      (part : s.Part v step sub x) (rest : Reaches sub x g y) : Reaches s v g y
  | wrapped {s sub g : Shape} {v y : Json} {earlier later : List String} (scalar : v.isScalar = true)
      (mismatch : s.admits v = false) (listed : s.types = earlier ++ "array" :: later)
      (first : NoneRepresentable earlier v) (items : s.items = some sub) (rest : Reaches sub v g y) :
      Reaches s v g y

/-- What ends the coercing at a value: the first listed type that has a value for it meets an integer of too
many digits, or a key cannot be matched. -/
inductive Stops (s : Shape) : Json → Fault → Prop
  | overlong {v : Json} {earlier later : List String} {t : JsonType} {fault : Fault}
      (mismatch : s.admits v = false) (listed : s.types = earlier ++ t.name :: later)
      (first : NoneRepresentable earlier v) (long : Overlong t v fault) : Stops s v fault
  | pattern {ms : Members} {key : String} {x : Json} {fault : Fault}
      (admitted : s.admits (.obj ms) = true) (object : s.isObject = true) (mem : (key, x) ∈ ms)
      (unreadable : s.child (.key key) = .error fault) : Stops s (.obj ms) fault

/-- Without patterns only an integer of too many digits stops the coercing. -/
theorem Stops.overlong_of_noPattern (h : Stops s v fault) (noPattern : s.patterns = []) :
    ∃ t, Overlong t v fault := by
  cases h with
  | overlong _ _ _ long => exact ⟨_, long⟩
  | pattern _ _ _ unreadable => exact absurd unreadable (Shape.child_ne_error noPattern _)

theorem ownType?_error (h : (ownType? s v).run = .error fault) : Stops s v fault := by
  unfold ownType? at h
  split at h
  · exact absurd h run_pure_ne_error
  · rename_i hmismatch
    rcases run_bind_eq_error.mp h with hfirst | ⟨found?, _, _, hrest⟩
    · obtain ⟨earlier, later, t, hlisted, hearlier, hlong⟩ :=
        firstSuccess_eq_error.mp (run_ofExcept_eq_error.mp hfirst)
      exact .overlong (eq_false_of_ne_true hmismatch) hlisted hearlier hlong
    · cases found? with
      | none => exact absurd hrest run_pure_ne_error
      | some found => exact absurd (run_record_bind_eq_error.mp hrest) run_pure_ne_error

/-- The value whose parts are coerced is the value itself, or what it was turned into. -/
theorem ownType?_some {own : Json} {changes : List Change}
    (h : (ownType? s v).run = .ok (some own, changes)) :
    (s.admits v = true ∧ own = v) ∨
      (s.admits v = false ∧ ∃ target, firstSuccess v s.types = .ok (some (target, own))) := by
  unfold ownType? at h
  split at h
  · rename_i hadmits
    cases h
    exact .inl ⟨hadmits, rfl⟩
  · rename_i hmismatch
    obtain ⟨found?, _, _, hfirst, hrest, -⟩ := run_bind_eq_ok.mp h
    obtain ⟨hfirst, -⟩ := run_ofExcept_eq_ok.mp hfirst
    cases found? with
    | none => cases hrest
    | some found =>
      obtain ⟨target, result⟩ := found
      obtain ⟨_, hpure, -⟩ := run_record_bind_eq_ok.mp hrest
      cases hpure
      exact .inr ⟨eq_false_of_ne_true hmismatch, target, hfirst⟩

/-- Coercing comes to the parts of that value. -/
theorem Reaches.of_own {own y : Json} {step : Segment} {changes : List Change}
    (h : (ownType? s v).run = .ok (some own, changes)) (hpart : s.Part own step sub x)
    (rest : Reaches sub x g y) : Reaches s v g y := by
  rcases ownType?_some h with ⟨hadmits, rfl⟩ | ⟨hmismatch, target, hfirst⟩
  · exact .part hadmits hpart rest
  · -- only an array of the scalar itself has parts, and its one item is the scalar
    cases hpart with
    | member => exact absurd hfirst firstSuccess_ne_obj
    | item hget hitems =>
      obtain ⟨-, rfl, hscalar, earlier, later, hlisted, hearlier⟩ := firstSuccess_eq_wrapped.mp hfirst
      obtain rfl := List.mem_singleton.mp (List.mem_of_getElem? hget)
      exact .wrapped hscalar hmismatch hlisted hearlier hitems rest

end Coerce

open Coerce

theorem coerce_error (h : (coerce s v).run = .error fault) :
    ∃ g x, Reaches s v g x ∧ Stops g x fault := by
  induction s using Shape.parts_induction generalizing v with
  | parts s hchild hproperty =>
    rw [coerce_eq] at h
    rcases run_bind_eq_error.mp h with hown | ⟨own?, changes, hown, hvisit⟩
    · exact ⟨s, v, .here, ownType?_error hown⟩
    · cases own? with
      | none => exact absurd hvisit run_pure_ne_error
      | some own =>
        rcases Shape.visitAll_error hvisit with ⟨ms, key, x, rfl, hobject, hmem, hkey⟩ | hinside
        · rcases ownType?_some hown with ⟨hadmits, rfl⟩ | ⟨-, target, hfirst⟩
          · exact ⟨s, _, .here, .pattern hadmits hobject hmem hkey⟩
          · exact absurd hfirst firstSuccess_ne_obj
        · obtain ⟨step, sub, x, hpart, hx⟩ := hinside
          obtain ⟨g, y, hreaches, hstops⟩ := hchild step sub hpart.child hx
          exact ⟨g, y, .of_own hown hpart hreaches, hstops⟩

/-- Where coercing returns, it returns at everything that it comes to. -/
theorem coerce_returns_at (hreaches : Reaches s v g x) {changes : List Change}
    (h : (coerce s v).run = .ok (w, changes)) : ∃ y own, (coerce g x).run = .ok (y, own) := by
  induction hreaches generalizing w changes with
  | here => exact ⟨w, changes, h⟩
  | part hadmits hpart rest ih =>
    cases coerce_cases.mp h with
    | kept _ parts =>
      obtain ⟨y, own, hrun, -⟩ := parts.result_of_part Shape.visitKept_run.mp hpart
      exact ih hrun
    | stuck hmismatch | coerced hmismatch =>
      rw [hadmits] at hmismatch
      cases hmismatch
  | wrapped hscalar hmismatch hlisted hfirst hitems rest ih =>
    have hwrapped := firstSuccess_eq_wrapped.mpr ⟨rfl, rfl, hscalar, _, _, hlisted, hfirst⟩
    cases coerce_cases.mp h with
    | kept hadmits =>
      rw [hmismatch] at hadmits
      cases hadmits
    | stuck _ hfailed =>
      rw [hwrapped] at hfailed
      cases hfailed
    | coerced _ hwon parts =>
      rw [hwrapped] at hwon
      cases hwon
      obtain ⟨y, own, hrun, -⟩ :=
        parts.result_of_part Shape.visitKept_run.mp (.item (i := 0) rfl hitems)
      exact ih hrun

theorem Coerce.Stops.coerce_ne_ok (hstops : Stops s v fault) {changes : List Change} :
    (coerce s v).run ≠ .ok (w, changes) := by
  intro h
  cases hstops with
  | overlong hmismatch hlisted hfirst hlong =>
    have hfails := firstSuccess_eq_error.mpr ⟨_, _, _, hlisted, hfirst, hlong⟩
    cases coerce_cases.mp h with
    | kept hadmits =>
      rw [hmismatch] at hadmits
      cases hadmits
    | stuck _ hother | coerced _ hother =>
      rw [hfails] at hother
      cases hother
  | pattern hadmits hobject hmem hunreadable =>
    cases coerce_cases.mp h with
    | kept _ parts =>
      cases parts with
      | members _ hrun =>
        obtain ⟨y?, own, hstep, -⟩ := hrun.result_of_mem hmem
        obtain ⟨y, hvisit⟩ := Shape.visit_of_run hstep
        rcases Shape.visit_run.mp hvisit with ⟨hchild, -⟩ | ⟨sub, hchild, -⟩
        · rw [hunreadable] at hchild
          cases hchild
        · rw [hunreadable] at hchild
          cases hchild
      | whole hnoMember _ =>
        rw [hnoMember _ rfl] at hobject
        cases hobject
    | stuck hmismatch | coerced hmismatch =>
      rw [hadmits] at hmismatch
      cases hmismatch

/-- **Coercing returns exactly where nothing that it comes to stops it.** -/
theorem coerce_returns_iff : (∃ w changes, (coerce s v).run = .ok (w, changes)) ↔
    ¬ ∃ g x fault, Reaches s v g x ∧ Stops g x fault := by
  constructor
  · rintro ⟨w, changes, h⟩ ⟨g, x, fault, hreaches, hstops⟩
    obtain ⟨y, own, hrun⟩ := coerce_returns_at hreaches h
    exact hstops.coerce_ne_ok hrun
  · intro h
    refine Changed.returns_of_ne_error fun fault herror => ?_
    obtain ⟨g, x, hreaches, hstops⟩ := coerce_error herror
    exact h ⟨g, x, fault, hreaches, hstops⟩

end JsonMend
