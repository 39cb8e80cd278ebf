import JsonMend.Proofs.Repair.Runs
import JsonMend.Proofs.Shape.Walk
/-
  A pass on the parts of a value.

  1. **The visit** (`Shape.visitParts`) — the passes go down alike: to the members of an object under a shape
     for objects, and to the items of an array under a shape with items.  `PartsRun` says what such a visit
     has done.
  2. **Parts of the result** (`PartsRun.of_part`, `PartsRun.result_of_part`) — each part of the result is what
     the pass made of that part of the value, and each part that is kept is one of the result.
  3. **Changes** (`PartsRun.part_of_change`) — each change was made to a part of the value.

  By 2 and 3 a proof about a pass needs no case for members and another for items.
-/
namespace JsonMend

open Changed

/-! ## The parts of a value -/

namespace Shape

/-- A pass on a member of an object.  The shape one step below governs the member; where there is none,
the member stays as it is. -/
def visit (s : Shape) (pass : Shape → Json → Changed Json) (key : String) (x : Json) :
    Changed Json :=
  match s.child (.key key) with
  | .error fault => ofExcept (.error fault)
  | .ok none => pure x
  | .ok (some sub) => pass sub x

/-- A pass on a member of an object, which is kept. -/
def visitKept (s : Shape) (pass : Shape → Json → Changed Json) (key : String) (x : Json) :
    Changed (Option Json) := do
  return some (← s.visit pass key x)

/-- A pass on all parts of a value that the shape reaches. -/
def visitParts (s : Shape) (member : String → Json → Changed (Option Json))
    (item : Shape → Json → Changed Json) : Json → Changed Json
  | .obj ms => if s.isObject then do return .obj (← Changed.members member ms) else pure (.obj ms)
  | .arr xs =>
    match s.items with
    | none => pure (.arr xs)
    | some sub => do return .arr (← Changed.items (item sub) 0 xs)
  | v => pure v

theorem visit_run {s : Shape} {pass : Shape → Json → Changed Json} {key : String} {x y : Json}
    {changes : List Change} :
    (s.visit pass key x).run = .ok (y, changes) ↔
      (s.child (.key key) = .ok none ∧ y = x ∧ changes = []) ∨
        ∃ sub, s.child (.key key) = .ok (some sub) ∧ (pass sub x).run = .ok (y, changes) := by
  unfold visit
  cases hchild : s.child (.key key) with
  | error fault => simp [run_ofExcept_eq_ok]
  | ok sub? =>
    cases sub? with
    | none => simp [run_pure_eq_ok]
    | some sub => simp

theorem visitKept_run {s : Shape} {pass : Shape → Json → Changed Json} {key : String} {x : Json}
    {y? : Option Json} {changes : List Change} :
    (s.visitKept pass key x).run = .ok (y?, changes) ↔
      ∃ y, (s.visit pass key x).run = .ok (y, changes) ∧ y? = some y := by
  unfold visitKept
  rw [run_bind_pure_eq_ok]

theorem visitKept_ne_none {s : Shape} {pass : Shape → Json → Changed Json} {key : String} {x : Json}
    {y? : Option Json} {changes : List Change} (h : (s.visitKept pass key x).run = .ok (y?, changes)) :
    y? ≠ none := by
  obtain ⟨y, -, rfl⟩ := visitKept_run.mp h
  exact Option.some_ne_none y

theorem visit_of_kept {s : Shape} {pass : Shape → Json → Changed Json} {key : String} {x y : Json}
    {changes : List Change} (h : (s.visitKept pass key x).run = .ok (some y, changes)) :
    (s.visit pass key x).run = .ok (y, changes) := by
  obtain ⟨y', hvisit, hy⟩ := visitKept_run.mp h
  cases hy
  exact hvisit

theorem visit_of_run {s : Shape} {pass : Shape → Json → Changed Json} {key : String} {x : Json}
    {y? : Option Json} {changes : List Change} (h : (s.visitKept pass key x).run = .ok (y?, changes)) :
    ∃ y, (s.visit pass key x).run = .ok (y, changes) := by
  obtain ⟨y, hvisit, -⟩ := visitKept_run.mp h
  exact ⟨y, hvisit⟩

/-- What a pass made of the parts of a value: of an object's members, of an array's items, or nothing,
where the shape reaches no part. -/
inductive PartsRun (s : Shape) (member : String → Json → Changed (Option Json))
    (item : Shape → Json → Changed Json) : Json → Json → List Change → Prop
  | members {ms ns changes} (object : s.isObject = true) (run : MembersRun member ms ns changes) :
      PartsRun s member item (.obj ms) (.obj ns) changes
  | items {sub xs ys changes} (found : s.items = some sub)
      (run : ItemsRun (item sub) 0 xs ys changes) :
      PartsRun s member item (.arr xs) (.arr ys) changes
  | whole {v} (noMember : ∀ ms, v = .obj ms → s.isObject = false)
      (noItem : ∀ xs, v = .arr xs → s.items = none) : PartsRun s member item v v []

theorem visitParts_run {s : Shape} {member : String → Json → Changed (Option Json)}
    {item : Shape → Json → Changed Json} {v w : Json} {changes : List Change} :
    (s.visitParts member item v).run = .ok (w, changes) ↔ PartsRun s member item v w changes := by
  constructor
  · intro h
    cases v with
    | obj ms =>
      rw [visitParts] at h
      cases hobject : s.isObject with
      | true =>
        rw [hobject, if_pos rfl] at h
        obtain ⟨ns, hns, rfl⟩ := run_bind_pure_eq_ok.mp h
        exact .members hobject (members_run.mp hns)
      | false =>
        rw [hobject, if_neg Bool.false_ne_true] at h
        obtain ⟨rfl, rfl⟩ := run_pure_eq_ok.mp h
        exact .whole (fun _ _ => hobject) (fun _ h => nomatch h)
    | arr xs =>
      rw [visitParts] at h
      cases hitems : s.items with
      | some sub =>
        rw [hitems] at h
        obtain ⟨ys, hys, rfl⟩ := run_bind_pure_eq_ok.mp h
        exact .items hitems (items_run.mp hys)
      | none =>
        rw [hitems] at h
        obtain ⟨rfl, rfl⟩ := run_pure_eq_ok.mp h
        exact .whole (fun _ h => nomatch h) (fun _ _ => hitems)
    | null | bool | num | str =>
      obtain ⟨rfl, rfl⟩ := run_pure_eq_ok.mp h
      exact .whole (fun _ h => nomatch h) (fun _ h => nomatch h)
  · intro h
    cases h with
    | members hobject hrun =>
      rw [visitParts, if_pos hobject]
      exact run_bind_pure_eq_ok.mpr ⟨_, members_run.mpr hrun, rfl⟩
    | items hitems hrun =>
      rw [visitParts, hitems]
      exact run_bind_pure_eq_ok.mpr ⟨_, items_run.mpr hrun, rfl⟩
    | whole hmember hitem =>
      cases v with
      | obj ms => rw [visitParts, hmember ms rfl, if_neg Bool.false_ne_true]; rfl
      | arr xs => rw [visitParts, hitem xs rfl]; rfl
      | null | bool | num | str => rfl

end Shape

/-! ## One part -/

section
variable {s sub : Shape} {v w x y : Json} {ms ns : Members} {xs ys : List Json} {step : Segment}
  {changes : List Change} {c : Change} {pass : Shape → Json → Changed Json}
  {member : String → Json → Changed (Option Json)}

theorem Shape.visit_of_child {key : String} (h : s.child (.key key) = .ok (some sub)) (x : Json) :
    s.visit pass key x = pass sub x := by
  unfold visit
  simp only [h]

/-- A value without distinct keys could have a part that does not stand at its key. -/
theorem Shape.Part.stands (h : s.Part v step sub x) (hv : v.Distinct) : v.step? step = some x := by
  cases h with
  | member hobject hmem hchild => exact lookup_of_mem hv.keys hmem
  | item hget hfound => exact hget

theorem Shape.Part.distinct (h : s.Part v step sub x) (hv : v.Distinct) : x.Distinct := by
  cases h with
  | member hobject hmem hchild => exact hv.mem hmem
  | item hget hfound => exact hv.item hget

/-- What holds at every place is governed. -/
theorem Shape.Governed.of_walks {guard P : Shape → Json → Prop} (hv : v.Distinct)
    (h : ∀ place g y, s.Walk v place g y → P g y) : Governed guard P s v := by
  induction s using Shape.parts_induction generalizing v with
  | parts s hchild hproperty =>
    refine .intro (h [] s v .here) fun _ step sub x hpart => ?_
    refine hchild step sub hpart.child (hpart.distinct hv) fun place g y hwalk => ?_
    exact h (step :: place) g y (.down (hpart.stands hv) hpart hwalk)

theorem Shape.not_part_of_whole (noMember : ∀ ms, v = .obj ms → s.isObject = false)
    (noItem : ∀ xs, v = .arr xs → s.items = none) : ¬ s.Part v step sub x := by
  rintro (⟨hobject, -, -⟩ | ⟨-, hfound⟩)
  · rw [noMember _ rfl] at hobject
    cases hobject
  · rw [noItem _ rfl] at hfound
    cases hfound

/-! ### Parts of the result -/

theorem Changed.MembersRun.of_part (h : MembersRun member ms ns changes)
    (hkept : ∀ {key x y own}, (member key x).run = .ok (some y, own) →
      (s.visit pass key x).run = .ok (y, own)) (hpart : s.Part (.obj ns) step sub y) :
    ∃ x own, s.Part (.obj ms) step sub x ∧ (pass sub x).run = .ok (y, own) := by
  cases hpart with
  | member hobject hmem hchild =>
    obtain ⟨x, own, hx, hstep⟩ := h.member_of_mem hmem
    have hvisit := hkept hstep
    rw [Shape.visit_of_child hchild] at hvisit
    exact ⟨x, own, .member hobject hx hchild, hvisit⟩

theorem Changed.ItemsRun.of_part {inner : Shape} (h : ItemsRun (pass inner) 0 xs ys changes)
    (found : s.items = some inner) (hpart : s.Part (.arr ys) step sub y) :
    ∃ x own, s.Part (.arr xs) step sub x ∧ (pass sub x).run = .ok (y, own) := by
  cases hpart with
  | item hget hfound =>
    rw [found] at hfound
    cases hfound
    obtain ⟨x, own, hx, hrun⟩ := h.item_of_get hget
    exact ⟨x, own, .item hx found, hrun⟩

theorem Shape.PartsRun.of_part (h : s.PartsRun member pass v w changes)
    (hkept : ∀ {key x y own}, (member key x).run = .ok (some y, own) →
      (s.visit pass key x).run = .ok (y, own)) (hpart : s.Part w step sub y) :
    ∃ x own, s.Part v step sub x ∧ (pass sub x).run = .ok (y, own) := by
  cases h with
  | members hobject hrun => exact hrun.of_part hkept hpart
  | items hfound hrun => exact hrun.of_part hfound hpart
  | whole hmember hitem => exact absurd hpart (not_part_of_whole hmember hitem)

/-! ### What became of a part -/

/-- A member that the pass keeps is a part of the result. -/
theorem Changed.MembersRun.result_of_part (h : MembersRun member ms ns changes)
    (hkept : ∀ {key x y? own}, (member key x).run = .ok (y?, own) →
      ∃ y, (s.visit pass key x).run = .ok (y, own) ∧ y? = some y)
    (hpart : s.Part (.obj ms) step sub x) :
    ∃ y own, (pass sub x).run = .ok (y, own) ∧ s.Part (.obj ns) step sub y := by
  cases hpart with
  | member hobject hmem hchild =>
    obtain ⟨y?, own, hstep, hstays⟩ := h.result_of_mem hmem
    obtain ⟨y, hvisit, rfl⟩ := hkept hstep
    rw [Shape.visit_of_child hchild] at hvisit
    exact ⟨y, own, hvisit, .member hobject (hstays y rfl) hchild⟩

theorem Changed.ItemsRun.result_of_part {inner : Shape} (h : ItemsRun (pass inner) 0 xs ys changes)
    (found : s.items = some inner) (hpart : s.Part (.arr xs) step sub x) :
    ∃ y own, (pass sub x).run = .ok (y, own) ∧ s.Part (.arr ys) step sub y := by
  cases hpart with
  | item hget hfound =>
    rw [found] at hfound
    cases hfound
    obtain ⟨y, own, hrun, hy⟩ := h.result_of_get hget
    exact ⟨y, own, hrun, .item hy found⟩

theorem Shape.PartsRun.result_of_part (h : s.PartsRun member pass v w changes)
    (hkept : ∀ {key x y? own}, (member key x).run = .ok (y?, own) →
      ∃ y, (s.visit pass key x).run = .ok (y, own) ∧ y? = some y) (hpart : s.Part v step sub x) :
    ∃ y own, (pass sub x).run = .ok (y, own) ∧ s.Part w step sub y := by
  cases h with
  | members hobject hrun => exact hrun.result_of_part hkept hpart
  | items hfound hrun => exact hrun.result_of_part hfound hpart
  | whole hmember hitem => exact absurd hpart (not_part_of_whole hmember hitem)

/-! ### Changes -/

theorem Changed.MembersRun.part_of_change (h : MembersRun member ms ns changes)
    (object : s.isObject = true)
    (hvisits : ∀ {key x y? own}, (member key x).run = .ok (y?, own) →
      ∃ y, (s.visit pass key x).run = .ok (y, own)) (hc : c ∈ changes) :
    ∃ step sub x y own inner, s.Part (.obj ms) step sub x ∧ (pass sub x).run = .ok (y, own) ∧
      inner ∈ own ∧ c = inner.under step := by
  obtain ⟨key, x, y?, own, inner, hx, hstep, hinner, rfl⟩ := h.member_of_change hc
  obtain ⟨y, hvisit⟩ := hvisits hstep
  rcases Shape.visit_run.mp hvisit with ⟨-, -, rfl⟩ | ⟨sub, hsub, hrun⟩
  · -- a member under no shape is not changed
    cases hinner
  · exact ⟨.key key, sub, x, y, own, inner, .member object hx hsub, hrun, hinner, rfl⟩

theorem Changed.ItemsRun.part_of_change (h : ItemsRun (pass sub) 0 xs ys changes)
    (found : s.items = some sub) (hc : c ∈ changes) :
    ∃ step sub x y own inner, s.Part (.arr xs) step sub x ∧ (pass sub x).run = .ok (y, own) ∧
      inner ∈ own ∧ c = inner.under step := by
  obtain ⟨j, x, y, own, inner, hx, hrun, hinner, rfl⟩ := h.item_of_change hc
  rw [Nat.zero_add]
  exact ⟨.index j, sub, x, y, own, inner, .item hx found, hrun, hinner, rfl⟩

theorem Shape.PartsRun.part_of_change (h : s.PartsRun member pass v w changes)
    (hvisits : ∀ {key x y? own}, (member key x).run = .ok (y?, own) →
      ∃ y, (s.visit pass key x).run = .ok (y, own)) (hc : c ∈ changes) :
    ∃ step sub x y own inner, s.Part v step sub x ∧ (pass sub x).run = .ok (y, own) ∧
      inner ∈ own ∧ c = inner.under step := by
  cases h with
  | members hobject hrun => exact hrun.part_of_change hobject hvisits hc
  | items hfound hrun => exact hrun.part_of_change hfound hc
  | whole => cases hc

end

end JsonMend
