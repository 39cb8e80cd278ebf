import JsonMend.Change
/-
  What a run of the visitors of items and members has done.

  The passes of a repair are written in a monad that collects changes and may fail.  This file takes apart
  the monad and the visitors once, so that no later proof opens their bodies.

  1. **The monad** — a bind that returns, returned in both parts, and its changes are theirs in turn
     (`run_bind_eq_ok`).
  2. **The visitors** — `ItemsRun` and `MembersRun` say what `Changed.items` and `Changed.members` did,
     part by part.
  3. **One part** — each item and each member that is there afterwards, and each change, comes from one part
     (`recorded_of_get`, `recorded_of_mem`, `item_of_change`, `member_of_change`).
-/
namespace JsonMend

namespace Changed

/-! ## The monad -/

theorem run_bind_eq_ok {α β : Type} {x : Changed α} {f : α → Changed β} {b : β}
    {changes : List Change} :
    (x >>= f).run = .ok (b, changes) ↔
      ∃ a earlier later, x.run = .ok (a, earlier) ∧ (f a).run = .ok (b, later) ∧
        changes = earlier ++ later := by
  rw [run_bind]
  cases x.run with
  | error fault => simp [Except.bind]
  | ok result =>
    obtain ⟨a, earlier⟩ := result
    cases hf : (f a).run with
    | error fault =>
      constructor
      · intro h
        simp [Except.bind, hf, Except.map] at h
      · rintro ⟨a', earlier', later, hx, hb, -⟩
        cases hx
        rw [hf] at hb
        cases hb
    | ok result =>
      obtain ⟨b', later⟩ := result
      constructor
      · intro h
        simp only [Except.bind, hf, Except.map, Except.ok.injEq, Prod.mk.injEq] at h
        obtain ⟨rfl, rfl⟩ := h
        exact ⟨a, earlier, later, rfl, hf, rfl⟩
      · rintro ⟨a', earlier', later', hx, hb, rfl⟩
        cases hx
        rw [hf] at hb
        cases hb
        simp [Except.bind, hf, Except.map]

theorem run_eq_ok_of_toOption {α : Type} {x : Changed α} {result : α × List Change}
    (h : x.run.toOption = some result) : x.run = .ok result := by
  cases hx : x.run with
  | error fault => rw [hx] at h; cases h
  | ok other => rw [hx] at h; cases h; rfl

theorem run_pure_eq_ok {α : Type} {a b : α} {changes : List Change} :
    (pure a : Changed α).run = .ok (b, changes) ↔ b = a ∧ changes = [] := by
  rw [run_pure]
  constructor
  · intro h
    cases h
    exact ⟨rfl, rfl⟩
  · rintro ⟨rfl, rfl⟩
    rfl

/-- A result that is only reshaped keeps its changes. -/
theorem run_bind_pure_eq_ok {α β : Type} {x : Changed α} {g : α → β} {b : β}
    {changes : List Change} :
    (x >>= fun a => pure (g a)).run = .ok (b, changes) ↔
      ∃ a, x.run = .ok (a, changes) ∧ b = g a := by
  rw [run_bind_eq_ok]
  constructor
  · rintro ⟨a, earlier, later, hx, hb, rfl⟩
    obtain ⟨rfl, rfl⟩ := run_pure_eq_ok.mp hb
    exact ⟨a, by rw [List.append_nil]; exact hx, rfl⟩
  · rintro ⟨a, hx, rfl⟩
    exact ⟨a, changes, [], hx, rfl, (List.append_nil _).symm⟩

theorem run_ofExcept_eq_ok {α : Type} {x : Except Fault α} {a : α} {changes : List Change} :
    (ofExcept x).run = .ok (a, changes) ↔ x = .ok a ∧ changes = [] := by
  cases x with
  | error fault => simp [ofExcept, run]
  | ok b => simp [ofExcept, run, eq_comm]

theorem run_record_bind_eq_ok {β : Type} {edit : Edit} {reason : String} {f : Unit → Changed β}
    {b : β} {changes : List Change} :
    (record edit reason >>= f).run = .ok (b, changes) ↔
      ∃ later, (f ()).run = .ok (b, later) ∧ changes = .here edit reason :: later := by
  rw [run_bind_eq_ok]
  constructor
  · rintro ⟨a, earlier, later, hx, hb, rfl⟩
    cases hx
    exact ⟨later, hb, rfl⟩
  · rintro ⟨later, hb, rfl⟩
    exact ⟨(), [.here edit reason], later, rfl, hb, rfl⟩

theorem run_under_eq_ok {α : Type} {step : Segment} {x : Changed α} {a : α}
    {changes : List Change} :
    (under step x).run = .ok (a, changes) ↔
      ∃ inner, x.run = .ok (a, inner) ∧ changes = inner.map (·.under step) := by
  show under step x = .ok (a, changes) ↔ ∃ inner, x = .ok (a, inner) ∧ _
  cases x with
  | error fault => simp [under]
  | ok result =>
    obtain ⟨a', inner⟩ := result
    constructor
    · intro h
      cases h
      exact ⟨inner, rfl, rfl⟩
    · rintro ⟨inner', hx, rfl⟩
      cases hx
      rfl

/-! ## The visitors -/

/-- What a step made of the items of an array, the first of which has the given index. -/
inductive ItemsRun (step : Json → Changed Json) : Nat → List Json → List Json → List Change → Prop
  | nil {i} : ItemsRun step i [] [] []
  | cons {i x y xs ys own later} (head : (step x).run = .ok (y, own))
      (tail : ItemsRun step (i + 1) xs ys later) :
      ItemsRun step i (x :: xs) (y :: ys) (own.map (·.under (.index i)) ++ later)

theorem items_run {step : Json → Changed Json} {i : Nat} {xs ys : List Json}
    {changes : List Change} :
    (items step i xs).run = .ok (ys, changes) ↔ ItemsRun step i xs ys changes := by
  induction xs generalizing i ys changes with
  | nil =>
    rw [items, run_pure_eq_ok]
    constructor
    · rintro ⟨rfl, rfl⟩
      exact .nil
    · rintro ⟨⟩
      exact ⟨rfl, rfl⟩
  | cons x xs ih =>
    rw [items, run_bind_eq_ok]
    constructor
    · rintro ⟨y, own, later, hunder, hrest, rfl⟩
      obtain ⟨inner, hx, rfl⟩ := run_under_eq_ok.mp hunder
      obtain ⟨ys, hxs, rfl⟩ := run_bind_pure_eq_ok.mp hrest
      exact .cons hx (ih.mp hxs)
    · rintro ⟨⟩
      rename_i y ys own later head tail
      exact ⟨y, _, later, run_under_eq_ok.mpr ⟨own, head, rfl⟩,
        run_bind_pure_eq_ok.mpr ⟨ys, ih.mpr tail, rfl⟩, rfl⟩

/-- What a step made of the members of an object; a member may be kept or dropped. -/
inductive MembersRun (step : String → Json → Changed (Option Json)) :
    Members → Members → List Change → Prop
  | nil : MembersRun step [] [] []
  | kept {key x y ms ns own later} (head : (step key x).run = .ok (some y, own))
      (tail : MembersRun step ms ns later) :
      MembersRun step ((key, x) :: ms) ((key, y) :: ns) (own.map (·.under (.key key)) ++ later)
  | dropped {key x ms ns own later} (head : (step key x).run = .ok (none, own))
      (tail : MembersRun step ms ns later) :
      MembersRun step ((key, x) :: ms) ns (own.map (·.under (.key key)) ++ later)

theorem members_run {step : String → Json → Changed (Option Json)} {ms ns : Members}
    {changes : List Change} :
    (members step ms).run = .ok (ns, changes) ↔ MembersRun step ms ns changes := by
  induction ms generalizing ns changes with
  | nil =>
    rw [members, run_pure_eq_ok]
    constructor
    · rintro ⟨rfl, rfl⟩
      exact .nil
    · rintro ⟨⟩
      exact ⟨rfl, rfl⟩
  | cons m ms ih =>
    obtain ⟨key, x⟩ := m
    rw [members, run_bind_eq_ok]
    constructor
    · rintro ⟨kept?, own, later, hunder, hrest, rfl⟩
      obtain ⟨inner, hx, rfl⟩ := run_under_eq_ok.mp hunder
      cases kept? with
      | none =>
        obtain ⟨rest, hms, rfl⟩ := run_bind_pure_eq_ok.mp hrest
        exact .dropped hx (ih.mp hms)
      | some y =>
        obtain ⟨rest, hms, rfl⟩ := run_bind_pure_eq_ok.mp hrest
        exact .kept hx (ih.mp hms)
    · rintro ⟨⟩
      · rename_i y rest own later head tail
        exact ⟨some y, _, later, run_under_eq_ok.mpr ⟨own, head, rfl⟩,
          run_bind_pure_eq_ok.mpr ⟨rest, ih.mpr tail, rfl⟩, rfl⟩
      · rename_i own later head tail
        exact ⟨none, _, later, run_under_eq_ok.mpr ⟨own, head, rfl⟩,
          run_bind_pure_eq_ok.mpr ⟨ns, ih.mpr tail, rfl⟩, rfl⟩

/-! ### What came of one part

Each item and each member that is there afterwards, and each change, comes from one part: these lemmas
find it, so that later proofs need no induction over the parts. -/

namespace ItemsRun

variable {step : Json → Changed Json} {i : Nat} {xs ys : List Json} {changes : List Change}

/-- An item that is there afterwards, with the changes that made it, all of which are recorded. -/
theorem recorded_of_get (h : ItemsRun step i xs ys changes) {j : Nat} {y : Json}
    (hget : ys[j]? = some y) : ∃ x own, xs[j]? = some x ∧ (step x).run = .ok (y, own) ∧
      ∀ c ∈ own, c.under (.index (i + j)) ∈ changes := by
  induction h generalizing j with
  | nil => cases hget
  | @cons i x y _ _ own _ head tail ih =>
    cases j with
    | zero =>
      cases hget
      exact ⟨_, _, rfl, head, fun c hc => List.mem_append_left _ (List.mem_map_of_mem hc)⟩
    | succ j =>
      obtain ⟨x', own', hx, hrun, hrecorded⟩ := ih hget
      refine ⟨x', own', hx, hrun, fun c hc => List.mem_append_right _ ?_⟩
      rw [Nat.add_right_comm, Nat.add_assoc] at hrecorded
      exact hrecorded c hc

theorem length_eq (h : ItemsRun step i xs ys changes) : ys.length = xs.length := by
  induction h with
  | nil => rfl
  | cons head tail ih => rw [List.length_cons, List.length_cons, ih]

theorem item_of_get (h : ItemsRun step i xs ys changes) {j : Nat} {y : Json} (hget : ys[j]? = some y) :
    ∃ x own, xs[j]? = some x ∧ (step x).run = .ok (y, own) := by
  obtain ⟨x, own, hx, hrun, -⟩ := h.recorded_of_get hget
  exact ⟨x, own, hx, hrun⟩

theorem item_of_mem (h : ItemsRun step i xs ys changes) {y : Json} (hmem : y ∈ ys) :
    ∃ x ∈ xs, ∃ own, (step x).run = .ok (y, own) := by
  obtain ⟨j, hget⟩ := List.mem_iff_getElem?.mp hmem
  obtain ⟨x, own, hx, hrun⟩ := h.item_of_get hget
  exact ⟨x, List.mem_iff_getElem?.mpr ⟨j, hx⟩, own, hrun⟩

/-- What an item became. -/
theorem result_of_get (h : ItemsRun step i xs ys changes) {j : Nat} {x : Json} (hget : xs[j]? = some x) :
    ∃ y own, (step x).run = .ok (y, own) ∧ ys[j]? = some y := by
  induction h generalizing j with
  | nil => cases hget
  | @cons i x y _ _ own _ head tail ih =>
    cases j with
    | zero =>
      cases hget
      exact ⟨y, own, head, rfl⟩
    | succ j => exact ih hget

theorem item_of_change (h : ItemsRun step i xs ys changes) {c : Change} (hmem : c ∈ changes) :
    ∃ j x y own inner, xs[j]? = some x ∧ (step x).run = .ok (y, own) ∧ inner ∈ own ∧
      c = inner.under (.index (i + j)) := by
  induction h with
  | nil => cases hmem
  | @cons i x y _ _ own _ head tail ih =>
    rcases List.mem_append.mp hmem with hhead | htail
    · obtain ⟨inner, hinner, rfl⟩ := List.mem_map.mp hhead
      exact ⟨0, x, y, own, inner, rfl, head, hinner, rfl⟩
    · obtain ⟨j, x', y', own', inner, hx, hrun, hinner, rfl⟩ := ih htail
      refine ⟨j + 1, x', y', own', inner, hx, hrun, hinner, ?_⟩
      -- the tail begins one index further on
      rw [Nat.add_right_comm, Nat.add_assoc]

end ItemsRun

namespace MembersRun

variable {step : String → Json → Changed (Option Json)} {ms ns : Members} {changes : List Change}

/-- A member that is there afterwards, with the changes that made it, all of which are recorded. -/
theorem recorded_of_mem (h : MembersRun step ms ns changes) {key : String} {y : Json}
    (hmem : (key, y) ∈ ns) : ∃ x own, (key, x) ∈ ms ∧ (step key x).run = .ok (some y, own) ∧
      ∀ c ∈ own, c.under (.key key) ∈ changes := by
  induction h with
  | nil => cases hmem
  | kept head tail ih =>
    rcases List.mem_cons.mp hmem with heq | htail
    · cases heq
      exact ⟨_, _, List.mem_cons_self, head,
        fun c hc => List.mem_append_left _ (List.mem_map_of_mem hc)⟩
    · obtain ⟨x, own, hx, hrun, hrecorded⟩ := ih htail
      exact ⟨x, own, List.mem_cons_of_mem _ hx, hrun,
        fun c hc => List.mem_append_right _ (hrecorded c hc)⟩
  | dropped head tail ih =>
    obtain ⟨x, own, hx, hrun, hrecorded⟩ := ih hmem
    exact ⟨x, own, List.mem_cons_of_mem _ hx, hrun,
      fun c hc => List.mem_append_right _ (hrecorded c hc)⟩

theorem member_of_mem (h : MembersRun step ms ns changes) {key : String} {y : Json}
    (hmem : (key, y) ∈ ns) :
    ∃ x own, (key, x) ∈ ms ∧ (step key x).run = .ok (some y, own) := by
  obtain ⟨x, own, hx, hrun, -⟩ := h.recorded_of_mem hmem
  exact ⟨x, own, hx, hrun⟩

/-- What a member became: what the step made of it, which stands among the members if it was kept. -/
theorem result_of_mem (h : MembersRun step ms ns changes) {key : String} {x : Json}
    (hmem : (key, x) ∈ ms) :
    ∃ y? own, (step key x).run = .ok (y?, own) ∧ ∀ y, y? = some y → (key, y) ∈ ns := by
  induction h with
  | nil => cases hmem
  | kept head tail ih =>
    rcases List.mem_cons.mp hmem with heq | htail
    · cases heq
      refine ⟨_, _, head, fun y hy => ?_⟩
      cases hy
      exact List.mem_cons_self
    · obtain ⟨y?, own, hrun, hkept⟩ := ih htail
      exact ⟨y?, own, hrun, fun y hy => List.mem_cons_of_mem _ (hkept y hy)⟩
  | dropped head tail ih =>
    rcases List.mem_cons.mp hmem with heq | htail
    · cases heq
      exact ⟨none, _, head, fun y hy => nomatch hy⟩
    · exact ih htail

theorem member_of_change (h : MembersRun step ms ns changes) {c : Change} (hmem : c ∈ changes) :
    ∃ key x y? own inner, (key, x) ∈ ms ∧ (step key x).run = .ok (y?, own) ∧ inner ∈ own ∧
      c = inner.under (.key key) := by
  induction h with
  | nil => cases hmem
  | @kept key x y _ _ own _ head tail ih =>
    rcases List.mem_append.mp hmem with hhead | htail
    · obtain ⟨inner, hinner, rfl⟩ := List.mem_map.mp hhead
      exact ⟨key, x, some y, own, inner, List.mem_cons_self, head, hinner, rfl⟩
    · obtain ⟨key', x', y?, own', inner, hx, hrun, hinner, rfl⟩ := ih htail
      exact ⟨key', x', y?, own', inner, List.mem_cons_of_mem _ hx, hrun, hinner, rfl⟩
  | @dropped key x _ _ own _ head tail ih =>
    rcases List.mem_append.mp hmem with hhead | htail
    · obtain ⟨inner, hinner, rfl⟩ := List.mem_map.mp hhead
      exact ⟨key, x, none, own, inner, List.mem_cons_self, head, hinner, rfl⟩
    · obtain ⟨key', x', y?, own', inner, hx, hrun, hinner, rfl⟩ := ih htail
      exact ⟨key', x', y?, own', inner, List.mem_cons_of_mem _ hx, hrun, hinner, rfl⟩

theorem keys_sublist (h : MembersRun step ms ns changes) :
    (ns.map Prod.fst).Sublist (ms.map Prod.fst) := by
  induction h with
  | nil => exact .slnil
  | kept head tail ih => exact ih.cons_cons _
  | dropped head tail ih => exact ih.cons _

/-- A step that never drops a member keeps all keys. -/
theorem keys_eq (h : MembersRun step ms ns changes)
    (keeps : ∀ key x y? own, (step key x).run = .ok (y?, own) → y? ≠ none) :
    ns.map Prod.fst = ms.map Prod.fst := by
  induction h with
  | nil => rfl
  | kept head tail ih => rw [List.map_cons, List.map_cons, ih]
  | dropped head tail ih => exact absurd rfl (keeps _ _ _ _ head)

end MembersRun

end Changed

end JsonMend
