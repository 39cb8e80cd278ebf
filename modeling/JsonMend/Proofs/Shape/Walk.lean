import JsonMend.Shape
import JsonMend.Proofs.Json.Keys
/-
  Walking down a shape beside a value.

  1. **One step** — where `child` leads: an index goes to the items (`child_index`), a key to the property
     of its name, else to the first pattern it matches, else to the items (`child_key_cases`).
  2. **Several steps** — `descend` one step at a time.
  3. **All shapes inside a shape** — `Everywhere P`, and that walking never leaves it.
  4. **The parts that a repair enters** — `Part` is one step taken in a shape and in a value at once.  A
     property of a shape with a value it governs can be asked of all parts of parts (`Governed`), or only
     of those all of whose containers meet a guard.
  5. **Places** — `Walk` is a way down to a place, beside the value; what is governed holds at its end,
     unless the guard fails on the way (`Governed.of_walk`).
-/
namespace JsonMend

namespace Shape

/-! ## One step -/

theorem isArray_of_items {s sub : Shape} (h : s.items = some sub) : s.isArray = true := by
  rw [isArray, h, Option.isSome_some, Bool.or_true]

/-- What is left to the items goes to them: a shape with items is one for arrays. -/
theorem items_if_isArray (s : Shape) : (if s.isArray then s.items else none) = s.items := by
  cases hitems : s.items with
  | none => split <;> rfl
  | some sub => rw [if_pos (isArray_of_items hitems)]

@[simp] theorem child_index (s : Shape) (i : Nat) : s.child (.index i) = .ok s.items := by
  unfold child
  rw [items_if_isArray]
  cases s.isObject <;> rfl

theorem isObject_of_mem_properties {s : Shape} {e : String × Shape} (h : e ∈ s.properties) :
    s.isObject = true := by
  cases hproperties : s.properties with
  | nil => rw [hproperties] at h; cases h
  | cons p ps => simp [isObject, namesKeys, hproperties]

theorem child_of_property {s sub : Shape} {key : String} (h : s.properties.lookup key = some sub) :
    s.child (.key key) = .ok (some sub) := by
  have hobject : s.isObject = true := isObject_of_mem_properties (mem_keys_of_lookup h)
  unfold child
  rw [hobject]
  simp only [h]

theorem child_key_cases {s sub : Shape} {key : String} (h : s.child (.key key) = .ok (some sub)) :
    s.properties.lookup key = some sub ∨
      (s.properties.lookup key = none ∧ firstMatching key s.patterns = .ok (some sub)) ∨
      (s.items = some sub ∧
        (s.isObject = true → s.properties.lookup key = none ∧
          firstMatching key s.patterns = .ok none)) := by
  unfold child at h
  rw [items_if_isArray] at h
  cases hobject : s.isObject with
  | false =>
    rw [hobject] at h
    refine .inr (.inr ⟨?_, fun h => nomatch h⟩)
    simpa using h
  | true =>
    rw [hobject] at h
    cases hlookup : s.properties.lookup key with
    | some found =>
      simp only [hlookup, Except.ok.injEq, Option.some.injEq] at h
      rw [h]
      exact .inl rfl
    | none =>
      cases hmatch : firstMatching key s.patterns with
      | error fault =>
        simp only [hlookup, hmatch, Except.map] at h
        cases h
      | ok found? =>
        cases found? with
        | some found =>
          simp only [hlookup, hmatch, Except.map, Except.ok.injEq, Option.some.injEq] at h
          rw [h]
          exact .inr (.inl ⟨rfl, rfl⟩)
        | none =>
          -- what is not declared falls through to the items
          simp only [hlookup, hmatch, Except.map, Except.ok.injEq] at h
          exact .inr (.inr ⟨h, fun _ => ⟨rfl, rfl⟩⟩)

/-- A key is undeclared if it is no property's name and matches no pattern. -/
theorem declares_eq_false {s : Shape} {key : String} : s.declares key = .ok false ↔
    s.properties.lookup key = none ∧ firstMatching key s.patterns = .ok none := by
  rw [declares, lookup_eq_none_iff, ← hasKey_eq_false_iff]
  cases hkey : hasKey s.properties key with
  | true =>
    rw [if_pos rfl]
    constructor
    · intro h
      cases h
    · rintro ⟨h, -⟩
      cases h
  | false =>
    rw [if_neg Bool.false_ne_true]
    cases firstMatching key s.patterns with
    | error fault =>
      constructor
      · intro h
        cases h
      · rintro ⟨-, h⟩
        cases h
    | ok found? => cases found? <;> simp [Except.map]

theorem not_contains_of_undeclared {s : Shape} {key : String} (h : s.declares key = .ok false) :
    (s.properties.map Prod.fst).contains key = false := by
  rw [← Bool.not_eq_true, List.contains_iff_mem]
  exact lookup_eq_none_iff.mp (declares_eq_false.mp h).1

theorem child_of_items {s sub : Shape} (h : s.items = some sub) (i : Nat) :
    s.child (.index i) = .ok (some sub) := by
  rw [child_index, h]

theorem mem_of_firstMatching {key : String} {shapes : List (String × Shape)} {sub : Shape}
    (h : firstMatching key shapes = .ok (some sub)) :
    ∃ pattern, (pattern, sub) ∈ shapes ∧ Regex.found pattern key = .ok true := by
  induction shapes with
  | nil => cases h
  | cons head rest ih =>
    obtain ⟨pattern, s⟩ := head
    rw [firstMatching] at h
    split at h
    · cases h
    · rename_i hfound
      cases h
      exact ⟨pattern, List.mem_cons_self, hfound⟩
    · obtain ⟨other, hmem, hfound⟩ := ih h
      exact ⟨other, List.mem_cons_of_mem _ hmem, hfound⟩

/-- A key that matches a pattern is led to the shape of that pattern or of an earlier one. -/
theorem firstMatching_ne_none {key pattern : String} {shapes : List (String × Shape)} {sub : Shape}
    (hmem : (pattern, sub) ∈ shapes) (hfound : Regex.found pattern key = .ok true) :
    firstMatching key shapes ≠ .ok none := by
  induction shapes with
  | nil => cases hmem
  | cons head rest ih =>
    obtain ⟨other, s⟩ := head
    rw [firstMatching]
    rcases List.mem_cons.mp hmem with heq | hmem
    · cases heq
      rw [hfound]
      rintro ⟨⟩
    · split
      · rintro ⟨⟩
      · rintro ⟨⟩
      · exact ih hmem

/-- What holds of a shape whenever it holds of all shapes one step below and of all its properties,
holds of every shape. -/
theorem parts_induction {P : Shape → Prop}
    (parts : ∀ s, (∀ step sub, s.child step = .ok (some sub) → P sub) →
      (∀ e ∈ s.properties, P e.2) → P s) (s : Shape) : P s :=
  parts s (fun _ sub _ => parts_induction parts sub) (fun e _ => parts_induction parts e.2)
termination_by sizeOf s
decreasing_by
  · exact child_lt ‹_›
  · exact property_lt ‹_›

/-! ## Several steps -/

theorem descend_cons_of_child {s sub : Shape} {step : Segment}
    (h : s.child step = .ok (some sub)) (place : Position) :
    descend (some s) (step :: place) = descend (some sub) place := by
  show (s.child step).bind _ = _
  rw [h]
  rfl

/-! ## All shapes inside a shape -/

/-- The shape and all shapes inside it have the property. -/
inductive Everywhere (P : Shape → Prop) : Shape → Prop
  | intro {s} (here : P s) (properties : ∀ e ∈ s.properties, Everywhere P e.2)
      (patterns : ∀ e ∈ s.patterns, Everywhere P e.2)
      (items : ∀ sub, s.items = some sub → Everywhere P sub) : Everywhere P s

namespace Everywhere

variable {P : Shape → Prop} {s sub : Shape}

theorem here (h : s.Everywhere P) : P s := by
  cases h
  assumption

theorem property {name : String} (h : s.Everywhere P) (hmem : (name, sub) ∈ s.properties) :
    sub.Everywhere P := by
  cases h with
  | intro _ hproperties _ _ => exact hproperties _ hmem

theorem child {step : Segment} (h : s.Everywhere P) (hchild : s.child step = .ok (some sub)) :
    sub.Everywhere P := by
  cases h with
  | intro _ hproperties hpatterns hitem =>
    cases step with
    | index i =>
      rw [child_index, Except.ok.injEq] at hchild
      exact hitem _ hchild
    | key key =>
      rcases child_key_cases hchild with hlookup | ⟨-, hmatch⟩ | ⟨hitems, -⟩
      · exact hproperties _ (mem_keys_of_lookup hlookup)
      · obtain ⟨pattern, hmem, -⟩ := mem_of_firstMatching hmatch
        exact hpatterns _ hmem
      · exact hitem _ hitems

theorem imp {Q : Shape → Prop} (h : s.Everywhere P) (weaken : ∀ s, P s → Q s) :
    s.Everywhere Q := by
  induction h with
  | intro hhere _ _ _ hproperties hpatterns hitems =>
    exact .intro (weaken _ hhere) hproperties hpatterns hitems

theorem iff_inside : s.Everywhere P ↔ P s ∧ (∀ e ∈ s.properties, e.2.Everywhere P) ∧
    (∀ e ∈ s.patterns, e.2.Everywhere P) ∧ ∀ sub, s.items = some sub → sub.Everywhere P :=
  ⟨fun | .intro here properties patterns items => ⟨here, properties, patterns, items⟩,
    fun ⟨here, properties, patterns, items⟩ => .intro here properties patterns items⟩

end Everywhere

theorem everywhere_unconstrained {P : Shape → Prop} (h : P unconstrained) :
    unconstrained.Everywhere P :=
  .intro h (fun _ he => nomatch he) (fun _ he => nomatch he) (fun _ he => nomatch he)

/-! ### Deciding it -/

mutual
/-- Whether a shape and all shapes inside it pass a test. -/
def everywhere (test : Shape → Bool) : Shape → Bool
  | ⟨types, properties, items, required, closed, patterns, fallback⟩ =>
    test ⟨types, properties, items, required, closed, patterns, fallback⟩ &&
      (everywhereNamed test properties && (everywhereNamed test patterns && everywhereItem test items))
def everywhereNamed (test : Shape → Bool) : List (String × Shape) → Bool
  | [] => true
  | (_, s) :: rest => everywhere test s && everywhereNamed test rest
def everywhereItem (test : Shape → Bool) : Option Shape → Bool
  | none => true
  | some s => everywhere test s
end

mutual
theorem everywhere_iff {test : Shape → Bool} :
    ∀ {s : Shape}, everywhere test s = true ↔ s.Everywhere (test ·)
  | ⟨types, properties, items, required, closed, patterns, fallback⟩ => by
    rw [everywhere, Everywhere.iff_inside, Bool.and_eq_true, Bool.and_eq_true, Bool.and_eq_true,
      everywhereNamed_iff, everywhereNamed_iff, everywhereItem_iff]
theorem everywhereNamed_iff {test : Shape → Bool} : ∀ {shapes : List (String × Shape)},
    everywhereNamed test shapes = true ↔ ∀ e ∈ shapes, e.2.Everywhere (test ·)
  | [] => ⟨fun _ _ h => absurd h List.not_mem_nil, fun _ => rfl⟩
  | (_, _) :: _ => by
    rw [everywhereNamed, Bool.and_eq_true, everywhere_iff, everywhereNamed_iff,
      List.forall_mem_cons]
theorem everywhereItem_iff {test : Shape → Bool} : ∀ {item : Option Shape},
    everywhereItem test item = true ↔ ∀ sub, item = some sub → sub.Everywhere (test ·)
  | none => ⟨fun _ _ h => (nomatch h), fun _ => rfl⟩
  | some _ => by
    rw [everywhereItem, everywhere_iff]
    exact ⟨fun h _ heq => Option.some.inj heq ▸ h, fun h => h _ rfl⟩
end

instance {P : Shape → Prop} [DecidablePred P] (s : Shape) : Decidable (s.Everywhere P) :=
  decidable_of_iff (everywhere (fun s => decide (P s)) s = true) <| by
    rw [everywhere_iff]
    exact ⟨fun h => h.imp fun _ => of_decide_eq_true, fun h => h.imp fun _ => decide_eq_true⟩

/-! ## The parts that a repair enters -/

/-- A part of a value that a repair enters, with the shape that governs it.  The members of an object are
entered only where the shape is one for objects. -/
inductive Part (s : Shape) : Json → Segment → Shape → Json → Prop
  | member {ms key x sub} (object : s.isObject = true) (mem : (key, x) ∈ ms)
      (child : s.child (.key key) = .ok (some sub)) : Part s (.obj ms) (.key key) sub x
  | item {xs i x sub} (get : xs[i]? = some x) (found : s.items = some sub) :
      Part s (.arr xs) (.index i) sub x

theorem Part.child {s sub : Shape} {v x : Json} {step : Segment} (h : s.Part v step sub x) :
    s.child step = .ok (some sub) := by
  cases h with
  | member hobject hmem hchild => exact hchild
  | item hget hfound => exact child_of_items hfound _

/-- The property holds of a value and the shape that governs it and, where the guard holds too, of all the
parts of the value in the same way. -/
inductive Governed (guard P : Shape → Json → Prop) : Shape → Json → Prop
  | intro {s v} (here : P s v)
      (parts : guard s v → ∀ step sub x, s.Part v step sub x → Governed guard P sub x) :
      Governed guard P s v

/-- The guard that always holds. -/
def Unguarded (_ : Shape) (_ : Json) : Prop := True

namespace Governed

variable {guard P : Shape → Json → Prop} {s sub : Shape} {v x : Json} {step : Segment}

theorem here (h : Governed guard P s v) : P s v := by
  cases h
  assumption

theorem part (h : Governed guard P s v) (hguard : guard s v) (hpart : s.Part v step sub x) :
    Governed guard P sub x := by
  cases h with
  | intro _ hparts => exact hparts hguard _ _ _ hpart

theorem imp {guard' Q : Shape → Json → Prop} (h : Governed guard P s v)
    (strengthen : ∀ s v, guard' s v → guard s v) (weaken : ∀ s v, P s v → Q s v) :
    Governed guard' Q s v := by
  induction h with
  | intro hhere _ ih =>
    exact .intro (weaken _ _ hhere) fun hguard => ih (strengthen _ _ hguard)

/-- Where nothing is entered, only the value itself counts. -/
theorem of_no_part (h : P s v) (hnone : ∀ step sub x, ¬ s.Part v step sub x) :
    Governed guard P s v :=
  .intro h fun _ step sub x hpart => absurd hpart (hnone step sub x)

end Governed

theorem not_part_of_flat {s sub : Shape} {v x : Json} {step : Segment} (hobj : ∀ ms, v ≠ .obj ms)
    (harr : ∀ xs, v ≠ .arr xs) : ¬ s.Part v step sub x := by
  rintro (⟨-, -, -⟩ | ⟨-, -⟩)
  · exact hobj _ rfl
  · exact harr _ rfl

/-! ## Places -/

/-- The way down to a place in a value, with the shapes that govern what is met on it. -/
inductive Walk : Shape → Json → Position → Shape → Json → Prop
  | here {s v} : Walk s v [] s v
  | down {s v step sub x place g y} (stands : v.step? step = some x) (part : s.Part v step sub x)
      (rest : Walk sub x place g y) : Walk s v (step :: place) g y

namespace Walk

variable {s g : Shape} {v x : Json} {place : Position}

theorem at? (h : Walk s v place g x) : v.at? place = some x := by
  induction h with
  | here => rfl
  | down stands part rest ih => rw [Json.at?_cons, stands, Option.bind_some, ih]

/-- The shape at the end of the way is found by walking down the shape alone. -/
theorem descend (h : Walk s v place g x) : Shape.descend (some s) place = .ok (some g) := by
  induction h with
  | here => rfl
  | down stands part rest ih => rw [descend_cons_of_child part.child, ih]

/-- A place has one value and one shape. -/
theorem unique {g' : Shape} {x' : Json} (h : Walk s v place g x) (h' : Walk s v place g' x') :
    g = g' ∧ x = x' := by
  constructor
  · have hshape := h.descend.symm.trans h'.descend
    exact Option.some.inj (Except.ok.inj hshape)
  · have hvalue := h.at?.symm.trans h'.at?
    exact Option.some.inj hvalue

end Walk

/-- Walking never leaves a shape. -/
theorem Everywhere.walk {P : Shape → Prop} {s g : Shape} {v x : Json} {place : Position}
    (h : s.Everywhere P) (hwalk : Walk s v place g x) : g.Everywhere P := by
  induction hwalk with
  | here => exact h
  | down stands part rest ih => exact ih (h.child part.child)

/-- What is governed holds at a place, unless the guard fails above it. -/
theorem Governed.of_walk {guard P : Shape → Json → Prop} {s g : Shape} {v x : Json}
    {place : Position} (h : Governed guard P s v) (hwalk : Walk s v place g x) :
    P g x ∨ ∃ above step below g' x', place = above ++ step :: below ∧
      Walk s v above g' x' ∧ ¬ guard g' x' := by
  induction hwalk with
  | here => exact .inl h.here
  | @down s v step sub x place g y stands part rest ih =>
    by_cases hguard : guard s v
    · rcases ih (h.part hguard part) with hend | ⟨above, step', below, g', x', rfl, hwalk, hfails⟩
      · exact .inl hend
      · exact .inr ⟨step :: above, step', below, g', x', rfl, .down stands part hwalk, hfails⟩
    · -- what is below a value that fails the guard is not governed any more
      exact .inr ⟨[], step, place, s, v, rfl, .here, hguard⟩

theorem Governed.of_walk_unguarded {P : Shape → Json → Prop} {s g : Shape} {v x : Json}
    {place : Position} (h : Governed Unguarded P s v) (hwalk : Walk s v place g x) : P g x := by
  rcases h.of_walk hwalk with hend | ⟨_, _, _, _, _, -, -, hfails⟩
  · exact hend
  · exact absurd trivial hfails

end Shape

end JsonMend
