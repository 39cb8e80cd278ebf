import JsonMend.Proofs.Json.Akin
import JsonMend.Proofs.Json.Shuffled
import JsonMend.Proofs.Shape.Schema
/-
  The shapes of two schemas that are equal up to the order of members.

  Such shapes are peers.  A repair asks a shape for its types, its required names, whether it is closed, and
  its default; for the shape under a name and that of all items; and for its properties one after another.  The
  answers of peers agree (`Peers.view`): the lists of names are the same, the defaults are reordered, the shapes
  below are peers again, and the properties are the same up to their order.  Patterns are asked in order, so
  peers lead down alike only where there are none (`Peers.child`).
-/
namespace JsonMend

namespace Shape

open Json

variable {s t : Shape} {ms ns : Members} {x y : Option Json} {key : String}

/-- Shapes of schemas that are equal up to the order of members. -/
def Peers (s t : Shape) : Prop := ∃ a b : Json, a.Akin b ∧ s = ofSchema a ∧ t = ofSchema b

/-- Named shapes of one name that are peers. -/
def PeersNamed (p q : String × Shape) : Prop := p.1 = q.1 ∧ Peers p.2 q.2

/-- What a repair asks of peers. -/
structure Peers.View (s t : Shape) : Prop where
  types : s.types = t.types
  required : s.required = t.required
  closed : s.closed = t.closed
  fallback : Option.Rel Reordered s.fallback t.fallback
  properties : Shuffled PeersNamed s.properties t.properties
  patterns : Shuffled PeersNamed s.patterns t.patterns
  lookup : ∀ name, Option.Rel Peers (s.properties.lookup name) (t.properties.lookup name)
  items : Option.Rel Peers s.items t.items

/-! ## Reading akin schemas -/

theorem stringsIn_congr (h : Option.Rel Akin x y) : stringsIn x = stringsIn y := by
  cases h with
  | none => rfl
  | some hakin =>
    cases hakin.view with
    | flat => rfl
    | obj => rfl
    | arr hitems =>
      clear hakin
      rw [stringsIn, stringsIn]
      induction hitems with
      | nil => rfl
      | cons hfirst _ ih =>
        rw [List.filterMap_cons, List.filterMap_cons, ih]
        cases hfirst.view <;> rfl

theorem typesIn_congr (h : Option.Rel Akin x y) : typesIn x = typesIn y := by
  cases h with
  | none => rfl
  | some hakin =>
    have hstrings := stringsIn_congr (.some hakin)
    cases hakin.view with
    | flat => rfl
    | arr | obj => exact hstrings

/-- Shapes are read from two akin objects, or from neither value. -/
theorem shapesOf_cases {v w : Json} (h : v.Akin w) : (shapesOf v = [] ∧ shapesOf w = []) ∨
    ∃ ps qs, v = .obj ps ∧ w = .obj qs ∧
      Shuffled (fun p q => p.1 = q.1 ∧ Akin p.2 q.2) ps qs := by
  cases h.view with
  | flat _ hobj =>
    left
    cases v with
    | obj ps => exact absurd rfl (hobj ps)
    | null | bool | num | str | arr => exact ⟨rfl, rfl⟩
  | arr => exact .inl ⟨rfl, rfl⟩
  | obj hmembers horder => exact .inr ⟨_, _, rfl, rfl, _, hmembers, horder⟩

theorem shapesUnder_shuffled (h : Option.Rel Akin (ms.lookup key) (ns.lookup key)) :
    Shuffled PeersNamed (shapesUnder key ms) (shapesUnder key ns) := by
  rw [shapesUnder_eq, shapesUnder_eq]
  generalize ms.lookup key = x?, ns.lookup key = y? at h
  cases h with
  | none => exact .nil
  | @some v w hakin =>
    show Shuffled PeersNamed (shapesOf v) (shapesOf w)
    rcases shapesOf_cases hakin with ⟨hv, hw⟩ | ⟨ps, qs, rfl, rfl, hmembers⟩
    · rw [hv, hw]
      exact .nil
    · rw [shapesOf_obj, shapesOf_obj]
      refine hmembers.map ?_
      rintro ⟨name, a⟩ ⟨name', b⟩ ⟨hname, hab⟩
      exact ⟨hname, a, b, hab, rfl, rfl⟩

theorem lookup_shapesOf (ps : Members) (name : String) :
    (shapesOf (.obj ps)).lookup name = (ps.lookup name).map ofSchema := by
  rw [shapesOf_obj]
  induction ps with
  | nil => rfl
  | cons p ps ih =>
    obtain ⟨k, a⟩ := p
    rw [List.map_cons, lookup_cons_if, lookup_cons_if, ih]
    split <;> rfl

theorem shapesUnder_lookup (h : Option.Rel Akin (ms.lookup key) (ns.lookup key)) (name : String) :
    Option.Rel Peers ((shapesUnder key ms).lookup name) ((shapesUnder key ns).lookup name) := by
  rw [shapesUnder_eq, shapesUnder_eq]
  generalize ms.lookup key = x?, ns.lookup key = y? at h
  cases h with
  | none => exact .none
  | @some v w hakin =>
    show Option.Rel Peers ((shapesOf v).lookup name) ((shapesOf w).lookup name)
    rcases shapesOf_cases hakin with ⟨hv, hw⟩ | ⟨ps, qs, rfl, rfl, -⟩
    · rw [hv, hw]
      exact .none
    · rw [lookup_shapesOf, lookup_shapesOf]
      have hrel := hakin.lookup name
      generalize ps.lookup name = x?, qs.lookup name = y? at hrel
      cases hrel with
      | none => exact .none
      | some hab => exact .some ⟨_, _, hab, rfl, rfl⟩

theorem shapeOfItems_peers (h : Option.Rel Akin (ms.lookup "items") (ns.lookup "items")) :
    Option.Rel Peers (shapeOfItems ms) (shapeOfItems ns) := by
  rw [shapeOfItems_eq, shapeOfItems_eq]
  generalize ms.lookup "items" = x?, ns.lookup "items" = y? at h
  cases h with
  | none => exact .none
  | @some x y hakin =>
    have hobj : x.isObj = y.isObj := by cases hakin.view <;> rfl
    simp only [Option.bind_some, hobj]
    split
    · exact .some ⟨x, y, hakin, rfl, rfl⟩
    · exact .none

namespace Peers

theorem symm (h : Peers s t) : Peers t s := by
  obtain ⟨a, b, hakin, hs, ht⟩ := h
  exact ⟨b, a, hakin.symm, ht, hs⟩

theorem unconstrained_view : View unconstrained unconstrained :=
  ⟨rfl, rfl, rfl, .none, .nil, .nil, fun _ => .none, .none⟩

/-- **Peers answer alike.** -/
theorem view (h : Peers s t) : View s t := by
  obtain ⟨a, b, hakin, rfl, rfl⟩ := h
  cases hakin.view with
  | flat _ hobj =>
    have hflat : a.isObj = false := by
      cases a with
      | obj ms => exact absurd rfl (hobj ms)
      | null | bool | num | str | arr => rfl
    rw [ofSchema_of_not_obj hflat]
    exact unconstrained_view
  | arr =>
    rw [ofSchema_of_not_obj rfl, ofSchema_of_not_obj rfl]
    exact unconstrained_view
  | @obj ms _ ns _ _ hlookup =>
    rw [ofSchema, ofSchema]
    exact {
      types := typesIn_congr (hlookup _)
      required := stringsIn_congr (hlookup _)
      closed := by
        have hrel := hlookup "additionalProperties"
        generalize ms.lookup "additionalProperties" = x?, ns.lookup "additionalProperties" = y? at hrel
        cases hrel with
        | none => rfl
        | some hakin => cases hakin.view <;> rfl
      fallback := by
        have hrel := hlookup "default"
        generalize ms.lookup "default" = x?, ns.lookup "default" = y? at hrel
        cases hrel with
        | none => exact .none
        | some hakin => exact .some hakin.reordered
      properties := shapesUnder_shuffled (hlookup _)
      patterns := shapesUnder_shuffled (hlookup _)
      lookup := shapesUnder_lookup (hlookup _)
      items := shapeOfItems_peers (hlookup _) }

/-! ## What a repair asks -/

theorem namesKeys_eq (h : Peers s t) : s.namesKeys = t.namesKeys := by
  rw [namesKeys, namesKeys, h.view.properties.isEmpty_eq, h.view.patterns.isEmpty_eq]

theorem isObject_eq (h : Peers s t) : s.isObject = t.isObject := by
  rw [isObject, isObject, h.view.types, h.namesKeys_eq]

theorem isArray_eq (h : Peers s t) : s.isArray = t.isArray := by
  have hitems := h.view.items
  rw [isArray, isArray, h.view.types]
  generalize s.items = x?, t.items = y? at hitems
  cases hitems <;> rfl

theorem noPattern (h : Peers s t) (hs : s.patterns = []) : t.patterns = [] := by
  have hempty := h.view.patterns.isEmpty_eq
  rw [hs] at hempty
  exact List.isEmpty_iff.mp hempty.symm

theorem everywhere_noPattern (h : Peers s t) (hs : s.Everywhere (·.patterns = [])) :
    t.Everywhere (·.patterns = []) := by
  induction hs generalizing t with
  | @intro s here _ _ _ hproperties _ hitems =>
    refine .intro (h.noPattern here) (fun q hq => ?_) (fun q hq => ?_) (fun sub hsub => ?_)
    · obtain ⟨p, hp, -, hpeers⟩ := h.view.properties.mem_right hq
      exact hproperties p hp hpeers
    · rw [h.noPattern here] at hq
      cases hq
    · have hrel := h.view.items
      rw [hsub] at hrel
      generalize hsub' : s.items = x? at hrel
      cases hrel with
      | some hpeers => exact hitems _ hsub' hpeers

/-- **Where there are no patterns, peers lead down alike.** -/
theorem child (h : Peers s t) (hs : s.patterns = []) (step : Segment) :
    ∃ sub? sub?', s.child step = .ok sub? ∧ t.child step = .ok sub?' ∧ Option.Rel Peers sub? sub?' := by
  have ht := h.noPattern hs
  cases step with
  | index i => exact ⟨_, _, child_index s i, child_index t i, h.view.items⟩
  | key name =>
    have hlookup := h.view.lookup name
    unfold Shape.child
    rw [items_if_isArray, items_if_isArray, h.isObject_eq, hs, ht]
    dsimp only
    cases t.isObject with
    | false => exact ⟨_, _, rfl, rfl, h.view.items⟩
    | true =>
      dsimp only
      generalize s.properties.lookup name = x?, t.properties.lookup name = y? at hlookup
      cases hlookup with
      | none => exact ⟨_, _, rfl, rfl, h.view.items⟩
      | some hpeers => exact ⟨_, _, rfl, rfl, .some hpeers⟩

end Peers

end Shape

end JsonMend
