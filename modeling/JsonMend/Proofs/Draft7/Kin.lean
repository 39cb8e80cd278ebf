import JsonMend.Draft7.Validator
import JsonMend.Proofs.Json.Akin
/-
  Schemas that say the same in another order.

  1. **Bare** — a schema that has no reference and no patterns, and neither has a schema inside it.  A reference
     leads by way of the whole document, and several patterns are joined to one in their order, so with
     either of them the order of members could matter.
  2. **Kin** — two schemas seen by two validators: one and the same schema, where the validators refer to the
     same documents, or twins without references and patterns.
  3. **Kin keywords** (`Keyword.kin_of_read`) — kin schemas have kin keywords: what the one reads from a member
     the other reads from its own, up to the order of what is listed by key.
-/
namespace JsonMend

open Json

/-! ## Bare schemas -/

/-- The schemas that a member of a schema holds. -/
def heldSchemas (name : String) (value : Json) : List Json :=
  if name = "items" then
    match value with
    | .arr schemas => schemas
    | schema => [schema]
  else if name ∈ schemaKeywords then [value]
  else if name ∈ schemaArrayKeywords then value.items?.getD []
  else if name ∈ ["properties", "patternProperties", "dependencies"] then (value.members?.getD []).map Prod.snd
  else []

/-- A schema without references and patterns, in itself and in all schemas inside it. -/
inductive Bare : Json → Prop
  | flat {schema : Json} (notObject : schema.isObj = false) : Bare schema
  | obj {members : Members} (reference : members.lookup "$ref" = none)
      (patterns : members.lookup "patternProperties" = none)
      (inside : ∀ m ∈ members, ∀ s ∈ heldSchemas m.1 m.2, Bare s) : Bare (.obj members)

variable {members members' : Members} {name : String} {x y s s' : Json}

namespace Bare

theorem reference (h : Bare (.obj members)) : members.lookup "$ref" = none := by
  cases h with
  | flat h => cases h
  | obj href _ _ => exact href

theorem patterns (h : Bare (.obj members)) : members.lookup "patternProperties" = none := by
  cases h with
  | flat h => cases h
  | obj _ hpatterns _ => exact hpatterns

theorem held (h : Bare (.obj members)) (hm : (name, x) ∈ members) (hs : s ∈ heldSchemas name x) :
    Bare s := by
  cases h with
  | flat h => cases h
  | obj _ _ hinside => exact hinside _ hm s hs

end Bare

/-! ### Twins -/

theorem items?_of_twins (h : x.Twins y) : Option.Rel (List.Forall₂ Twins) x.items? y.items? := by
  cases x with
  | arr xs =>
    obtain ⟨ys, rfl, hitems⟩ := h.arr_left
    exact .some hitems
  | obj ms =>
    obtain ⟨ns, _, rfl, _, _⟩ := h.obj_left
    exact .none
  | null | bool | num | str => rw [h.eq_of_flat (by simp) (by simp)]; exact .none

theorem members?_of_twins (h : x.Twins y) :
    Option.Rel (fun ms ns => ∃ mid, Pairs Twins ms mid ∧ mid.Perm ns) x.members? y.members? := by
  cases x with
  | arr xs =>
    obtain ⟨ys, rfl, _⟩ := h.arr_left
    exact .none
  | obj ms =>
    obtain ⟨ns, mid, rfl, hpairs, horder⟩ := h.obj_left
    exact .some ⟨mid, hpairs, horder⟩
  | null | bool | num | str => rw [h.eq_of_flat (by simp) (by simp)]; exact .none

theorem exists_of_forall₂ {α β : Type} {R : α → β → Prop} {as : List α} {bs : List β} {b : β}
    (h : List.Forall₂ R as bs) (hb : b ∈ bs) : ∃ a ∈ as, R a b := by
  induction h with
  | nil => cases hb
  | cons hfirst _ ih =>
    rcases List.mem_cons.mp hb with rfl | hb
    · exact ⟨_, List.mem_cons_self, hfirst⟩
    · obtain ⟨a, ha, hab⟩ := ih hb
      exact ⟨a, List.mem_cons_of_mem _ ha, hab⟩

/-- The schemas that a member's twin holds are twins of the schemas that the member holds. -/
theorem twin_of_held (h : x.Twins y) (hs : s' ∈ heldSchemas name y) :
    ∃ s ∈ heldSchemas name x, s.Twins s' := by
  have hitems := items?_of_twins h
  have hmembers := members?_of_twins h
  unfold heldSchemas at hs ⊢
  by_cases hname : name = "items"
  · rw [if_pos hname] at hs ⊢
    cases x with
    | arr xs =>
      obtain ⟨ys, rfl, hforall⟩ := h.arr_left
      exact exists_of_forall₂ hforall hs
    | obj ms =>
      obtain ⟨ns, _, rfl, _, _⟩ := h.obj_left
      exact ⟨_, List.mem_singleton_self _, List.mem_singleton.mp hs ▸ h⟩
    | null | bool | num | str =>
      have heq := h.eq_of_flat (by simp) (by simp)
      subst heq
      exact ⟨_, List.mem_singleton_self _, List.mem_singleton.mp hs ▸ h⟩
  rw [if_neg hname] at hs ⊢
  by_cases hname : name ∈ schemaKeywords
  · rw [if_pos hname] at hs ⊢
    exact ⟨x, List.mem_singleton_self x, List.mem_singleton.mp hs ▸ h⟩
  rw [if_neg hname] at hs ⊢
  by_cases hname : name ∈ schemaArrayKeywords
  · rw [if_pos hname] at hs ⊢
    generalize x.items? = xs?, y.items? = ys? at hitems hs ⊢
    cases hitems with
    | none => cases hs
    | some hforall => exact exists_of_forall₂ hforall hs
  rw [if_neg hname] at hs ⊢
  by_cases hname : name ∈ ["properties", "patternProperties", "dependencies"]
  · rw [if_pos hname] at hs ⊢
    generalize x.members? = ms?, y.members? = ns? at hmembers hs ⊢
    cases hmembers with
    | none => cases hs
    | some hperm =>
      obtain ⟨mid, hpairs, horder⟩ := hperm
      obtain ⟨n, hn, rfl⟩ := List.mem_map.mp hs
      obtain ⟨m, hm, -, htwins⟩ := exists_of_forall₂ hpairs (horder.mem_iff.mpr hn)
      exact ⟨m.2, List.mem_map_of_mem hm, htwins⟩
  · rw [if_neg hname] at hs
    cases hs

theorem Bare.of_twins (h : Bare s) (htwins : s.Twins s') : Bare s' := by
  induction h generalizing s' with
  | @flat s hflat =>
    refine .flat ?_
    cases s with
    | obj ms => cases hflat
    | arr xs =>
      obtain ⟨ys, rfl, _⟩ := htwins.arr_left
      rfl
    | null | bool | num | str => rw [htwins.eq_of_flat (by simp) (by simp)]; rfl
  | @obj members href hpatterns hinside ih =>
    obtain ⟨ns, mid, rfl, hpairs, horder⟩ := htwins.obj_left
    have absent : ∀ {key}, members.lookup key = none → ns.lookup key = none := by
      intro key hnone
      have hrel := htwins.lookup key
      rw [hnone] at hrel
      generalize ns.lookup key = y? at hrel ⊢
      cases hrel
      rfl
    refine .obj (absent href) (absent hpatterns) fun n hn s' hs => ?_
    obtain ⟨m, hm, hkey, hvalue⟩ := exists_of_forall₂ hpairs (horder.mem_iff.mpr hn)
    rw [← hkey] at hs
    obtain ⟨s, hs, htwin⟩ := twin_of_held hvalue hs
    exact ih m hm s hs htwin

/-! ## Kin -/

section
variable (V V' : Validator) (base base' : String)

/-- Two schemas that say the same, each seen by a validator and under a URI: one schema, where both sides
refer to the same documents, or twins that refer to nothing. -/
inductive Kin : Json → Json → Prop
  | same {s : Json} (registry : V.registry = V'.registry) (uri : base = base') : Kin s s
  | bare {s s' : Json} (twins : s.Twins s') (isBare : Bare s) : Kin s s'

/-- Kin parts of `dependencies`. -/
inductive Dependency.Kin : Dependency → Dependency → Prop
  | properties (names : List String) : Dependency.Kin (.properties names) (.properties names)
  | schema {s s' : Json} (kin : JsonMend.Kin V V' base base' s s') : Dependency.Kin (.schema s) (.schema s')

/-- Kin keywords: they ask for the same, but what is listed by key may stand in another order. -/
inductive Keyword.Kin : Keyword → Keyword → Prop
  | reference (registry : V.registry = V'.registry) (uri : base = base') (target : String) :
      Keyword.Kin (.reference target) (.reference target)
  | type (names : List String) : Keyword.Kin (.type names) (.type names)
  | enum {values values' : List Json} (akin : List.Forall₂ Akin values values') :
      Keyword.Kin (.enum values) (.enum values')
  | const {value value' : Json} (akin : value.Akin value') : Keyword.Kin (.const value) (.const value')
  | bound (side : Bound) (limit : Number) : Keyword.Kin (.bound side limit) (.bound side limit)
  | multipleOf (divisor : Number) : Keyword.Kin (.multipleOf divisor) (.multipleOf divisor)
  | count (side : CountLimit) (what : Countable) (limit : Number) :
      Keyword.Kin (.count side what limit) (.count side what limit)
  | uniqueItems (wanted : Bool) : Keyword.Kin (.uniqueItems wanted) (.uniqueItems wanted)
  | pattern (regex : String) : Keyword.Kin (.pattern regex) (.pattern regex)
  | format (name : String) : Keyword.Kin (.format name) (.format name)
  | required (names : List String) : Keyword.Kin (.required names) (.required names)
  | properties {ps mid qs : Members} (kin : Pairs (JsonMend.Kin V V' base base') ps mid)
      (order : mid.Perm qs) : Keyword.Kin (.properties ps) (.properties qs)
  | patternProperties (registry : V.registry = V'.registry) (uri : base = base') (ps : Members) :
      Keyword.Kin (.patternProperties ps) (.patternProperties ps)
  | propertyNames {s s' : Json} (kin : JsonMend.Kin V V' base base' s s') :
      Keyword.Kin (.propertyNames s) (.propertyNames s')
  | additionalProperties {declared declared' patterns : List String} {s s' : Json}
      (order : declared.Perm declared') (kin : JsonMend.Kin V V' base base' s s') :
      Keyword.Kin (.additionalProperties declared patterns s) (.additionalProperties declared' patterns s')
  | items {s s' : Json} (kin : JsonMend.Kin V V' base base' s s') : Keyword.Kin (.items s) (.items s')
  | itemsInTurn {ss ss' : List Json} (kin : List.Forall₂ (JsonMend.Kin V V' base base') ss ss') :
      Keyword.Kin (.itemsInTurn ss) (.itemsInTurn ss')
  | additionalItems {covered : Option Nat} {s s' : Json} (kin : JsonMend.Kin V V' base base' s s') :
      Keyword.Kin (.additionalItems covered s) (.additionalItems covered s')
  | contains {s s' : Json} (kin : JsonMend.Kin V V' base base' s s') :
      Keyword.Kin (.contains s) (.contains s')
  | dependencies {es mid fs : List (String × Dependency)}
      (kin : List.Forall₂ (fun e f => e.1 = f.1 ∧ Dependency.Kin V V' base base' e.2 f.2) es mid)
      (order : mid.Perm fs) : Keyword.Kin (.dependencies es) (.dependencies fs)
  | allOf {ss ss' : List Json} (kin : List.Forall₂ (JsonMend.Kin V V' base base') ss ss') :
      Keyword.Kin (.allOf ss) (.allOf ss')
  | anyOf {ss ss' : List Json} (kin : List.Forall₂ (JsonMend.Kin V V' base base') ss ss') :
      Keyword.Kin (.anyOf ss) (.anyOf ss')
  | oneOf {ss ss' : List Json} (kin : List.Forall₂ (JsonMend.Kin V V' base base') ss ss') :
      Keyword.Kin (.oneOf ss) (.oneOf ss')
  | forbid {s s' : Json} (kin : JsonMend.Kin V V' base base' s s') : Keyword.Kin (.forbid s) (.forbid s')
  | conditional {test test' : Json} {met met' unmet unmet' : Option Json}
      (kin : JsonMend.Kin V V' base base' test test')
      (kinMet : Option.Rel (JsonMend.Kin V V' base base') met met')
      (kinUnmet : Option.Rel (JsonMend.Kin V V' base base') unmet unmet') :
      Keyword.Kin (.conditional test met unmet) (.conditional test' met' unmet')

end

variable {V V' : Validator} {base base' : String} {k : Keyword}

namespace Kin

theorem symm (h : Kin V V' base base' s s') : Kin V' V base' base s' s := by
  cases h with
  | same hregistry huri => exact .same hregistry.symm huri.symm
  | bare htwins hbare => exact .bare htwins.symm (hbare.of_twins htwins)

theorem akin (h : Kin V V' base base' s s') : s.Akin s' := by
  cases h with
  | same => exact .refl s
  | bare htwins => exact .inr htwins

/-- A schema has the same identifier as a twin of it. -/
theorem inside (h : Kin V V' base base' s s') :
    Kin V V' (baseInside base s) (baseInside base' s') s s' := by
  cases h with
  | same hregistry huri => exact .same hregistry (by rw [huri])
  | bare htwins hbare => exact .bare htwins hbare

/-- Kin schemas are kin seen from the roots. -/
theorem atRoot (h : Kin V V' base base' s s') :
    Kin V V' V.registry.rootUri V'.registry.rootUri s s' := by
  cases h with
  | same hregistry _ => exact .same hregistry (by rw [hregistry])
  | bare htwins hbare => exact .bare htwins hbare

end Kin

/-- A keyword is kin to itself, where both sides refer to the same documents. -/
theorem Keyword.Kin.refl (registry : V.registry = V'.registry) (uri : base = base') (k : Keyword) :
    Keyword.Kin V V' base base' k k := by
  have each : ∀ s, JsonMend.Kin V V' base base' s s := fun s => .same registry uri
  have all : ∀ ss, List.Forall₂ (JsonMend.Kin V V' base base') ss ss :=
    fun ss => List.forall₂_same.mpr fun s _ => each s
  have option : ∀ s?, Option.Rel (JsonMend.Kin V V' base base') s? s? := by
    intro s?
    cases s? with
    | none => exact .none
    | some s => exact .some (each s)
  cases k with
  | reference target => exact .reference registry uri target
  | type names => exact .type names
  | enum values => exact .enum (List.forall₂_same.mpr fun v _ => .refl v)
  | const value => exact .const (.refl value)
  | bound side limit => exact .bound side limit
  | multipleOf divisor => exact .multipleOf divisor
  | count side what limit => exact .count side what limit
  | uniqueItems wanted => exact .uniqueItems wanted
  | pattern regex => exact .pattern regex
  | format name => exact .format name
  | required names => exact .required names
  | properties ps => exact .properties (List.forall₂_same.mpr fun p _ => ⟨rfl, each p.2⟩) (.refl ps)
  | patternProperties ps => exact .patternProperties registry uri ps
  | propertyNames s => exact .propertyNames (each s)
  | additionalProperties declared patterns s => exact .additionalProperties (.refl declared) (each s)
  | items s => exact .items (each s)
  | itemsInTurn ss => exact .itemsInTurn (all ss)
  | additionalItems covered s => exact .additionalItems (each s)
  | contains s => exact .contains (each s)
  | dependencies es =>
    refine .dependencies (List.forall₂_same.mpr fun e _ => ⟨rfl, ?_⟩) (.refl es)
    cases e.2 with
    | properties names => exact .properties names
    | schema s => exact .schema (each s)
  | allOf ss => exact .allOf (all ss)
  | anyOf ss => exact .anyOf (all ss)
  | oneOf ss => exact .oneOf (all ss)
  | forbid s => exact .forbid (each s)
  | conditional test met unmet => exact .conditional (each test) (option met) (option unmet)

/-! ## Kin keywords -/

/-- What is read from flat values only is read alike from twins. -/
theorem read_of_twins {α : Type} (read : Json → Option α) (arr : ∀ xs, read (.arr xs) = none)
    (obj : ∀ ms, read (.obj ms) = none) (h : x.Twins y) : Option.Rel Eq (read x) (read y) := by
  have hakin : x.Akin y := .inr h
  cases hakin.view with
  | flat =>
    cases read x with
    | none => exact .none
    | some a => exact .some rfl
  | arr =>
    rw [arr, arr]
    exact .none
  | obj =>
    rw [obj, obj]
    exact .none

theorem str?_of_twins (h : x.Twins y) : Option.Rel Eq x.str? y.str? :=
  read_of_twins str? (fun _ => rfl) (fun _ => rfl) h

theorem number?_of_twins (h : x.Twins y) : Option.Rel Eq x.number? y.number? :=
  read_of_twins number? (fun _ => rfl) (fun _ => rfl) h

theorem bool?_of_twins (h : x.Twins y) : Option.Rel Eq x.bool? y.bool? :=
  read_of_twins bool? (fun _ => rfl) (fun _ => rfl) h

theorem schema?_of_twins (h : x.Twins y) : Option.Rel Twins x.schema? y.schema? := by
  cases x with
  | arr xs =>
    obtain ⟨ys, rfl, _⟩ := h.arr_left
    exact .none
  | obj ms =>
    obtain ⟨ns, mid, rfl, _, _⟩ := h.obj_left
    exact .some h
  | bool b =>
    have heq := h.eq_of_flat (by simp) (by simp)
    subst heq
    exact .some h
  | null | num | str => rw [h.eq_of_flat (by simp) (by simp)]; exact .none

theorem mapM_str?_of_twins {xs ys : List Json} (h : List.Forall₂ Twins xs ys) :
    xs.mapM str? = ys.mapM str? := by
  induction h with
  | nil => rfl
  | @cons x y xs ys hfirst _ ih =>
    have hrel := str?_of_twins hfirst
    rw [List.mapM_cons, List.mapM_cons, ih]
    generalize x.str? = s?, y.str? = t? at hrel ⊢
    cases hrel with
    | none => rfl
    | some heq => rw [heq]

theorem strings?_of_twins (h : x.Twins y) : Option.Rel Eq x.strings? y.strings? := by
  have hrel := items?_of_twins h
  unfold strings?
  generalize x.items? = xs?, y.items? = ys? at hrel ⊢
  cases hrel with
  | none => exact .none
  | @some xs ys hitems =>
    simp only [Option.bind_some, mapM_str?_of_twins hitems]
    cases ys.mapM str? with
    | none => exact .none
    | some names => exact .some rfl

namespace Keyword

variable {k?' : Option Keyword}

/-- Keywords that are read from related parts are kin. -/
theorem kin_of_map {α : Type} {R : α → α → Prop} {a? b? : Option α} {f : α → Keyword}
    (rel : Option.Rel R a? b?) (kin : ∀ a b, R a b → Kin V V' base base' (f a) (f b))
    (hk : (a?.map fun a => some (f a)) = some (some k)) (hk' : (b?.map fun b => some (f b)) = some k?') :
    ∃ k', k?' = some k' ∧ Kin V V' base base' k k' := by
  cases rel with
  | none => cases hk
  | some hrel =>
    cases hk
    cases hk'
    exact ⟨_, rfl, kin _ _ hrel⟩

theorem kin_of_list {xs ys : List Json} (h : List.Forall₂ Twins xs ys) (bare : ∀ s ∈ xs, Bare s) :
    List.Forall₂ (JsonMend.Kin V V' base base') xs ys := by
  induction h with
  | nil => exact .nil
  | cons hfirst _ ih =>
    rw [List.forall_mem_cons] at bare
    exact .cons (.bare hfirst bare.1) (ih bare.2)

theorem kin_of_items? (h : x.Twins y) (bare : ∀ s ∈ x.items?.getD [], Bare s) :
    Option.Rel (List.Forall₂ (JsonMend.Kin V V' base base')) x.items? y.items? := by
  have hrel := items?_of_twins h
  generalize x.items? = xs?, y.items? = ys? at hrel bare ⊢
  cases hrel with
  | none => exact .none
  | some hitems => exact .some (kin_of_list hitems bare)

theorem kin_of_pairs {ps qs : Members} (h : Pairs Twins ps qs) (bare : ∀ s ∈ ps.map Prod.snd, Bare s) :
    Pairs (JsonMend.Kin V V' base base') ps qs := by
  induction h with
  | nil => exact .nil
  | cons hfirst _ ih =>
    rw [List.map_cons, List.forall_mem_cons] at bare
    exact .cons ⟨hfirst.1, .bare hfirst.2 bare.1⟩ (ih bare.2)

theorem members?_of_pairs (h : x.Twins y) (bare : ∀ s ∈ (x.members?.getD []).map Prod.snd, Bare s) :
    Option.Rel (fun ps qs => ∃ mid, Pairs (JsonMend.Kin V V' base base') ps mid ∧ mid.Perm qs)
      x.members? y.members? := by
  have hrel := members?_of_twins h
  generalize x.members? = ps?, y.members? = qs? at hrel bare ⊢
  cases hrel with
  | none => exact .none
  | some hpairs =>
    obtain ⟨mid, hpairs, horder⟩ := hpairs
    exact .some ⟨mid, kin_of_pairs hpairs bare, horder⟩

/-- The keys that twins list under a key are the same, in some order. -/
theorem keysUnder_of_twins {ms ns : Members} {key : String} {keys keys' : List String}
    (twins : (Json.obj ms).Twins (.obj ns)) (h : keysUnder ms key = some keys)
    (h' : keysUnder ns key = some keys') : keys.Perm keys' := by
  have hrel := twins.lookup key
  unfold keysUnder at h h'
  generalize ms.lookup key = x?, ns.lookup key = y? at hrel h h'
  cases hrel with
  | none =>
    cases h
    cases h'
    exact .refl _
  | @some x y hxy =>
    have hmembers := members?_of_twins hxy
    simp only at h h'
    generalize x.members? = ps?, y.members? = qs? at hmembers h h'
    cases hmembers with
    | none => cases h
    | some hpairs =>
      obtain ⟨mid, hpairs, horder⟩ := hpairs
      cases h
      cases h'
      have hkeys : ∀ {ps mid : Members}, Pairs Twins ps mid → ps.map Prod.fst = mid.map Prod.fst := by
        intro ps mid hpairs
        induction hpairs with
        | nil => rfl
        | cons hfirst _ ih => rw [List.map_cons, List.map_cons, hfirst.1, ih]
      show (List.map Prod.fst _).Perm (List.map Prod.fst _)
      rw [hkeys hpairs]
      exact horder.map _

theorem dependency_of_twins (h : x.Twins y) (bare : Bare x) :
    Option.Rel (Dependency.Kin V V' base base') (Dependency.ofJson? x) (Dependency.ofJson? y) := by
  cases x with
  | arr xs =>
    obtain ⟨ys, rfl, hitems⟩ := h.arr_left
    simp only [Dependency.ofJson?, mapM_str?_of_twins hitems]
    cases ys.mapM str? with
    | none => exact .none
    | some names => exact .some (.properties names)
  | obj ms =>
    obtain ⟨ns, _, rfl, _, _⟩ := h.obj_left
    exact .some (.schema (.bare h bare))
  | null | bool | num | str =>
    have heq := h.eq_of_flat (by simp) (by simp)
    subst heq
    exact .some (.schema (.bare h bare))

/-- `type` is one name or an array of names. -/
theorem kin_type (ms ns : Members) (hxy : x.Twins y) (hk : read? ms "type" x = some (some k))
    (hk' : read? ns "type" y = some k?') : ∃ k', k?' = some k' ∧ Kin V V' base base' k k' := by
  have hnames := strings?_of_twins hxy
  cases x with
  | str s =>
    cases hxy.eq_of_flat (by simp) (by simp)
    cases hk
    cases hk'
    exact ⟨_, rfl, .type [s]⟩
  | arr xs =>
    obtain ⟨ys, rfl, -⟩ := hxy.arr_left
    exact kin_of_map hnames (fun _ _ h => h ▸ .type _) hk hk'
  | null | bool | num | obj => cases hk

/-- `items` is one schema or an array of schemas. -/
theorem kin_items (ms ns : Members) (hxy : x.Twins y) (held : ∀ s ∈ heldSchemas "items" x, Bare s)
    (hk : read? ms "items" x = some (some k)) (hk' : read? ns "items" y = some k?') :
    ∃ k', k?' = some k' ∧ Kin V V' base base' k k' := by
  cases x with
  | arr xs =>
    obtain ⟨ys, rfl, hitems⟩ := hxy.arr_left
    cases hk
    cases hk'
    exact ⟨_, rfl, .itemsInTurn (kin_of_list hitems held)⟩
  | obj ps =>
    obtain ⟨qs, _, rfl, -, -⟩ := hxy.obj_left
    cases hk
    cases hk'
    exact ⟨_, rfl, .items (.bare hxy (held _ (List.mem_singleton_self _)))⟩
  | null | bool | num | str =>
    cases hxy.eq_of_flat (by simp) (by simp)
    cases hk
    cases hk'
    exact ⟨_, rfl, .items (.bare hxy (held _ (List.mem_singleton_self _)))⟩

/-- `additionalItems` goes by what `items` is beside it. -/
theorem kin_additionalItems {ms ns : Members} (twins : (Json.obj ms).Twins (.obj ns)) (hxy : x.Twins y)
    (bare : Bare x) (hk : additionalItems? ms x = some (some k)) (hk' : additionalItems? ns y = some k?') :
    ∃ k', k?' = some k' ∧ Kin V V' base base' k k' := by
  have hschema : Option.Rel (JsonMend.Kin V V' base base') x.schema? y.schema? := by
    have hrel := schema?_of_twins hxy
    have hself : ∀ s, x.schema? = some s → x = s := fun _ => eq_of_schema?
    generalize x.schema? = s?, y.schema? = t? at hrel hself ⊢
    cases hrel with
    | none => exact .none
    | some htwins => exact .some (.bare htwins (hself _ rfl ▸ bare))
  have hrel := twins.lookup "items"
  unfold additionalItems? at hk hk'
  generalize ms.lookup "items" = i?, ns.lookup "items" = j? at hrel hk hk'
  cases hrel with
  | none => cases hk
  | @some i j hij =>
    cases i with
    | arr xs =>
      obtain ⟨ys, rfl, hitems⟩ := hij.arr_left
      dsimp only at hk'
      rw [← hitems.length_eq] at hk'
      exact kin_of_map hschema (fun _ _ h => .additionalItems h) hk hk'
    | obj ps => cases hk
    | bool b =>
      cases hij.eq_of_flat (by simp) (by simp)
      exact kin_of_map hschema (fun _ _ h => .additionalItems h) hk hk'
    | null | num | str => cases hk

/-- `additionalProperties` goes by what is declared beside it; a bare schema declares no patterns. -/
theorem kin_additionalProperties {ms ns : Members} (twins : (Json.obj ms).Twins (.obj ns))
    (noPatterns : ms.lookup "patternProperties" = none) (hxy : x.Twins y) (bare : Bare x)
    (hk : read? ms "additionalProperties" x = some (some k))
    (hk' : read? ns "additionalProperties" y = some k?') :
    ∃ k', k?' = some k' ∧ Kin V V' base base' k k' := by
  have noPatterns' : ns.lookup "patternProperties" = none := by
    have hrel := twins.lookup "patternProperties"
    rw [noPatterns] at hrel
    generalize ns.lookup "patternProperties" = y? at hrel ⊢
    cases hrel
    rfl
  obtain ⟨declared, hdeclared, hk⟩ := Option.bind_eq_some_iff.mp hk
  obtain ⟨patterns, hpatterns, hk⟩ := Option.bind_eq_some_iff.mp hk
  obtain ⟨s, hs, hk⟩ := Option.bind_eq_some_iff.mp hk
  obtain ⟨declared', hdeclared', hk'⟩ := Option.bind_eq_some_iff.mp hk'
  obtain ⟨patterns', hpatterns', hk'⟩ := Option.bind_eq_some_iff.mp hk'
  obtain ⟨s', hs', hk'⟩ := Option.bind_eq_some_iff.mp hk'
  rw [keysUnder, noPatterns] at hpatterns
  rw [keysUnder, noPatterns'] at hpatterns'
  cases hpatterns
  cases hpatterns'
  cases eq_of_schema? hs
  cases eq_of_schema? hs'
  cases hk
  cases hk'
  exact ⟨_, rfl, .additionalProperties (keysUnder_of_twins twins hdeclared hdeclared') (.bare hxy bare)⟩

theorem forall₂_of_mapM {α β : Type} {f : α → Option β} {as : List α} {bs : List β}
    (h : as.mapM f = some bs) : List.Forall₂ (fun a b => f a = some b) as bs := by
  induction as generalizing bs with
  | nil =>
    rw [List.mapM_nil] at h
    cases h
    exact .nil
  | cons a as ih =>
    rw [List.mapM_cons] at h
    obtain ⟨b, hb, h⟩ := Option.bind_eq_some_iff.mp h
    obtain ⟨rest, hrest, h⟩ := Option.bind_eq_some_iff.mp h
    cases h
    exact .cons hb (ih hrest)

/-- The entries that are read from twin members, one by one, are kin. -/
theorem kin_of_entries {ps qs : Members} {es fs : List (String × Dependency)} (hpairs : Pairs Twins ps qs)
    (bare : ∀ p ∈ ps, Bare p.2)
    (hes : List.Forall₂ (fun p e => (Dependency.ofJson? p.2).map (p.1, ·) = some e) ps es)
    (hfs : List.Forall₂ (fun q f => (Dependency.ofJson? q.2).map (q.1, ·) = some f) qs fs) :
    List.Forall₂ (fun e f => e.1 = f.1 ∧ Dependency.Kin V V' base base' e.2 f.2) es fs := by
  induction hpairs generalizing es fs with
  | nil =>
    cases hes
    cases hfs
    exact .nil
  | @cons p q ps qs hfirst _ ih =>
    cases hes with
    | @cons _ e _ es he hes =>
      cases hfs with
      | @cons _ f _ fs hf hfs =>
        rw [List.forall_mem_cons] at bare
        refine .cons ?_ (ih bare.2 hes hfs)
        obtain ⟨d, hd, rfl⟩ := Option.map_eq_some_iff.mp he
        obtain ⟨d', hd', rfl⟩ := Option.map_eq_some_iff.mp hf
        have hrel : Option.Rel (Dependency.Kin V V' base base') _ _ := dependency_of_twins hfirst.2 bare.1
        rw [hd, hd'] at hrel
        cases hrel with
        | some hkin => exact ⟨hfirst.1, hkin⟩

/-- `dependencies` lists what each property asks for. -/
theorem kin_dependencies (ms ns : Members) (hxy : x.Twins y)
    (held : ∀ s ∈ heldSchemas "dependencies" x, Bare s) (hk : read? ms "dependencies" x = some (some k))
    (hk' : read? ns "dependencies" y = some k?') : ∃ k', k?' = some k' ∧ Kin V V' base base' k k' := by
  obtain ⟨ps, hps, hk⟩ := Option.bind_eq_some_iff.mp hk
  obtain ⟨es, hes, hk⟩ := Option.bind_eq_some_iff.mp hk
  obtain ⟨qs, hqs, hk'⟩ := Option.bind_eq_some_iff.mp hk'
  obtain ⟨fs, hfs, hk'⟩ := Option.bind_eq_some_iff.mp hk'
  cases hk
  cases hk'
  have hrel := members?_of_twins hxy
  rw [hps, hqs] at hrel
  cases hrel with
  | some hpairs =>
    obtain ⟨mid, hpairs, horder⟩ := hpairs
    have bare : ∀ p ∈ ps, Bare p.2 := by
      intro p hp
      refine held p.2 ?_
      show p.2 ∈ (x.members?.getD []).map Prod.snd
      rw [hps]
      exact List.mem_map_of_mem hp
    obtain ⟨es', hes', horder'⟩ := List.perm_comp_forall₂ horder (forall₂_of_mapM hfs)
    refine ⟨_, rfl, .dependencies ?_ horder'⟩
    exact kin_of_entries hpairs bare (forall₂_of_mapM hes) hes'

/-- **What kin schemas read from the members of one name is kin.** -/
theorem kin_of_read {ms ns : Members} (twins : (Json.obj ms).Twins (.obj ns)) (bare : Bare (.obj ms))
    (hm : (name, x) ∈ ms) (hxy : x.Twins y) (hk : read? ms name x = some (some k))
    (hk' : read? ns name y = some k?') : ∃ k', k?' = some k' ∧ Kin V V' base base' k k' := by
  have hlookup : ms.lookup name = some x := lookup_of_mem twins.left.keys hm
  have held : ∀ s ∈ heldSchemas name x, Bare s := fun s hs => bare.held hm hs
  have single : heldSchemas name x = [x] → JsonMend.Kin V V' base base' x y := fun h =>
    .bare hxy (held x (h ▸ List.mem_singleton_self x))
  have list : heldSchemas name x = x.items?.getD [] →
      Option.Rel (List.Forall₂ (JsonMend.Kin V V' base base')) x.items? y.items? := fun h =>
    kin_of_items? hxy (h ▸ held)
  have beside : ∀ key, (∀ v, heldSchemas key v = [v]) →
      Option.Rel (JsonMend.Kin V V' base base') (ms.lookup key) (ns.lookup key) := by
    intro key hkey
    have hrel := twins.lookup key
    have hbare : ∀ v, ms.lookup key = some v → Bare v := fun v hv =>
      bare.held (mem_keys_of_lookup hv) (hkey v ▸ List.mem_singleton_self v)
    generalize ms.lookup key = v?, ns.lookup key = w? at hrel hbare ⊢
    cases hrel with
    | none => exact .none
    | some htwins => exact .some (.bare htwins (hbare _ rfl))
  unfold read? at hk
  dsimp only at hk
  split at hk
  · -- a bare schema has no reference
    rw [bare.reference] at hlookup
    cases hlookup
  · exact kin_type ms ns hxy hk hk'
  · exact kin_of_map (items?_of_twins hxy) (fun _ _ h => .enum (h.imp fun _ _ => .inr)) hk hk'
  · cases hk
    cases hk'
    exact ⟨_, rfl, .const (.inr hxy)⟩
  · exact kin_of_map (number?_of_twins hxy) (fun _ _ h => h ▸ .bound .minimum _) hk hk'
  · exact kin_of_map (number?_of_twins hxy) (fun _ _ h => h ▸ .bound .maximum _) hk hk'
  · exact kin_of_map (number?_of_twins hxy) (fun _ _ h => h ▸ .bound .exclusiveMinimum _) hk hk'
  · exact kin_of_map (number?_of_twins hxy) (fun _ _ h => h ▸ .bound .exclusiveMaximum _) hk hk'
  · exact kin_of_map (number?_of_twins hxy) (fun _ _ h => h ▸ .multipleOf _) hk hk'
  · exact kin_of_map (number?_of_twins hxy) (fun _ _ h => h ▸ .count .atLeast .characters _) hk hk'
  · exact kin_of_map (number?_of_twins hxy) (fun _ _ h => h ▸ .count .atMost .characters _) hk hk'
  · exact kin_of_map (number?_of_twins hxy) (fun _ _ h => h ▸ .count .atLeast .items _) hk hk'
  · exact kin_of_map (number?_of_twins hxy) (fun _ _ h => h ▸ .count .atMost .items _) hk hk'
  · exact kin_of_map (number?_of_twins hxy) (fun _ _ h => h ▸ .count .atLeast .members _) hk hk'
  · exact kin_of_map (number?_of_twins hxy) (fun _ _ h => h ▸ .count .atMost .members _) hk hk'
  · exact kin_of_map (bool?_of_twins hxy) (fun _ _ h => h ▸ .uniqueItems _) hk hk'
  · exact kin_of_map (str?_of_twins hxy) (fun _ _ h => h ▸ .pattern _) hk hk'
  · exact kin_of_map (str?_of_twins hxy) (fun _ _ h => h ▸ .format _) hk hk'
  · exact kin_of_map (strings?_of_twins hxy) (fun _ _ h => h ▸ .required _) hk hk'
  · have hrel : Option.Rel (fun ps qs => ∃ mid, Pairs (JsonMend.Kin V V' base base') ps mid ∧
        mid.Perm qs) x.members? y.members? := members?_of_pairs hxy held
    exact kin_of_map hrel (fun _ _ ⟨_, hpairs, horder⟩ => .properties hpairs horder) hk hk'
  · rw [bare.patterns] at hlookup
    cases hlookup
  · cases hk
    cases hk'
    exact ⟨_, rfl, .propertyNames (single rfl)⟩
  · exact kin_additionalProperties twins bare.patterns hxy (held x (List.mem_singleton_self x)) hk hk'
  · exact kin_items ms ns hxy held hk hk'
  · exact kin_additionalItems twins hxy (held x (List.mem_singleton_self x)) hk hk'
  · cases hk
    cases hk'
    exact ⟨_, rfl, .contains (single rfl)⟩
  · exact kin_dependencies ms ns hxy held hk hk'
  · exact kin_of_map (list rfl) (fun _ _ h => .allOf h) hk hk'
  · exact kin_of_map (list rfl) (fun _ _ h => .anyOf h) hk hk'
  · exact kin_of_map (list rfl) (fun _ _ h => .oneOf h) hk hk'
  · cases hk
    cases hk'
    exact ⟨_, rfl, .forbid (single rfl)⟩
  · cases hk
    cases hk'
    refine ⟨_, rfl, .conditional (single rfl) (beside "then" fun _ => rfl) (beside "else" fun _ => rfl)⟩
  · cases hk

end Keyword

end JsonMend
