import JsonMend.Proofs.Shape.Walk
/-
  A shape beside the schema it was read from.

  1. **Inside** — the schemas directly inside a schema that its shape is read from: those of its properties,
     of its patterns and of all items.  A proof about schemas goes by induction on them
     (`Inside.induction`).
  2. **Parts** — each property, pattern and item shape is the shape of such a schema
     (`schema_of_property`, `schema_of_pattern`, `schema_of_items`).
  3. **Keys** (`everywhere_ofSchema`) — what holds of the key lists of a schema holds of the names that its
     shapes declare and of the key lists of their defaults.
-/
namespace JsonMend

/-! ## Inside -/

/-- A schema directly inside a schema: that of a property, of a pattern, or of all items. -/
inductive Inside (members : Members) : Json → Prop
  | named {key ps name sub} (kind : key = "properties" ∨ key = "patternProperties")
      (keyword : members.lookup key = some (.obj ps)) (mem : (name, sub) ∈ ps) : Inside members sub
  | items {sub} (keyword : members.lookup "items" = some sub) : Inside members sub

namespace Inside

variable {members : Members} {sub : Json}

theorem eachObject {P : List String → Prop} (h : Inside members sub)
    (hschema : (Json.obj members).EachObject P) : sub.EachObject P := by
  have hmember : ∀ {key x}, members.lookup key = some x → x.EachObject P := by
    intro key x hlookup
    exact (Json.eachObject_obj.mp hschema).2 _ (mem_keys_of_lookup hlookup)
  cases h with
  | named hkind hkeyword hmem => exact (Json.eachObject_obj.mp (hmember hkeyword)).2 _ hmem
  | items hkeyword => exact hmember hkeyword

theorem sizeOf_lt (h : Inside members sub) : sizeOf sub < sizeOf (Json.obj members) := by
  cases h with
  | named hkind hkeyword hmem =>
    exact Nat.lt_trans (Json.sizeOf_lt_of_mem hmem) (Json.sizeOf_lt_of_lookup hkeyword)
  | items hkeyword => exact Json.sizeOf_lt_of_lookup hkeyword

/-- What holds of a schema whenever it holds of all schemas inside it, holds of every schema. -/
theorem induction {P : Json → Prop}
    (obj : ∀ members, (∀ sub, Inside members sub → P sub) → P (.obj members))
    (flat : ∀ v, v.isObj = false → P v) : ∀ v : Json, P v
  | .obj members => obj members fun sub _ => induction obj flat sub
  | .null => flat _ rfl
  | .bool _ => flat _ rfl
  | .num _ => flat _ rfl
  | .str _ => flat _ rfl
  | .arr _ => flat _ rfl
termination_by v => sizeOf v
decreasing_by exact sizeOf_lt ‹_›

end Inside

namespace Shape

variable {members : Members} {sub : Shape} {name : String}

/-! ## Parts -/

theorem ofSchema_of_not_obj {schema : Json} (h : schema.isObj = false) :
    ofSchema schema = unconstrained := by
  cases schema with
  | obj members => cases h
  | null | bool | num | str | arr => rfl

theorem types_ofSchema (members : Members) :
    (ofSchema (.obj members)).types = typesIn (members.lookup "type") := rfl

theorem required_ofSchema (members : Members) :
    (ofSchema (.obj members)).required = stringsIn (members.lookup "required") := rfl

theorem closed_ofSchema (members : Members) : (ofSchema (.obj members)).closed =
    decide (members.lookup "additionalProperties" = some (.bool false)) := rfl

theorem fallback_ofSchema (members : Members) :
    (ofSchema (.obj members)).fallback = members.lookup "default" := rfl

theorem patterns_ofSchema (members : Members) :
    (ofSchema (.obj members)).patterns = shapesUnder "patternProperties" members := rfl

theorem declared_ofSchema (members : Members) :
    (ofSchema (.obj members)).properties = shapesUnder "properties" members := rfl

theorem items_ofSchema (members : Members) : (ofSchema (.obj members)).items = shapeOfItems members := rfl

theorem shapesOf_obj (ps : Members) : shapesOf (.obj ps) = ps.map fun (k, x) => (k, ofSchema x) :=
  shapesOfMembers_eq_map ps

/-- The shapes under a key are read from an object that stands there. -/
theorem schema_of_shapesUnder {key : String} (h : (name, sub) ∈ shapesUnder key members) :
    ∃ ps x, members.lookup key = some (.obj ps) ∧ (name, x) ∈ ps ∧ sub = ofSchema x := by
  rw [shapesUnder_eq] at h
  cases hlookup : members.lookup key with
  | none =>
    rw [hlookup] at h
    exact absurd h List.not_mem_nil
  | some v =>
    rw [hlookup, Option.map_some, Option.getD_some] at h
    cases v with
    | obj ps =>
      rw [shapesOf_obj] at h
      obtain ⟨⟨k, x⟩, hmem, heq⟩ := List.mem_map.mp h
      cases heq
      exact ⟨ps, x, rfl, hmem, rfl⟩
    | null | bool | num | str | arr => exact absurd h List.not_mem_nil

theorem schema_of_property (h : (name, sub) ∈ (ofSchema (.obj members)).properties) :
    ∃ ps x, members.lookup "properties" = some (.obj ps) ∧ (name, x) ∈ ps ∧ sub = ofSchema x := by
  rw [declared_ofSchema] at h
  exact schema_of_shapesUnder h

theorem schema_of_pattern (h : (name, sub) ∈ (ofSchema (.obj members)).patterns) :
    ∃ ps x, members.lookup "patternProperties" = some (.obj ps) ∧ (name, x) ∈ ps ∧
      sub = ofSchema x := by
  rw [patterns_ofSchema] at h
  exact schema_of_shapesUnder h

theorem schema_of_items (h : (ofSchema (.obj members)).items = some sub) :
    ∃ x, members.lookup "items" = some x ∧ x.isObj = true ∧ sub = ofSchema x := by
  rw [items_ofSchema, shapeOfItems_eq] at h
  obtain ⟨x, hlookup, hx⟩ := Option.bind_eq_some_iff.mp h
  split at hx
  · rename_i hobj
    cases hx
    exact ⟨x, hlookup, hobj, rfl⟩
  · cases hx

theorem properties_ofSchema {ps : Members} (h : members.lookup "properties" = some (.obj ps)) :
    (ofSchema (.obj members)).properties = ps.map fun (k, x) => (k, ofSchema x) := by
  rw [declared_ofSchema, shapesUnder_eq, h, Option.map_some, Option.getD_some, shapesOf_obj]

theorem mem_shapesUnder {key : String} {ps : Members} {x : Json}
    (h : members.lookup key = some (.obj ps)) (hmem : (name, x) ∈ ps) :
    (name, ofSchema x) ∈ shapesUnder key members := by
  rw [shapesUnder_eq, h, Option.map_some, Option.getD_some, shapesOf_obj]
  exact List.mem_map.mpr ⟨(name, x), hmem, rfl⟩

theorem property_of_schema {ps : Members} {x : Json}
    (h : members.lookup "properties" = some (.obj ps)) (hmem : (name, x) ∈ ps) :
    (name, ofSchema x) ∈ (ofSchema (.obj members)).properties := by
  rw [declared_ofSchema]
  exact mem_shapesUnder h hmem

theorem pattern_of_schema {ps : Members} {x : Json}
    (h : members.lookup "patternProperties" = some (.obj ps)) (hmem : (name, x) ∈ ps) :
    (name, ofSchema x) ∈ (ofSchema (.obj members)).patterns := by
  rw [patterns_ofSchema]
  exact mem_shapesUnder h hmem

/-- The names under a key are the keys of the object that stands there. -/
theorem names_shapesUnder (key : String) (members : Members) :
    (shapesUnder key members).map Prod.fst = [] ∨
      ∃ ps, members.lookup key = some (.obj ps) ∧
        (shapesUnder key members).map Prod.fst = ps.map Prod.fst := by
  rw [shapesUnder_eq]
  cases members.lookup key with
  | none => exact .inl rfl
  | some v =>
    cases v with
    | obj ps =>
      refine .inr ⟨ps, rfl, ?_⟩
      rw [Option.map_some, Option.getD_some, shapesOf_obj, List.map_map]
      rfl
    | null | bool | num | str | arr => exact .inl rfl

/-! ## Keys -/

/-- The key lists of a shape: the names it declares, by themselves and as patterns, and the key lists of its
default. -/
structure KeyLists (P : List String → Prop) (s : Shape) : Prop where
  properties : P (s.properties.map Prod.fst)
  patterns : P (s.patterns.map Prod.fst)
  fallback : ∀ d, s.fallback = some d → d.EachObject P

variable {P : List String → Prop}

theorem keyLists_unconstrained (hnil : P []) : KeyLists P unconstrained :=
  ⟨hnil, hnil, fun _ h => nomatch h⟩

theorem keyLists_ofSchema (hnil : P []) {schema : Json} (h : schema.EachObject P) :
    KeyLists P (ofSchema schema) := by
  cases schema with
  | obj members =>
    have hmember : ∀ {key x}, members.lookup key = some x → x.EachObject P := by
      intro key x hlookup
      exact (Json.eachObject_obj.mp h).2 _ (mem_keys_of_lookup hlookup)
    have hnames : ∀ key, P ((shapesUnder key members).map Prod.fst) := by
      intro key
      rcases names_shapesUnder key members with hnone | ⟨ps, hlookup, hkeys⟩
      · rw [hnone]; exact hnil
      · rw [hkeys]; exact (Json.eachObject_obj.mp (hmember hlookup)).1
    exact ⟨hnames _, hnames _, fun d hd => hmember hd⟩
  | null | bool | num | str | arr => exact keyLists_unconstrained hnil

/-- What holds of the shape of a schema and everywhere in the shapes of the schemas inside it, holds
everywhere in the shape. -/
theorem Everywhere.of_schema {Q : Shape → Prop} (here : Q (ofSchema (.obj members)))
    (inside : ∀ x, Inside members x → (ofSchema x).Everywhere Q) :
    (ofSchema (.obj members)).Everywhere Q := by
  refine .intro here ?_ ?_ ?_
  · rintro ⟨name, sub⟩ hmem
    obtain ⟨ps, x, hlookup, hx, rfl⟩ := schema_of_property hmem
    exact inside x (.named (.inl rfl) hlookup hx)
  · rintro ⟨name, sub⟩ hmem
    obtain ⟨ps, x, hlookup, hx, rfl⟩ := schema_of_pattern hmem
    exact inside x (.named (.inr rfl) hlookup hx)
  · intro sub hsub
    obtain ⟨x, hlookup, -, rfl⟩ := schema_of_items hsub
    exact inside x (.items hlookup)

/-- What holds of all key lists of a schema holds of all key lists of its shapes. -/
theorem everywhere_ofSchema (hnil : P []) {schema : Json} (h : schema.EachObject P) :
    (ofSchema schema).Everywhere (KeyLists P) := by
  induction schema using Inside.induction with
  | obj members ih =>
    refine .of_schema (keyLists_ofSchema hnil h) fun sub hinside => ?_
    exact ih sub hinside (hinside.eachObject h)
  | flat schema hflat =>
    rw [ofSchema_of_not_obj hflat]
    exact everywhere_unconstrained (keyLists_unconstrained hnil)

end Shape

end JsonMend
