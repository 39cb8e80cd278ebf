import JsonMend.Proofs.Draft7.Direct
/-
  Plain schemas: those of which a shape keeps every keyword.

  1. **Plain** — a schema that uses nothing but types, properties, one schema for all items, required names,
     a boolean for additional properties, and a default; so do all schemas inside it.
  2. **Two walks** (`Judged.walk`) — where the validator goes down along a plain schema, the shape goes down
     beside it.  (The other way round fails: a shape may lead a key to its items.)
  3. **Complaints** (`found_plain`) — whatever is found under a plain schema is one of three complaints
     about the value at its place, each of them told by the shape there (`Complains`).
-/
namespace JsonMend

open Outcome

/-! ## Plain -/

def plainKeywords : List String :=
  ["type", "properties", "items", "required", "additionalProperties", "default"]

inductive Plain : Json → Prop
  | intro {members : Members} (keywords : ∀ m ∈ members, m.1 ∈ plainKeywords)
      (properties : ∀ ps, members.lookup "properties" = some (.obj ps) → ∀ p ∈ ps, Plain p.2)
      (items : ∀ sub, members.lookup "items" = some sub → Plain sub)
      (additional : ∀ v, members.lookup "additionalProperties" = some v → v.isBool = true) :
      Plain (.obj members)

namespace Plain

variable {members : Members} {key : String} {sub : Json}

theorem keyword_of_mem {value : Json} (h : Plain (.obj members)) (hmem : (key, value) ∈ members) :
    key ∈ plainKeywords := by
  cases h with
  | intro hkeywords _ _ _ => exact hkeywords _ hmem

theorem lookup_eq_none (h : Plain (.obj members)) (hkey : key ∉ plainKeywords) :
    members.lookup key = none := by
  rw [lookup_eq_none_iff]
  intro hmem
  obtain ⟨⟨key, value⟩, hm, rfl⟩ := List.mem_map.mp hmem
  exact hkey (h.keyword_of_mem hm)

/-- A plain schema names no draft. -/
theorem home (h : Plain sub) : sub.namesOtherDraft = false := by
  cases h with
  | @intro members hkeywords hproperties hitems hadditional =>
    have hplain : Plain (.obj members) := .intro hkeywords hproperties hitems hadditional
    rw [Json.namesOtherDraft, Json.draft?, Json.get?, hplain.lookup_eq_none (by decide)]
    rfl

theorem direct (h : Plain sub) : Direct sub := by
  have hdisjoint : ∀ key ∈ plainKeywords, key ∉ indirectKeywords := by decide
  induction h with
  | @intro members hkeywords hproperties hitems hadditional ih_properties ih_items =>
    have hplain : Plain (.obj members) := .intro hkeywords hproperties hitems hadditional
    have hinside : ∀ sub, Inside members sub → Plain sub ∧ Direct sub := by
      rintro sub (⟨rfl | rfl, hlookup, hmem⟩ | hlookup)
      · exact ⟨hproperties _ hlookup _ hmem, ih_properties _ hlookup _ hmem⟩
      · rw [hplain.lookup_eq_none (by decide)] at hlookup
        cases hlookup
      · exact ⟨hitems sub hlookup, ih_items sub hlookup⟩
    exact .intro (fun m hm => hdisjoint _ (hkeywords m hm)) (fun sub h => (hinside sub h).2)
      (fun sub h => (hinside sub h).1.home) hadditional

theorem no_reference (h : Plain (.obj members)) : members.lookup "$ref" = none :=
  h.lookup_eq_none (by decide)

theorem of_property {ps : Members} (h : Plain (.obj members))
    (hlookup : members.lookup "properties" = some (.obj ps)) (hmem : (key, sub) ∈ ps) :
    Plain sub := by
  cases h with
  | intro _ hproperties _ _ => exact hproperties _ hlookup _ hmem

theorem of_items (h : Plain (.obj members)) (hlookup : members.lookup "items" = some sub) :
    Plain sub := by
  cases h with
  | intro _ _ hitems _ => exact hitems _ hlookup

theorem patterns_eq_nil (h : Plain (.obj members)) :
    (Shape.ofSchema (.obj members)).patterns = [] := by
  rw [Shape.patterns_ofSchema, Shape.shapesUnder_eq, h.lookup_eq_none (by decide)]
  rfl

end Plain

/-! ## Two walks -/

/-- An inner schema of a plain schema is plain, and its shape is the one that governs the part. -/
theorem Inner.part {members sub : Members} {v x : Json} {step : Segment}
    (h : Inner members v step sub x) (plain : Plain (.obj members))
    (distinct : (Json.obj members).Distinct) :
    v.step? step = some x ∧
      (Shape.ofSchema (.obj members)).Part v step (Shape.ofSchema (.obj sub)) x ∧
      Plain (.obj sub) ∧ (Json.obj sub).Distinct := by
  cases h with
  | @property ms name x ps sub hlookup hmem hstands =>
    have hps := distinct.lookup hlookup
    have hproperty : (Shape.ofSchema (.obj members)).properties.lookup name =
        some (Shape.ofSchema (.obj sub)) := by
      refine lookup_of_mem ?_ (Shape.property_of_schema hlookup hmem)
      rw [Shape.properties_ofSchema hlookup, List.map_map]
      exact hps.keys
    have hobject := Shape.isObject_of_mem_properties (mem_keys_of_lookup hproperty)
    have hchild := Shape.child_of_property hproperty
    exact ⟨hstands, .member hobject (mem_keys_of_lookup hstands) hchild,
      plain.of_property hlookup hmem, hps.mem hmem⟩
  | pattern hlookup =>
    rw [plain.lookup_eq_none (by decide)] at hlookup
    cases hlookup
  | item hlookup hstands =>
    refine ⟨hstands, .item hstands ?_, plain.of_items hlookup, distinct.lookup hlookup⟩
    rw [Shape.ofSchema, Shape.shapeOfItems_eq, hlookup]
    rfl

theorem Judged.walk {members last : Members} {v w : Json} {place : Position}
    (h : Judged members v place last w) (plain : Plain (.obj members))
    (distinct : (Json.obj members).Distinct) :
    (Shape.ofSchema (.obj members)).Walk v place (Shape.ofSchema (.obj last)) w ∧
      Plain (.obj last) := by
  induction h with
  | here => exact ⟨.here, plain⟩
  | down _ hinner _ _ ih =>
    obtain ⟨hstands, hpart, hplain, hdistinct⟩ := hinner.part plain distinct
    obtain ⟨hwalk, hlast⟩ := ih hplain hdistinct
    exact ⟨.down hstands hpart hwalk, hlast⟩

/-- The way down to a place passes through every place above. -/
theorem Judged.above {members last : Members} {v w : Json} {above below : Position}
    (h : Judged members v (above ++ below) last w) :
    ∃ middle u, Judged members v above middle u := by
  induction above generalizing members v with
  | nil => exact ⟨members, v, .here⟩
  | cons step rest ih =>
    cases h with
    | down hnone hinner hhome hrest =>
      obtain ⟨middle, u, hmiddle⟩ := ih hrest
      exact ⟨middle, u, .down hnone hinner hhome hmiddle⟩

/-! ## Complaints -/

/-- What a plain schema can complain about in a value, as its shape tells it. -/
inductive Complains (s : Shape) : Json → Complaint → Prop
  | wrongType {x} (mismatch : s.types.any x.isOfTypeNamed = false) :
      Complains s x (.wrongType s.types)
  | missingProperty {ms name asked} (required : name ∈ s.required) (absent : hasKey ms name = false) :
      Complains s (.obj ms) (.missingProperty name asked)
  | undeclared {ms extras declared patterns key} (closed : s.closed = true)
      (extra : key ∈ ms.map Prod.fst) (undeclared : key ∉ s.properties.map Prod.fst) :
      Complains s (.obj ms) (.undeclared extras declared patterns)

variable {members : Members} {v : Json} {validator : Validator} {judge : Judge} {base : String}
  {y : Violation}

theorem required_of_ofMember {value : Json} {k? : Option Keyword}
    (h : Keyword.ofMember members "required" value = .ok k?) :
    k? = some (.required (Shape.stringsIn (some value))) := by
  obtain ⟨names, hstrings, hk⟩ := Option.map_eq_some_iff.mp (Keyword.read?_of_ofMember h)
  rw [← hk, stringsIn_of_strings? hstrings]

/-- What is found about required names is that one of them is missing. -/
theorem found_by_required {names : List String}
    (hy : y ∈ ((Keyword.required names).judge validator judge base v).violations) :
    ∃ ms name, v = .obj ms ∧ name ∈ names ∧ hasKey ms name = false ∧
      y = .here (.missingProperty name names) v := by
  cases v with
  | obj ms =>
    obtain ⟨o, ho, hy⟩ := mem_violations_concat hy
    obtain ⟨name, hmem, rfl⟩ := List.mem_map.mp ho
    obtain ⟨habsent, rfl⟩ := Keyword.mem_require.mp hy
    exact ⟨ms, name, rfl, hmem, habsent, rfl⟩
  | null | bool | num | str | arr => cases hy

/-- Where no pattern is declared, an extra key is not declared by name. -/
theorem not_declared_of_extra {s : Shape} {ms : Members} {extras : List String} {key : String}
    (noPattern : s.patterns = []) (h : s.extraKeys ms = .ok extras) (hkey : key ∈ extras) :
    key ∈ ms.map Prod.fst ∧ key ∉ s.properties.map Prod.fst := by
  rw [Shape.extraKeys, noPattern] at h
  obtain ⟨hmem, htest⟩ := (Keyword.mem_select h).mp hkey
  refine ⟨hmem, fun hdeclared => ?_⟩
  rw [List.contains_iff_mem.mpr hdeclared] at htest
  cases htest

/-- What a plain schema finds by itself, its shape tells. -/
theorem complains_of_own {complaint : Complaint} (plain : Plain (.obj members))
    (distinct : (Json.obj members).Distinct) (h : OwnFinding members v complaint) :
    Complains (Shape.ofSchema (.obj members)) v complaint := by
  obtain ⟨hmem, hk, hown, hfound⟩ := h
  rename_i name value k validator judge base
  have hlookup : members.lookup name = some value := lookup_of_mem distinct.keys hmem
  have hname := plain.keyword_of_mem hmem
  simp only [plainKeywords, List.mem_cons, List.not_mem_nil, or_false] at hname
  rcases hname with rfl | rfl | rfl | rfl | rfl | rfl
  · -- type
    have htypes : (Shape.ofSchema (.obj members)).types = Shape.typesIn (some value) := by
      rw [Shape.types_ofSchema, hlookup]
    cases typesIn_of_ofMember hk
    obtain ⟨hany, heq⟩ := Keyword.mem_require.mp hfound
    cases heq
    rw [← htypes] at hany ⊢
    exact .wrongType hany
  · -- properties
    cases value with
    | obj ps => cases hk; cases hown
    | null | bool | num | str | arr => cases hk
  · -- items
    obtain ⟨sub, rfl⟩ := (plain.direct.of_inside (.items hlookup)).members_of
    cases hk
    cases hown
  · -- required
    have hrequired : (Shape.ofSchema (.obj members)).required = Shape.stringsIn (some value) := by
      rw [Shape.required_ofSchema, hlookup]
    cases required_of_ofMember hk
    obtain ⟨ms, name, rfl, hname, habsent, heq⟩ := found_by_required hfound
    cases heq
    rw [← hrequired] at hname
    exact .missingProperty hname habsent
  · -- additionalProperties
    obtain ⟨-, hkeyword⟩ := Keyword.own_findings hown _ hfound
    rw [← Keyword.name_of_ofMember hk] at hkeyword
    obtain ⟨ms, extras, rfl, hclosed, hextras, hne, rfl⟩ :=
      extra_of_own distinct ⟨hmem, hk, hown, hfound⟩ hkeyword
    obtain ⟨key, hkey⟩ := List.exists_mem_of_ne_nil extras hne
    obtain ⟨hpresent, hundeclared⟩ := not_declared_of_extra plain.patterns_eq_nil hextras hkey
    exact .undeclared hclosed hpresent hundeclared
  · -- default
    cases hk

/-- **Whatever is found under a plain schema is a complaint that the shape at its place tells.** -/
theorem Validator.found_plain {rounds : Nat} (plain : Plain (.obj members))
    (distinct : (Json.obj members).Distinct)
    (hy : y ∈ (validator.judgeWith rounds base (.obj members) v).violations) :
    ∃ last, Judged members v y.place last y.value ∧
      Complains (Shape.ofSchema (.obj last)) y.value y.complaint := by
  obtain ⟨last, hjudged, -, hdistinct, hown⟩ := found_direct plain.direct distinct hy
  obtain ⟨-, hplain⟩ := hjudged.walk plain distinct
  exact ⟨last, hjudged, complains_of_own hplain hdistinct hown⟩

end JsonMend
