import JsonMend.Proofs.Draft7.Inside
/-
  A schema whose objects have distinct keys leads to such schemas only.

  1. **References** (`Registry.Distinct.resolve`) — the documents of a registry lie inside its root or are known
     beforehand, and distinct keys go inward, so they are kept by references.
  2. **Keywords** (`Keyword.distinct_of_ofMember`) — what a keyword keeps is part of the schema that it is read
     from.
  3. **Entrances** (`Keyword.Enters.schema_distinct`, `part_distinct`) — so the schemas that are entered have
     distinct keys, and so have the parts of the value that they judge.
-/
namespace JsonMend

/-! ## References -/

namespace Registry

/-- No document of a registry has a key twice in an object. -/
structure Distinct (r : Registry) : Prop where
  root : r.root.Distinct
  known : ∀ p ∈ r.known, p.2.Distinct
  documents : ∀ p ∈ r.documents, p.2.Distinct
  anchors : ∀ p ∈ r.anchors, p.2.Distinct

variable {r : Registry} {base uri : String} {schema s : Json}

theorem ofRoot_distinct {known : List (String × Json)} (distinct : schema.Distinct)
    (known_distinct : ∀ p ∈ known, p.2.Distinct) : (ofRoot known schema).Distinct :=
  ⟨distinct, known_distinct, fun p hp => distinct.part (documentsIn_inside p hp),
    fun p hp => distinct.part (anchorsIn_inside p hp)⟩

theorem Distinct.document (h : r.Distinct) (found : r.document? uri = some s) : s.Distinct := by
  unfold document? at found
  split at found
  · cases found
    exact h.root
  · rcases Option.or_eq_some_iff.mp found with hknown | ⟨-, hdocument⟩
    · exact h.known _ (mem_keys_of_lookup hknown)
    · exact h.documents _ (mem_keys_of_lookup hdocument)

theorem Distinct.closed (h : r.Distinct) : r.Closed fun _ v => v.Distinct where
  inward hv hx := ⟨hv.inner hx, hv.inner hx⟩
  found := h.document
  anchored _ hanchor := by
    rcases Option.or_eq_some_iff.mp hanchor with hanchor | ⟨-, hanchor⟩
    · exact h.anchors _ (mem_keys_of_lookup hanchor)
    · exact h.anchors _ (mem_keys_of_lookup hanchor)

/-- **What a reference leads to has distinct keys.** -/
theorem Distinct.resolve {reference inside : String} (h : r.Distinct)
    (resolved : r.resolve base reference = .ok (schema, inside)) : schema.Distinct := by
  rcases h.closed.resolve resolved with hdistinct | ⟨c, rfl⟩
  · exact hdistinct
  · exact .str c

end Registry

/-! ## Keywords -/

namespace Keyword

/-- No object that a keyword keeps, for a schema to be entered or to tell which is entered, has a key
twice. -/
def Distinct : Keyword → Prop
  | .properties schemas | .patternProperties schemas => (Json.obj schemas).Distinct
  | .propertyNames schema | .additionalProperties _ _ schema | .items schema
  | .additionalItems _ schema => schema.Distinct
  | .itemsInTurn schemas | .allOf schemas => ∀ s ∈ schemas, s.Distinct
  | .dependencies entries =>
    (entries.map Prod.fst).Nodup ∧ ∀ property s, (property, .schema s) ∈ entries → s.Distinct
  | .conditional _ whenMet whenUnmet => ∀ s, whenMet = some s ∨ whenUnmet = some s → s.Distinct
  | _ => True

variable {members : Members} {name : String} {value : Json} {k : Keyword}

/-- **What a keyword keeps of a schema with distinct keys has distinct keys.** -/
theorem distinct_of_ofMember (distinct : (Json.obj members).Distinct) (hmem : (name, value) ∈ members)
    (h : ofMember members name value = .ok (some k)) : k.Distinct := by
  have hvalue := distinct.mem hmem
  have hread := readFrom_of_ofMember h
  cases k with
  | properties | patternProperties | propertyNames | additionalProperties | items | additionalItems =>
    cases hread
    exact hvalue
  | itemsInTurn | allOf =>
    cases hread
    exact Json.eachObject_arr.mp hvalue
  | dependencies =>
    obtain ⟨ms, rfl, hkeys, hschemas⟩ := hread
    exact ⟨hkeys ▸ hvalue.keys, fun property s hs => hvalue.mem (hschemas property s hs)⟩
  | conditional =>
    obtain ⟨-, rfl, rfl⟩ := hread
    rintro s (hs | hs)
    · exact distinct.lookup hs
    · exact distinct.lookup hs
  | reference | type | enum | const | bound | multipleOf | count | uniqueItems | pattern | format
  | required | contains | anyOf | oneOf | forbid => trivial

/-! ## Entrances -/

variable {validator : Validator} {sub : Judge} {base inside : String} {v x schema : Json}
  {steps schemaSteps : Position}

/-- **A schema that is entered has distinct keys.** -/
theorem Enters.schema_distinct (enters : Enters validator sub base k v inside schema steps schemaSteps x)
    (registry : validator.registry.Distinct) (keyword : k.Distinct) : schema.Distinct := by
  cases enters with
  | reference hresolved => exact registry.resolve hresolved
  | property hdeclared => exact keyword.mem hdeclared
  | pattern hdeclared => exact keyword.mem hdeclared
  | name | additional | item | additionalItem => exact keyword
  | itemInTurn _ hdeclared => exact keyword _ (List.mem_of_getElem? hdeclared)
  | dependency hmem => exact keyword.2 _ _ hmem
  | branch hdeclared => exact keyword _ (List.mem_of_getElem? hdeclared)
  | whenMet => exact keyword _ (.inl rfl)
  | whenUnmet => exact keyword _ (.inr rfl)

/-- **The part of a value that is judged where a schema is entered has distinct keys.** -/
theorem Enters.part_distinct (enters : Enters validator sub base k v inside schema steps schemaSteps x)
    (hv : v.Distinct) : x.Distinct := by
  cases enters with
  | reference | dependency | branch | whenMet | whenUnmet => exact hv
  | property _ hstands => exact hv.lookup hstands
  | pattern _ hmem => exact hv.mem hmem
  | name => exact .str _
  | additional _ _ hstands => exact hv.lookup hstands
  | item hstands => exact hv.item hstands
  | itemInTurn hstands => exact hv.item hstands
  | additionalItem _ hstands => exact hv.item hstands

end Keyword

/-! ## Validators -/

theorem Validator.distinct_ofSchema {formats : Bool} {schema : Json} (distinct : schema.Distinct) :
    (ofSchema formats schema).registry.Distinct :=
  Registry.ofRoot_distinct distinct (by decide +kernel)

end JsonMend
