import JsonMend.Proofs.Draft7.Direct
/-
  Where a finding comes from.

  A keyword finds something about the value at hand by itself, or an inner schema that it enters finds it
  about a part of the value, or the value at hand once more.

  1. **Entering** (`Keyword.Enters`) — for each keyword, the schemas that it enters, with the steps that lead
     down in the value and in the schema.  Whether the two consequences of a test are entered, and the
     schema that a property depends on, depends on the value.
  2. **Both ways** — what a keyword finds is its own or was found behind an entrance (`found_by`), and what is
     found behind an entrance the keyword finds (`Enters.found`).
-/
namespace JsonMend

open Outcome

/-! ## Entering -/

/-- A keyword that judges a value enters a schema: from there, under a URI that holds inside, the schema
judges a part of the value, to which steps lead down in the value and in the schema. -/
inductive Keyword.Enters (validator : Validator) (sub : Judge) (base : String) :
    Keyword → Json → String → Json → Position → Position → Json → Prop
  | reference {target inside schema v}
      (resolved : validator.registry.resolve base target = .ok (schema, inside)) :
      Enters validator sub base (.reference target) v inside schema [] [] v
  | property {schemas name schema ms x} (declared : (name, schema) ∈ schemas)
      (stands : ms.lookup name = some x) :
      Enters validator sub base (.properties schemas) (.obj ms) (baseInside base schema) schema
        [.key name] [.key name] x
  | pattern {schemas regex schema ms key x} (declared : (regex, schema) ∈ schemas)
      (mem : (key, x) ∈ ms) (matching : matchesPattern regex key = .ok true) :
      Enters validator sub base (.patternProperties schemas) (.obj ms) (baseInside base schema) schema
        [.key key] [.key regex] x
  | name {schema ms key x} (mem : (key, x) ∈ ms) :
      Enters validator sub base (.propertyNames schema) (.obj ms) (baseInside base schema) schema
        [] [] (.str key)
  | additional {declared patterns members ms extras key x}
      (counted : extraKeys declared patterns ms = .ok extras) (extra : key ∈ extras)
      (stands : ms.lookup key = some x) :
      Enters validator sub base (.additionalProperties declared patterns (.obj members)) (.obj ms)
        (baseInside base (.obj members)) (.obj members) [.key key] [] x
  | item {schema xs i x} (stands : xs[i]? = some x) :
      Enters validator sub base (.items schema) (.arr xs) (baseInside base schema) schema
        [.index i] [] x
  | itemInTurn {schemas schema xs i x} (stands : xs[i]? = some x)
      (declared : schemas[i]? = some schema) :
      Enters validator sub base (.itemsInTurn schemas) (.arr xs) (baseInside base schema) schema
        [.index i] [.index i] x
  | additionalItem {n members xs i x} (behind : n ≤ i) (stands : xs[i]? = some x) :
      Enters validator sub base (.additionalItems (some n) (.obj members)) (.arr xs)
        (baseInside base (.obj members)) (.obj members) [.index i] [] x
  | dependency {entries property schema ms} (mem : (property, .schema schema) ∈ entries)
      (present : hasKey ms property = true) :
      Enters validator sub base (.dependencies entries) (.obj ms) (baseInside base schema) schema
        [] [.key property] (.obj ms)
  | branch {schemas i schema v} (declared : schemas[i]? = some schema) :
      Enters validator sub base (.allOf schemas) v (baseInside base schema) schema [] [.index i] v
  | whenMet {test schema other v} (tested : (sub base test v).accepts = .ok true) :
      Enters validator sub base (.conditional test (some schema) other) v (baseInside base schema)
        schema [] [.key "then"] v
  | whenUnmet {test schema other v} (tested : (sub base test v).accepts = .ok false) :
      Enters validator sub base (.conditional test other (some schema)) v (baseInside base schema)
        schema [] [.key "else"] v

/-- Where a finding of a keyword comes from: from the keyword itself, from an entered schema that allows
nothing, or from an entered schema that judges without a fault. -/
inductive Keyword.FoundBy (validator : Validator) (sub : Judge) (base : String) (k : Keyword) (v : Json)
    (y : Violation) : Prop
  | own (here : y = .here y.complaint v) (name : y.keyword = k.name) : FoundBy validator sub base k v y
  | refused {inside steps schemaSteps x} (complaint : y.complaint = .nothingAllowed)
      (enters : Enters validator sub base k v inside (.bool false) steps schemaSteps x) :
      FoundBy validator sub base k v y
  | entered {inside schema steps schemaSteps x inner}
      (enters : Enters validator sub base k v inside schema steps schemaSteps x)
      (sound : (sub inside schema x).fault? = none) (mem : inner ∈ (sub inside schema x).violations)
      (above : y = inner.under steps schemaSteps) : FoundBy validator sub base k v y

/-! ## Both ways -/

/-- What several outcomes in turn find, one of them finds, without a fault. -/
theorem Outcome.part_of_found {α : Type} {f : α → Outcome} {parts : List α} {y : Violation}
    (sound : (concat (parts.map f)).fault? = none) (hy : y ∈ (concat (parts.map f)).violations) :
    ∃ a ∈ parts, (f a).fault? = none ∧ y ∈ (f a).violations := by
  obtain ⟨o, ho, hy⟩ := mem_violations_concat hy
  obtain ⟨a, ha, rfl⟩ := List.mem_map.mp ho
  exact ⟨a, ha, sound_of_mem sound ha, hy⟩

variable {validator : Validator} {sub : Judge} {base inside : String} {k : Keyword} {v x schema : Json}
  {steps schemaSteps : Position} {y : Violation}

theorem Judge.descend_of_ne (h : schema ≠ .bool false) :
    sub.descend base schema steps schemaSteps x =
      (sub (baseInside base schema) schema x).under steps schemaSteps := by
  unfold Judge.descend
  split
  · exact absurd rfl h
  · rfl

namespace Keyword

theorem FoundBy.of_descend
    (enters : Enters validator sub base k v (baseInside base schema) schema steps schemaSteps x)
    (sound : (sub.descend base schema steps schemaSteps x).fault? = none)
    (hy : y ∈ (sub.descend base schema steps schemaSteps x).violations) :
    FoundBy validator sub base k v y := by
  by_cases hrefuses : schema = .bool false
  · subst hrefuses
    rw [List.mem_singleton.mp hy]
    exact .refused rfl enters
  · rw [Judge.descend_of_ne hrefuses] at sound hy
    obtain ⟨inner, hinner, rfl⟩ := mem_under.mp hy
    exact .entered enters sound hinner rfl

theorem FoundBy.of_owned {o : Outcome} (h : o.Owned v k.name) (hy : y ∈ o.violations) :
    FoundBy validator sub base k v y := by
  obtain ⟨hhere, hname⟩ := h y hy
  exact .own hhere hname

/-- **What a keyword finds is its own, or was found behind an entrance.** -/
theorem found_by (sound : (k.judge validator sub base v).fault? = none)
    (hy : y ∈ (k.judge validator sub base v).violations) : FoundBy validator sub base k v y := by
  cases hpasses : k.passesOn with
  | false => exact .of_owned (own_findings hpasses) hy
  | true =>
    cases k with
    | type | enum | const | bound | multipleOf | count | uniqueItems | pattern => cases hpasses
    | format | required | contains | anyOf | oneOf | forbid => cases hpasses
    | reference target =>
      rw [Keyword.judge] at sound hy
      obtain ⟨⟨schema, inside⟩, hresolved⟩ := sound_ofExcept sound
      rw [hresolved] at sound hy
      exact .entered (.reference hresolved) sound hy rfl
    | properties schemas =>
      cases v with
      | obj ms =>
        obtain ⟨⟨name, schema⟩, hdeclared, hsound, hy⟩ := part_of_found sound hy
        cases hstands : ms.lookup name with
        | none =>
          simp only [hstands] at hy
          cases hy
        | some x =>
          simp only [hstands] at hsound hy
          exact .of_descend (.property hdeclared hstands) hsound hy
      | null | bool | num | str | arr => cases hy
    | patternProperties schemas =>
      cases v with
      | obj ms =>
        obtain ⟨⟨regex, schema⟩, hdeclared, hsound, hy⟩ := part_of_found sound hy
        obtain ⟨⟨key, x⟩, hmem, hsound, hy⟩ := part_of_found hsound hy
        obtain ⟨matching, hmatching⟩ := sound_ofExcept hsound
        simp only [hmatching] at hsound hy
        cases matching with
        | false => cases hy
        | true => exact .of_descend (.pattern hdeclared hmem hmatching) hsound hy
      | null | bool | num | str | arr => cases hy
    | propertyNames schema =>
      cases v with
      | obj ms =>
        obtain ⟨⟨key, x⟩, hmem, hsound, hy⟩ := part_of_found sound hy
        exact .of_descend (.name hmem) hsound hy
      | null | bool | num | str | arr => cases hy
    | additionalProperties declared patterns schema =>
      cases v with
      | obj ms =>
        rw [Keyword.judge] at sound hy
        obtain ⟨extras, hextras⟩ := sound_ofExcept sound
        rw [hextras] at sound hy
        cases schema with
        | obj members =>
          obtain ⟨key, hextra, hsound, hy⟩ := part_of_found sound hy
          cases hstands : ms.lookup key with
          | none =>
            simp only [hstands] at hy
            cases hy
          | some x =>
            simp only [hstands] at hsound hy
            exact .of_descend (.additional hextras hextra hstands) hsound hy
        | null | bool | num | str | arr => cases hpasses
      | null | bool | num | str | arr => cases hy
    | items schema =>
      cases v with
      | arr xs =>
        obtain ⟨⟨x, i⟩, hmem, hsound, hy⟩ := part_of_found sound hy
        exact .of_descend (.item (List.mk_mem_zipIdx_iff_getElem?.mp hmem)) hsound hy
      | null | bool | num | str | obj => cases hy
    | itemsInTurn schemas =>
      cases v with
      | arr xs =>
        obtain ⟨⟨⟨x, schema⟩, i⟩, hmem, hsound, hy⟩ := part_of_found sound hy
        obtain ⟨hstands, hdeclared⟩ :=
          List.getElem?_zip_eq_some.mp (List.mk_mem_zipIdx_iff_getElem?.mp hmem)
        exact .of_descend (.itemInTurn hstands hdeclared) hsound hy
      | null | bool | num | str | obj => cases hy
    | additionalItems covered schema =>
      cases v with
      | arr xs =>
        cases covered with
        | none => cases sound
        | some n =>
          cases schema with
          | obj members =>
            obtain ⟨⟨x, i⟩, hmem, hsound, hy⟩ := part_of_found sound hy
            obtain ⟨hbehind, hget⟩ := List.mk_mem_zipIdx_iff_le_and_getElem?_sub.mp hmem
            rw [List.getElem?_drop, Nat.add_sub_cancel' hbehind] at hget
            exact .of_descend (.additionalItem hbehind hget) hsound hy
          | bool b =>
            cases b with
            | true => cases hy
            | false => exact .of_owned (owned_require rfl) hy
          | null | num | str | arr => cases hy
      | null | bool | num | str | obj => cases covered <;> cases hy
    | dependencies entries =>
      cases v with
      | obj ms =>
        obtain ⟨⟨property, dependency⟩, hmem, hsound, hy⟩ := part_of_found sound hy
        cases hpresent : hasKey ms property with
        | false =>
          simp only [hpresent] at hy
          cases hy
        | true =>
          simp only [hpresent, if_true] at hsound hy
          cases dependency with
          | properties names => exact .of_owned (owned_concat fun name => owned_require rfl) hy
          | schema schema => exact .of_descend (.dependency hmem hpresent) hsound hy
      | null | bool | num | str | arr => cases hy
    | allOf schemas =>
      obtain ⟨⟨schema, i⟩, hmem, hsound, hy⟩ := part_of_found sound hy
      exact .of_descend (.branch (List.mk_mem_zipIdx_iff_getElem?.mp hmem)) hsound hy
    | conditional test whenMet whenUnmet =>
      rw [Keyword.judge] at sound hy
      obtain ⟨met, htested⟩ := sound_ofExcept sound
      rw [htested] at sound hy
      cases met with
      | true =>
        cases whenMet with
        | none => cases whenUnmet <;> cases hy
        | some schema => exact .of_descend (.whenMet htested) sound hy
      | false =>
        cases whenUnmet with
        | none => cases whenMet <;> cases hy
        | some schema =>
          cases whenMet with
          | none | some => exact .of_descend (.whenUnmet htested) sound hy

/-- What is found by descending into a schema that does not refuse everything. -/
theorem found_of_descend {o : Outcome} (refuses : schema ≠ .bool false)
    (sound : (sub.descend base schema steps schemaSteps x).fault? = none)
    (hfound : ∀ y ∈ (sub.descend base schema steps schemaSteps x).violations, y ∈ o.violations) :
    (sub (baseInside base schema) schema x).fault? = none ∧
      ∀ y ∈ (sub (baseInside base schema) schema x).violations,
        y.under steps schemaSteps ∈ o.violations := by
  rw [Judge.descend_of_ne refuses] at sound hfound
  exact ⟨sound, fun y hy => hfound _ (mem_under.mpr ⟨y, hy, rfl⟩)⟩

/-- **What is found behind an entrance, the keyword finds.** -/
theorem Enters.found (enters : Enters validator sub base k v inside schema steps schemaSteps x)
    (refuses : schema ≠ .bool false) (sound : (k.judge validator sub base v).fault? = none) :
    (sub inside schema x).fault? = none ∧ ∀ y ∈ (sub inside schema x).violations,
      y.under steps schemaSteps ∈ (k.judge validator sub base v).violations := by
  cases enters with
  | reference hresolved =>
    rw [Keyword.judge, hresolved] at sound ⊢
    exact ⟨sound, fun y hy => hy⟩
  | property hdeclared hstands =>
    have hpart := sound_of_mem sound hdeclared
    simp only [hstands] at hpart
    refine found_of_descend refuses hpart fun y hy => found_of_mem sound hdeclared ?_
    simp only [hstands]
    exact hy
  | pattern hdeclared hmem hmatching =>
    have hpattern := sound_of_mem sound hdeclared
    have hpart := sound_of_mem hpattern hmem
    simp only [hmatching] at hpart
    refine found_of_descend refuses hpart fun y hy => ?_
    refine found_of_mem sound hdeclared (found_of_mem hpattern hmem ?_)
    simp only [hmatching]
    exact hy
  | name hmem =>
    have hpart := sound_of_mem sound hmem
    exact found_of_descend refuses hpart fun y hy => found_of_mem sound hmem hy
  | additional hcounted hextra hstands =>
    rw [Keyword.judge, hcounted] at sound ⊢
    have hpart := sound_of_mem sound hextra
    simp only [hstands] at hpart
    refine found_of_descend refuses hpart fun y hy => found_of_mem sound hextra ?_
    simp only [hstands]
    exact hy
  | @item schema xs i x hstands =>
    have hmem : (x, i) ∈ xs.zipIdx 0 := List.mk_mem_zipIdx_iff_getElem?.mpr hstands
    have hpart := sound_of_mem sound hmem
    exact found_of_descend refuses hpart fun y hy => found_of_mem sound hmem hy
  | @itemInTurn schemas schema xs i x hstands hdeclared =>
    have hmem : ((x, schema), i) ∈ (xs.zip schemas).zipIdx 0 :=
      List.mk_mem_zipIdx_iff_getElem?.mpr (List.getElem?_zip_eq_some.mpr ⟨hstands, hdeclared⟩)
    have hpart := sound_of_mem sound hmem
    exact found_of_descend refuses hpart fun y hy => found_of_mem sound hmem hy
  | @additionalItem n members xs i x hbehind hstands =>
    have hmem : (x, i) ∈ (xs.drop n).zipIdx n := by
      refine List.mk_mem_zipIdx_iff_le_and_getElem?_sub.mpr ⟨hbehind, ?_⟩
      rw [List.getElem?_drop, Nat.add_sub_cancel' hbehind]
      exact hstands
    have hpart := sound_of_mem sound hmem
    exact found_of_descend refuses hpart fun y hy => found_of_mem sound hmem hy
  | dependency hmem hpresent =>
    have hpart := sound_of_mem sound hmem
    simp only [hpresent, if_true] at hpart
    refine found_of_descend refuses hpart fun y hy => found_of_mem sound hmem ?_
    simp only [hpresent, if_true]
    exact hy
  | @branch schemas i schema v hdeclared =>
    have hmem : (schema, i) ∈ schemas.zipIdx 0 := List.mk_mem_zipIdx_iff_getElem?.mpr hdeclared
    have hpart := sound_of_mem sound hmem
    exact found_of_descend refuses hpart fun y hy => found_of_mem sound hmem hy
  | whenMet htested =>
    rw [Keyword.judge, htested] at sound ⊢
    exact found_of_descend refuses sound fun y hy => hy
  | @whenUnmet test schema other v htested =>
    rw [Keyword.judge, htested] at sound ⊢
    cases other with
    | none | some => exact found_of_descend refuses sound fun y hy => hy

end Keyword

end JsonMend
