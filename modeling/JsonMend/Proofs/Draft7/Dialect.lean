import Mathlib.Logic.Relation
import JsonMend.Proofs.Draft7.Kin
import JsonMend.Proofs.Draft7.Way
/-
  Schemas in one dialect.

  A schema inside another may name a draft to be judged by, and a reference may lead to the metaschema of a draft.  Where
  neither is the case, all is judged by draft-07, as if no other draft were known.

  1. **Getting on** (`Registry.next`, `Registry.Reaches`) — from a schema a judging gets to the schemas that its members
     hold and to what its reference leads to, and so on.
  2. **One dialect** (`Registry.OneDialect`) — nothing that the root leads to names another draft, and no reference on
     the way leads to the metaschema of one.  A list of places that nothing leads out of decides it
     (`Registry.oneDialect_of_places`).
  3. **Ways** (`Way.reaches`) — a way that begins in one dialect gets to what its schema leads to, by draft-07.
  4. **Other orders** (`Registry.StaysHome.of_akin`) — where there are no references, the order of members does not
     matter, nor does the URI.
  5. **No draft known** (`Validator.judgeWith_native`) — by induction on the rounds: what a schema in one dialect finds
     is kept where no draft is known.
-/
namespace JsonMend

open Outcome

/-! ## Getting on -/

namespace Keyword

variable {members : Members} {name : String} {value schema : Json} {k : Keyword}

/-- **What a keyword holds, a member of its schema holds.** -/
theorem held_of_schemas (hmem : (name, value) ∈ applicable members)
    (h : ofMember members name value = .ok (some k)) (hs : schema ∈ k.schemas) :
    ∃ m ∈ applicable members, schema ∈ heldSchemas m.1 m.2 := by
  have hread := readFrom_of_ofMember h
  have hown := read?_of_ofMember h
  cases name_of_ofMember h
  have beside : ∀ {key : String}, key ∈ schemaKeywords → members.lookup key = some schema →
      k.name ≠ "$ref" → ∃ m ∈ applicable members, schema ∈ heldSchemas m.1 m.2 := by
    intro key hkey hlookup hname
    rw [Validator.applicable_of_mem hmem hname]
    refine ⟨_, mem_keys_of_lookup hlookup, ?_⟩
    have hitems : key ≠ "items" := by
      rintro rfl
      exact absurd hkey (by decide)
    unfold heldSchemas
    rw [if_neg hitems, if_pos hkey]
    exact List.mem_singleton_self schema
  cases k with
  | properties | patternProperties =>
    cases hread
    exact ⟨_, hmem, hs⟩
  | propertyNames | additionalProperties | additionalItems | contains | forbid =>
    cases hread
    exact ⟨_, hmem, hs⟩
  | items =>
    cases hread
    refine ⟨_, hmem, ?_⟩
    cases value with
    | arr => cases hown
    | null | bool | num | str | obj => exact hs
  | itemsInTurn | allOf | anyOf | oneOf =>
    cases hread
    exact ⟨_, hmem, hs⟩
  | dependencies =>
    obtain ⟨ms, rfl, -, hschemas⟩ := hread
    obtain ⟨⟨property, dependency⟩, hentry, hs⟩ := List.mem_filterMap.mp hs
    cases dependency with
    | properties => cases hs
    | schema s =>
      cases hs
      exact ⟨_, hmem, List.mem_map_of_mem (hschemas _ _ hentry)⟩
  | conditional test whenMet whenUnmet =>
    obtain ⟨rfl, rfl, rfl⟩ := hread
    simp only [schemas, List.mem_cons, List.mem_append, Option.mem_toList] at hs
    rcases hs with rfl | hs | hs
    · exact ⟨_, hmem, List.mem_singleton_self _⟩
    · exact beside (by decide) hs (by simp [Keyword.name])
    · exact beside (by decide) hs (by simp [Keyword.name])
  | reference | type | enum | const | bound | multipleOf | count | uniqueItems | pattern | format | required =>
    cases hs

end Keyword

namespace Registry

variable {r : Registry} {p q : String × Json}

/-- What a judging gets to from a schema under a URI: the schemas that its members hold, under that URI or the one
inside them, and what its reference leads to. -/
def next (r : Registry) : String × Json → List (String × Json)
  | (base, .obj members) => (Keyword.applicable members).flatMap fun (name, value) =>
      (heldSchemas name value).flatMap (fun s => [(base, s), (baseInside base s, s)]) ++
        match name, value with
        | "$ref", .str target => ((r.resolve base target).toOption.map Prod.swap).toList
        | _, _ => []
  | _ => []

/-- A judging gets to a place from another in one step or more. -/
abbrev Reaches (r : Registry) : String × Json → String × Json → Prop :=
  Relation.TransGen fun p q => q ∈ r.next p

/-- Whether the reference of a schema leads to the metaschema of another draft. -/
def leadsAbroad (r : Registry) : String × Json → Bool
  | (base, schema) =>
    match schema.get? "$ref" with
    | some (.str target) =>
      match r.resolve base target with
      | .error (.otherDraft _) => true
      | _ => false
    | _ => false

/-! ## One dialect -/

/-- No schema that a judging gets to names another draft. -/
def StaysHome (r : Registry) (p : String × Json) : Prop := ∀ q, r.Reaches p q → q.2.namesOtherDraft = false

/-- The place of the root. -/
def rootPlace (r : Registry) : String × Json := (r.rootUri, r.root)

/-- Nothing that the root leads to names another draft, and no reference on the way leads to the metaschema of one. -/
structure OneDialect (r : Registry) : Prop where
  schemas : r.StaysHome r.rootPlace
  references : ∀ p, p = r.rootPlace ∨ r.Reaches r.rootPlace p → r.leadsAbroad p = false

theorem StaysHome.step (h : r.StaysHome p) (hq : q ∈ r.next p) : q.2.namesOtherDraft = false ∧ r.StaysHome q :=
  ⟨h q (.single hq), fun s hs => h s (.head hq hs)⟩

/-- What a place leads to is among places that nothing leads out of. -/
theorem Reaches.mem {places : List (String × Json)} (first : ∀ q ∈ r.next p, q ∈ places)
    (closed : ∀ s ∈ places, ∀ q ∈ r.next s, q ∈ places) (h : r.Reaches p q) : q ∈ places := by
  induction h with
  | single hq => exact first _ hq
  | tail _ hq ih => exact closed _ ih _ hq

/-- The places that a judging gets to in a number of steps, and those that it came from. -/
def placesWithin (r : Registry) : Nat → List (String × Json) → List (String × Json)
  | 0, places => places
  | steps + 1, places => r.placesWithin steps (places.flatMap r.next ∪ places)

/-- Whether a schema is in one dialect, if a judging gets to no other places than within a number of steps. -/
def isOneDialect (r : Registry) (steps : Nat) : Bool :=
  let places := r.placesWithin steps (r.next r.rootPlace)
  !r.leadsAbroad r.rootPlace && (r.next r.rootPlace).all (places.contains ·) &&
    places.all fun p => !p.2.namesOtherDraft && !r.leadsAbroad p && (r.next p).all (places.contains ·)

theorem oneDialect_of_places (steps : Nat) (h : r.isOneDialect steps = true) : r.OneDialect := by
  simp only [isOneDialect, Bool.and_eq_true, List.all_eq_true, List.contains_iff_mem, Bool.not_eq_eq_eq_not,
    Bool.not_true] at h
  obtain ⟨⟨hroot, hfirst⟩, hplaces⟩ := h
  have hreached : ∀ {p}, r.Reaches r.rootPlace p → p ∈ r.placesWithin steps (r.next r.rootPlace) :=
    fun hp => hp.mem hfirst fun s hs => (hplaces s hs).2
  refine ⟨fun p hp => (hplaces p (hreached hp)).1.1, fun p hp => ?_⟩
  rcases hp with rfl | hp
  · exact hroot
  · exact (hplaces p (hreached hp)).1.2

/-- What a keyword consults, its schema leads to. -/
theorem mem_next {validator : Validator} {base inside name : String} {members : Members} {value v schema x : Json}
    {k : Keyword} (hmem : (name, value) ∈ Keyword.applicable members)
    (h : Keyword.ofMember members name value = .ok (some k))
    (consults : k.Consults validator base v inside schema x) :
    (inside, schema) ∈ validator.registry.next (base, .obj members) := by
  cases consults with
  | @reference target _ _ _ hresolved =>
    refine List.mem_flatMap.mpr ⟨_, hmem, List.mem_append_right _ ?_⟩
    cases Keyword.name_of_ofMember h
    obtain ⟨t, hvalue, heq⟩ := Option.map_eq_some_iff.mp (Keyword.read?_of_ofMember h)
    cases heq
    cases value with
    | str s =>
      cases hvalue
      show (inside, schema) ∈ ((validator.registry.resolve base target).toOption.map Prod.swap).toList
      rw [hresolved]
      exact List.mem_singleton_self _
    | null | bool | num | arr | obj => cases hvalue
  | held hs huri =>
    obtain ⟨m, hm, hheld⟩ := Keyword.held_of_schemas hmem h hs
    refine List.mem_flatMap.mpr ⟨m, hm, List.mem_append_left _ (List.mem_flatMap.mpr ⟨schema, hheld, ?_⟩)⟩
    rcases huri with rfl | rfl
    · exact List.mem_cons_self
    · exact List.mem_cons_of_mem _ (List.mem_singleton_self _)

end Registry

/-! ## Ways -/

/-- **A way that begins in one dialect stays with draft-07**, and gets to what its schema leads to. -/
theorem Way.reaches {validator : Validator} {start last : Stand} {place schemaPlace : Position}
    (h : Way validator start place schemaPlace last) (draft : start.draft = .draft7)
    (home : validator.registry.StaysHome (start.base, start.schema)) : last.draft = .draft7 ∧
      Relation.ReflTransGen (fun p q => q ∈ validator.registry.next p) (start.base, start.schema)
        (last.base, last.schema) := by
  induction h with
  | here => exact ⟨draft, .refl⟩
  | down hmem hr henters _ ih =>
    cases (draft : _ = Draft.draft7)
    obtain ⟨k, rfl, hk⟩ := Rule.shared_of_draft7 hr
    cases henters with
    | shared henters =>
      have hnext := Registry.mem_next hmem hk henters.consults
      obtain ⟨hdraft, hrest⟩ := home.step hnext
      obtain ⟨hlast, hreached⟩ := ih (Validator.draftOf_of_home hdraft) hrest
      exact ⟨hlast, .head hnext hreached⟩

/-! ## Other orders -/

namespace Registry

variable {r r' : Registry} {p p' q' : String × Json}

/-- A schema that is no reference gets to what its members hold. -/
theorem mem_next_of_no_reference {members : Members} {base : String} {q : String × Json}
    (reference : members.lookup "$ref" = none) :
    q ∈ r.next (base, .obj members) ↔
      ∃ m ∈ members, ∃ s ∈ heldSchemas m.1 m.2, q = (base, s) ∨ q = (baseInside base s, s) := by
  rw [next, Validator.applicable_of_no_reference reference, List.mem_flatMap]
  refine exists_congr fun m => and_congr_right fun hm => ?_
  obtain ⟨name, value⟩ := m
  have hname : name ≠ "$ref" := by
    rintro rfl
    exact lookup_eq_none_iff.mp reference (List.mem_map_of_mem hm)
  rw [List.mem_append]
  constructor
  · rintro (h | h)
    · obtain ⟨s, hs, hq⟩ := List.mem_flatMap.mp h
      exact ⟨s, hs, by simpa using hq⟩
    · split at h
      · exact absurd rfl hname
      · cases h
  · rintro ⟨s, hs, hq⟩
    exact .inl (List.mem_flatMap.mpr ⟨s, hs, by simpa using hq⟩)

end Registry

/-! ## No draft known -/

namespace Validator

variable {validator : Validator} {rounds : Nat} {base : String} {schema v : Json}

/-- A validator that knows of no draft. -/
def native (validator : Validator) : Validator := { validator with drafts := [] }

theorem native_drafts (validator : Validator) : validator.native.drafts = [] := rfl

/-- One keyword does not look at the drafts. -/
theorem keyword_native (k : Keyword) (sub : Judge) : k.judge validator.native sub base v = k.judge validator sub base v := by
  cases k <;> rfl

/-- **What a schema in one dialect finds is kept where no draft is known.** -/
theorem judgeWith_native (home : validator.registry.StaysHome (base, schema)) :
    (validator.judgeWith rounds base schema v).Keeps (validator.native.judgeWith rounds base schema v) := by
  induction rounds generalizing base schema v with
  | zero => exact .refl _
  | succ rounds ih =>
    cases schema with
    | obj members =>
      rw [judgeWith_obj, judgeWith_obj]
      refine .concat_map ?_
      rintro ⟨name, value⟩ hmem
      refine .ofExcept (.refl _) fun k? hk => ?_
      cases k? with
      | none => exact .refl _
      | some k =>
        simp only [keyword_native]
        refine .under (Keyword.judge_keeps fun inside schema x hconsults => ?_) _ _
        obtain ⟨hdraft, hrest⟩ := home.step (Registry.mem_next hmem hk hconsults)
        rw [inner_of_home (draftOf_of_home hdraft), inner_of_native validator.native_drafts]
        exact ih hrest
    | bool b => cases b <;> exact .refl _
    | null | num | str | arr => exact .refl _

/-- A judging that completes is the same where no draft is known. -/
theorem judge_native_eq (home : validator.registry.StaysHome validator.registry.rootPlace)
    (completes : (validator.judge v).fault? = none) : validator.native.judge v = validator.judge v := by
  have hkeeps : (validator.judge v).Keeps (validator.native.judge v) := judgeWith_native home
  exact hkeeps.whole (by simp [completes])

end Validator

end JsonMend
