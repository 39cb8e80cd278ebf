import JsonMend.Service.Engine
import JsonMend.Proofs.Draft7.Judging
import JsonMend.Proofs.Json.Keys
/-
  How a schema is made ready.

  1. **The cache** — after a key was used, the cache holds what it held for it; after it was stored, the
     cache holds it or has forgotten it at once.
  2. **Making a schema ready** (`prepare_iff`) — a schema is served by the validator that the cache holds for
     it, or else by one made from it, if it is accepted.
  3. **Making it ready again** (`prepare_again`) — a second call gets the validator of the first one, from the
     cache or made anew.
-/
namespace JsonMend

/-! ## The cache -/

namespace RecencyCache

variable {α : Type} {c : RecencyCache α} {key : String}

theorem find?_touch (c : RecencyCache α) (key : String) : (c.touch key).find? key = c.find? key := by
  unfold touch
  cases hfound : c.find? key with
  | none => exact hfound
  | some v =>
    -- the key was taken out of the entries before it was put behind them
    have hgone : key ∉ (c.entries.filter (·.1 != key)).map Prod.fst := by
      intro hkey
      obtain ⟨e, he, rfl⟩ := List.mem_map.mp hkey
      exact absurd (List.mem_filter.mp he).2 (by simp)
    show ((c.entries.filter (·.1 != key)) ++ [(key, v)]).lookup key = some v
    rw [lookup_append_of_not_mem hgone, lookup_cons_if, if_pos rfl]

theorem find?_insert (v : α) (hnew : c.find? key = none) :
    (c.insert key v).find? key = some v ∨ (c.insert key v).find? key = none := by
  have hentries : assign key v c.entries = c.entries ++ [(key, v)] := by
    have h : assign key v (c.entries ++ []) = c.entries ++ [(key, v)] :=
      assign_append_of_not_mem (lookup_eq_none_iff.mp hnew)
    rwa [List.append_nil] at h
  have hnew : key ∉ c.entries.map Prod.fst := lookup_eq_none_iff.mp hnew
  unfold insert
  rw [hentries]
  dsimp only
  split
  · cases hcases : c.entries with
    | nil => exact .inr rfl
    | cons e rest =>
      rw [hcases] at hnew
      have hrest : key ∉ rest.map Prod.fst := fun h => hnew (List.mem_cons_of_mem _ h)
      left
      show (rest ++ [(key, v)]).lookup key = some v
      rw [lookup_append_of_not_mem hrest, lookup_cons_if, if_pos rfl]
  · left
    show (c.entries ++ [(key, v)]).lookup key = some v
    rw [lookup_append_of_not_mem hnew, lookup_cons_if, if_pos rfl]

end RecencyCache

namespace SchemaCache

variable {c : SchemaCache} {formats : Bool} {schema : Json} {validator : Validator}

theorem validatorFor_held (held : c.find? schema.canonicalText = some validator) :
    c.validatorFor formats schema = (.ok validator, c.touch schema.canonicalText) := by
  unfold validatorFor retrieve
  rw [held]

/-- What becomes of a schema that was not in the cache: it is stored, unless it was rejected. -/
def keep (c : SchemaCache) (schema : Json) :
    Except Validator.Rejection Validator → Except Validator.Rejection Validator × SchemaCache
  | .error rejection => (.error rejection, c)
  | .ok validator => (.ok validator, c.store schema validator)

theorem validatorFor_unheld (unheld : c.find? schema.canonicalText = none) :
    c.validatorFor formats schema = c.keep schema (Validator.compile formats schema) := by
  have hretrieve : c.retrieve schema = (none, c) := by
    rw [retrieve, RecencyCache.touch, unheld]
  unfold validatorFor
  rw [hretrieve]
  -- for any result, or the kernel computes what the metaschema finds
  generalize Validator.compile formats schema = result
  cases result with
  | error | ok => rfl

end SchemaCache

namespace Engine

variable {e : Engine} {operation : String} {schema : Json} {validator : Validator}

/-! ## Making a schema ready -/

/-- What the cache holds for a schema was made from this schema. -/
def Faithful (e : Engine) (schema : Json) : Prop :=
  ∀ validator, e.cache.find? schema.canonicalText = some validator →
    validator = .ofSchema e.settings.validateFormats schema

theorem fresh_faithful (settings : Settings) (schema : Json) : (fresh settings).Faithful schema := by
  intro validator h
  cases h

/-- How a schema was made ready: its validator was in the cache, or was made and stored. -/
inductive PrepareRun (e : Engine) (schema : Json) (validator : Validator) : Engine → Prop
  | found (object : schema.isObj = true)
      (held : e.cache.find? schema.canonicalText = some validator) :
      PrepareRun e schema validator { e with cache := e.cache.touch schema.canonicalText }
  | made (object : schema.isObj = true) (unheld : e.cache.find? schema.canonicalText = none)
      (compiled : Validator.compile e.settings.validateFormats schema = .ok validator) :
      PrepareRun e schema validator
        { e with cache := e.cache.insert schema.canonicalText validator }

theorem prepare_of_obj (object : schema.isObj = true) :
    e.prepare operation schema =
      ((e.cache.validatorFor e.settings.validateFormats schema).1.mapError
          (rejectedSchema operation),
        { e with cache := (e.cache.validatorFor e.settings.validateFormats schema).2 }) := by
  unfold prepare
  -- named, or the kernel computes what the metaschema finds to see that this is a pair
  generalize e.cache.validatorFor e.settings.validateFormats schema = result
  rw [if_pos object]

theorem prepare_cases (h : (e.prepare operation schema).1 = .ok validator) :
    PrepareRun e schema validator (e.prepare operation schema).2 := by
  cases hobject : schema.isObj with
  | false =>
    unfold prepare at h
    rw [hobject] at h
    cases h
  | true =>
    rw [prepare_of_obj hobject] at h ⊢
    cases hheld : e.cache.find? schema.canonicalText with
    | some other =>
      rw [SchemaCache.validatorFor_held hheld] at h ⊢
      cases h
      exact .found hobject hheld
    | none =>
      rw [SchemaCache.validatorFor_unheld hheld] at h ⊢
      generalize hcompiled : Validator.compile e.settings.validateFormats schema = result at h ⊢
      cases result with
      | error rejection => cases h
      | ok other =>
        cases h
        exact .made hobject hheld hcompiled

theorem prepare_held (object : schema.isObj = true)
    (held : e.cache.find? schema.canonicalText = some validator) :
    (e.prepare operation schema).1 = .ok validator := by
  rw [prepare_of_obj object, SchemaCache.validatorFor_held held]
  rfl

theorem prepare_made (object : schema.isObj = true)
    (unheld : e.cache.find? schema.canonicalText = none)
    (compiled : Validator.compile e.settings.validateFormats schema = .ok validator) :
    (e.prepare operation schema).1 = .ok validator := by
  rw [prepare_of_obj object, SchemaCache.validatorFor_unheld unheld, compiled]
  rfl

/-- A validator serves a schema: the cache holds it, or holds none and it is the one made from the schema,
which is accepted. -/
structure Serves (e : Engine) (schema : Json) (validator : Validator) : Prop where
  object : schema.isObj = true
  source : e.cache.find? schema.canonicalText = some validator ∨
    e.cache.find? schema.canonicalText = none ∧
      Validator.compile e.settings.validateFormats schema = .ok validator

/-- A fresh engine serves an accepted schema by the validator that is made from it. -/
theorem fresh_serves {settings : Settings} (object : schema.isObj = true)
    (accepted : (Validator.compile settings.validateFormats schema).toOption.isSome = true) :
    (fresh settings).Serves schema (.ofSchema settings.validateFormats schema) :=
  ⟨object, .inr ⟨rfl, Validator.compile_of_isSome accepted⟩⟩

/-- **A schema is made ready by the validator that serves it**, and by no other. -/
theorem prepare_iff : (e.prepare operation schema).1 = .ok validator ↔ e.Serves schema validator := by
  constructor
  · intro h
    have hrun := prepare_cases h
    generalize (e.prepare operation schema).2 = later at hrun
    cases hrun with
    | found hobject hheld => exact ⟨hobject, .inl hheld⟩
    | made hobject hunheld hcompiled => exact ⟨hobject, .inr ⟨hunheld, hcompiled⟩⟩
  · rintro ⟨hobject, hheld | ⟨hunheld, hcompiled⟩⟩
    · exact prepare_held hobject hheld
    · exact prepare_made hobject hunheld hcompiled

/-! ## Making it ready again -/

/-- **A schema that was made ready is made ready again by the same validator.** -/
theorem prepare_again (h : (e.prepare operation schema).1 = .ok validator) :
    ((e.prepare operation schema).2.prepare operation schema).1 = .ok validator := by
  have hrun := prepare_cases h
  generalize (e.prepare operation schema).2 = later at hrun ⊢
  cases hrun with
  | found hobject hheld =>
    refine prepare_held hobject ?_
    rw [RecencyCache.find?_touch]
    exact hheld
  | made hobject hunheld hcompiled =>
    rcases RecencyCache.find?_insert validator hunheld with hheld | hforgotten
    · exact prepare_held hobject hheld
    · exact prepare_made hobject hforgotten hcompiled

theorem prepare_faithful (faithful : e.Faithful schema)
    (h : (e.prepare operation schema).1 = .ok validator) :
    validator = .ofSchema e.settings.validateFormats schema := by
  have hrun := prepare_cases h
  generalize (e.prepare operation schema).2 = later at hrun
  cases hrun with
  | found _ hheld => exact faithful _ hheld
  | made _ _ hcompiled => exact Validator.compile_eq_ok hcompiled

end Engine

end JsonMend
