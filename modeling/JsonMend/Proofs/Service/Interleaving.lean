import JsonMend.Proofs.Service.Sharing
/-
  Several calls at once on one cache of schemas.

  A call holds the cache twice, and only for a moment: to look for its schema, and, if it was not there, to
  store the validator that it made in between.  So other calls may look, make and store between these two
  steps.

  1. **The cache** (`RecencyCache.Tidy`) — looking and storing keep the keys distinct and no more than the
     limit.  The crux is a key that is stored although it is there by now, because two calls missed it:
     it takes the place of its own entry, so nothing is forgotten.
  2. **One call** (`Caller.advance`) — its steps one by one; carried out without a break they are
     `validatorFor` (`run_alone`).
  3. **All calls** (`Shared.run`) — the calls take steps in the order of a schedule, which may be any list of
     their numbers.  One step of any of them keeps what is known of the cache and of every call
     (`Shared.Sound.step`), so every schedule does (`Shared.Sound.run`).

  Main result (`interleaving_safe`).  It holds at every moment, as what has happened up to a moment is a schedule
  too.
-/
namespace JsonMend

/-! ## The cache -/

namespace RecencyCache

variable {α : Type} {c : RecencyCache α}

/-- The keys are distinct and no more than the limit; a limit below zero is a limit of zero. -/
structure Tidy (c : RecencyCache α) : Prop where
  distinct : c.keys.Nodup
  bounded : c.keys.length ≤ c.limit.toNat

theorem tidy_empty (limit : Int) : (empty limit : RecencyCache α).Tidy :=
  ⟨List.nodup_nil, Nat.zero_le _⟩

theorem nodup_filter_concat {keys : List String} (h : keys.Nodup) (key : String) :
    (keys.filter (· != key) ++ [key]).Nodup := by
  refine List.nodup_append.mpr ⟨h.filter _, List.nodup_singleton key, ?_⟩
  rintro k hk _ hkey rfl
  cases List.mem_singleton.mp hkey
  simpa using (List.mem_filter.mp hk).2

theorem Tidy.touch (h : c.Tidy) (key : String) : (c.touch key).Tidy := by
  by_cases hheld : key ∈ c.keys
  · refine ⟨?_, ?_⟩
    · rw [keys_touch, if_pos hheld]
      exact nodup_filter_concat h.distinct key
    · have hgone : (c.keys.filter (· != key)).length < c.keys.length := by
        rw [List.length_filter_lt_length_iff_exists]
        exact ⟨key, hheld, by simp⟩
      have hbounded := h.bounded
      rw [keys_touch, if_pos hheld, limit_touch, List.length_append, List.length_singleton]
      omega
  · refine ⟨?_, ?_⟩
    · rw [keys_touch, if_neg hheld]
      exact h.distinct
    · rw [keys_touch, if_neg hheld, limit_touch]
      exact h.bounded

/-- Whether the key was there or not, at most one key is too many, and that one is dropped. -/
theorem Tidy.insert (h : c.Tidy) (key : String) (v : α) : (c.insert key v).Tidy := by
  have hdistinct : (if key ∈ c.keys then c.keys else c.keys ++ [key]).Nodup := by
    split
    · exact h.distinct
    · rename_i hunheld
      exact List.nodup_append.mpr ⟨h.distinct, List.nodup_singleton key, by
        rintro k hk _ hkey rfl
        cases List.mem_singleton.mp hkey
        exact hunheld hk⟩
  have hlength : (if key ∈ c.keys then c.keys else c.keys ++ [key]).length ≤ c.limit.toNat + 1 := by
    have hbounded := h.bounded
    split
    · omega
    · rw [List.length_append, List.length_singleton]
      omega
  generalize hkeys : (if key ∈ c.keys then c.keys else c.keys ++ [key]) = keys at hdistinct hlength
  have hinsert := keys_insert c key v
  rw [hkeys] at hinsert
  dsimp only at hinsert
  by_cases hfull : c.limit < keys.length
  · rw [if_pos hfull] at hinsert
    refine ⟨?_, ?_⟩
    · rw [hinsert]
      exact hdistinct.sublist (List.drop_sublist _ _)
    · rw [hinsert, limit_insert, List.length_drop]
      omega
  · rw [if_neg hfull] at hinsert
    refine ⟨?_, ?_⟩
    · rw [hinsert]
      exact hdistinct
    · rw [hinsert, limit_insert]
      omega

end RecencyCache

namespace SchemaCache

variable {formats : Bool} {limit : Int} {sources schemas : List Json} {schema : Json}
  {c : SchemaCache}

/-! ## One call -/

/-- How far a call has come. -/
inductive Progress where
  | waiting
  /-- It did not find its schema, which it has yet to check. -/
  | missed
  /-- It has made a validator, which it has yet to store. -/
  | made (validator : Validator)
  | done (result : Except Validator.Rejection Validator)

/-- What becomes of a schema that was checked. -/
def Progress.ofCompiled : Except Validator.Rejection Validator → Progress
  | .error rejection => .done (.error rejection)
  | .ok validator => .made validator

/-- A call for a validator. -/
structure Caller where
  schema : Json
  progress : Progress

/-- One step of a call on the cache as it finds it.  Only looking and storing hold the cache. -/
def Caller.advance (formats : Bool) (c : SchemaCache) (caller : Caller) : SchemaCache × Caller :=
  match caller.progress with
  | .waiting =>
    match c.retrieve caller.schema with
    | (some validator, c) => (c, { caller with progress := .done (.ok validator) })
    | (none, c) => (c, { caller with progress := .missed })
  | .missed => (c, { caller with progress := .ofCompiled (Validator.compile formats caller.schema) })
  | .made validator =>
    (c.store caller.schema validator, { caller with progress := .done (.ok validator) })
  | .done _ => (c, caller)

/-- The step that checks a schema, said apart so that no proof about steps computes what the metaschema
finds. -/
theorem Caller.advance_missed (formats : Bool) (c : SchemaCache) (schema : Json) :
    (Caller.mk schema .missed).advance formats c =
      (c, ⟨schema, .ofCompiled (Validator.compile formats schema)⟩) := rfl

/-- What a call has come by is right: a validator that it made is one of its schema, and one that it returns
was made from a schema with the same key. -/
inductive Progress.Sound (formats : Bool) (sources : List Json) (schema : Json) : Progress → Prop
  | waiting : Sound formats sources schema .waiting
  | missed : Sound formats sources schema .missed
  | made {validator} (compiled : Validator.compile formats schema = .ok validator) :
      Sound formats sources schema (.made validator)
  | returned {validator source} (mem : source ∈ sources)
      (key : source.canonicalText = schema.canonicalText)
      (compiled : Validator.compile formats source = .ok validator) :
      Sound formats sources schema (.done (.ok validator))
  | failed {rejection} (rejected : Validator.compile formats schema = .error rejection) :
      Sound formats sources schema (.done (.error rejection))

/-- What is known of a cache that serves the schemas. -/
structure Serves (formats : Bool) (limit : Int) (sources : List Json) (c : SchemaCache) : Prop where
  limit : c.limit = limit
  tidy : c.Tidy
  backed : Backed formats sources c

theorem serves_empty (formats : Bool) (limit : Int) (sources : List Json) :
    Serves formats limit sources (.empty limit) :=
  ⟨rfl, RecencyCache.tidy_empty limit, .empty limit⟩

theorem Serves.touch (h : Serves formats limit sources c) (key : String) :
    Serves formats limit sources (c.touch key) :=
  ⟨(RecencyCache.limit_touch c key).trans h.limit, h.tidy.touch key, h.backed.touch key⟩

theorem Serves.store {validator : Validator} (h : Serves formats limit sources c)
    (mem : schema ∈ sources) (made : Validator.compile formats schema = .ok validator) :
    Serves formats limit sources (c.store schema validator) :=
  ⟨h.limit, h.tidy.insert _ _, h.backed.store mem made⟩

theorem Caller.advance_schema (formats : Bool) (c : SchemaCache) (caller : Caller) :
    (caller.advance formats c).2.schema = caller.schema := by
  obtain ⟨schema, progress⟩ := caller
  cases progress with
  | waiting =>
    unfold advance
    dsimp only
    split <;> rfl
  | missed => rw [advance_missed]
  | made | done => rfl

/-- **One step of a call keeps what is known**, of the cache and of the call. -/
theorem Caller.advance_sound {caller : Caller} (hserves : Serves formats limit sources c)
    (mem : caller.schema ∈ sources) (h : caller.progress.Sound formats sources caller.schema) :
    Serves formats limit sources (caller.advance formats c).1 ∧
      (caller.advance formats c).2.progress.Sound formats sources caller.schema := by
  obtain ⟨schema, progress⟩ := caller
  cases h with
  | waiting =>
    have hlook := hserves.touch schema.canonicalText
    cases hheld : c.find? schema.canonicalText with
    | some validator =>
      obtain ⟨source, hsource, hkey, hcompiled⟩ := hserves.backed.find? hheld
      simp only [advance, retrieve, hheld]
      exact ⟨hlook, .returned hsource hkey hcompiled⟩
    | none =>
      simp only [advance, retrieve, hheld]
      exact ⟨hlook, .missed⟩
  | missed =>
    rw [advance_missed]
    generalize hcompiled : Validator.compile formats schema = result
    cases result with
    | error rejection => exact ⟨hserves, .failed hcompiled⟩
    | ok validator => exact ⟨hserves, .made hcompiled⟩
  | made compiled => exact ⟨hserves.store mem compiled, .returned mem rfl compiled⟩
  | returned hsource hkey compiled => exact ⟨hserves, .returned hsource hkey compiled⟩
  | failed rejected => exact ⟨hserves, .failed rejected⟩

/-- How many steps a call has behind it, when it needs all three. -/
def Progress.rank : Progress → Nat
  | .waiting => 0
  | .missed => 1
  | .made _ => 2
  | .done _ => 3

theorem Caller.rank_advance (formats : Bool) (c : SchemaCache) (caller : Caller) :
    min 3 (caller.progress.rank + 1) ≤ (caller.advance formats c).2.progress.rank := by
  obtain ⟨schema, progress⟩ := caller
  cases progress with
  | waiting =>
    unfold advance
    dsimp only
    split <;> simp [Progress.rank]
  | missed =>
    rw [advance_missed]
    generalize Validator.compile formats schema = result
    cases result <;> simp [Progress.ofCompiled, Progress.rank]
  | made | done => simp [advance, Progress.rank]

/-! ## All calls -/

/-- The cache and the calls that share it. -/
structure Shared where
  cache : SchemaCache
  callers : List Caller

namespace Shared

variable {shared : Shared}

/-- No call has begun, and the cache is empty. -/
def start (limit : Int) (schemas : List Json) : Shared :=
  ⟨.empty limit, schemas.map (⟨·, .waiting⟩)⟩

/-- A step of the call of the given number. -/
def step (formats : Bool) (shared : Shared) (i : Nat) : Shared :=
  match shared.callers[i]? with
  | none => shared
  | some caller =>
    let (cache, caller) := caller.advance formats shared.cache
    ⟨cache, shared.callers.set i caller⟩

/-- The steps of the calls of the given numbers, in turn. -/
def run (formats : Bool) (shared : Shared) (schedule : List Nat) : Shared :=
  schedule.foldl (step formats) shared

/-- What is known of the cache and of every call. -/
structure Sound (formats : Bool) (limit : Int) (schemas : List Json) (shared : Shared) : Prop where
  cache : Serves formats limit schemas shared.cache
  calls : shared.callers.map Caller.schema = schemas
  callers : ∀ caller ∈ shared.callers, caller.progress.Sound formats schemas caller.schema

theorem sound_start (formats : Bool) (limit : Int) (schemas : List Json) :
    (start limit schemas).Sound formats limit schemas := by
  refine ⟨serves_empty formats limit schemas, ?_, ?_⟩
  · rw [start, List.map_map]
    exact List.map_id _
  · intro caller hmem
    obtain ⟨schema, -, rfl⟩ := List.mem_map.mp hmem
    exact .waiting

theorem Sound.step (h : shared.Sound formats limit schemas) (i : Nat) :
    (shared.step formats i).Sound formats limit schemas := by
  unfold Shared.step
  cases hcaller : shared.callers[i]? with
  | none => exact h
  | some caller =>
    have hmem : caller ∈ shared.callers := List.mem_of_getElem? hcaller
    have hschema : caller.schema ∈ schemas := by
      rw [← h.calls]
      exact List.mem_map_of_mem hmem
    have hkeeps := Caller.advance_schema formats shared.cache caller
    obtain ⟨hcache, hprogress⟩ := Caller.advance_sound h.cache hschema (h.callers caller hmem)
    rw [← hkeeps] at hprogress
    refine ⟨hcache, ?_, fun other hother => ?_⟩
    · have hsame : (shared.callers.map Caller.schema)[i]? = some caller.schema := by
        rw [List.getElem?_map, hcaller, Option.map_some]
      obtain ⟨hlength, hsame⟩ := List.getElem?_eq_some_iff.mp hsame
      rw [List.map_set, hkeeps, ← hsame, List.set_getElem_self hlength]
      exact h.calls
    · rcases List.mem_or_eq_of_mem_set hother with hother | rfl
      · exact h.callers other hother
      · exact hprogress

theorem Sound.run (h : shared.Sound formats limit schemas) (schedule : List Nat) :
    (shared.run formats schedule).Sound formats limit schemas := by
  induction schedule generalizing shared with
  | nil => exact h
  | cons i rest ih => exact ih (h.step i)

/-- The call of each number is about its own schema. -/
theorem Sound.caller {i : Nat} (h : shared.Sound formats limit schemas) (hschema : schemas[i]? = some schema) :
    ∃ progress, shared.callers[i]? = some ⟨schema, progress⟩ ∧ progress.Sound formats schemas schema := by
  have hmap : (shared.callers.map Caller.schema)[i]? = some schema := by rw [h.calls, hschema]
  rw [List.getElem?_map, Option.map_eq_some_iff] at hmap
  obtain ⟨⟨_, progress⟩, hcaller, rfl⟩ := hmap
  exact ⟨progress, hcaller, h.callers _ (List.mem_of_getElem? hcaller)⟩

/-! ### Progress -/

/-- The number of steps that a call has behind it; a number that is no call's counts as done. -/
def rankAt (shared : Shared) (i : Nat) : Nat :=
  match shared.callers[i]? with
  | none => 3
  | some caller => caller.progress.rank

theorem rankAt_step (formats : Bool) (shared : Shared) (i j : Nat) :
    min 3 (shared.rankAt i + if j = i then 1 else 0) ≤ (shared.step formats j).rankAt i := by
  unfold step
  cases hcaller : shared.callers[j]? with
  | none =>
    by_cases hij : j = i
    · subst hij
      simp [rankAt, hcaller]
    · simp [hij]
  | some caller =>
    have hlength : j < shared.callers.length := (List.getElem?_eq_some_iff.mp hcaller).1
    by_cases hij : j = i
    · subst hij
      have hrank := Caller.rank_advance formats shared.cache caller
      simpa [rankAt, hcaller, List.getElem?_set_self hlength] using hrank
    · simp [rankAt, hij, List.getElem?_set_ne hij]

theorem rankAt_run (formats : Bool) (shared : Shared) (i : Nat) (schedule : List Nat) :
    min 3 (shared.rankAt i + schedule.count i) ≤ (shared.run formats schedule).rankAt i := by
  induction schedule generalizing shared with
  | nil => simp [run]
  | cons j rest ih =>
    have hstep := rankAt_step formats shared i j
    have hrest := ih (shared.step formats j)
    show _ ≤ ((shared.step formats j).run formats rest).rankAt i
    rw [List.count_cons]
    simp only [beq_iff_eq]
    omega

/-- A call that has taken three steps has ended, whatever the others do in between. -/
theorem done_of_count {i : Nat} {caller : Caller} {schedule : List Nat}
    (hcaller : (shared.run formats schedule).callers[i]? = some caller) (hcount : 3 ≤ schedule.count i) :
    ∃ result, caller.progress = .done result := by
  have hrank := rankAt_run formats shared i schedule
  rw [rankAt, rankAt, hcaller] at hrank
  dsimp only at hrank
  cases hprogress : caller.progress with
  | done result => exact ⟨result, rfl⟩
  | waiting | missed | made =>
    rw [hprogress, Progress.rank] at hrank
    omega

end Shared

/-! ### One call alone -/

/-- A call whose steps no other call comes between does what `validatorFor` does. -/
theorem run_alone (formats : Bool) (c : SchemaCache) (schema : Json) :
    (Shared.mk c [⟨schema, .waiting⟩]).run formats [0, 0, 0] =
      ⟨(c.validatorFor formats schema).2, [⟨schema, .done (c.validatorFor formats schema).1⟩]⟩ := by
  cases hheld : c.find? schema.canonicalText with
  | some validator =>
    rw [validatorFor_held hheld]
    simp [Shared.run, Shared.step, Caller.advance, retrieve, hheld]
  | none =>
    have hlook : (Shared.mk c [⟨schema, .waiting⟩]).step formats 0 = ⟨c, [⟨schema, .missed⟩]⟩ := by
      simp [Shared.step, Caller.advance, retrieve, hheld, RecencyCache.touch]
    have hcheck : (Shared.mk c [⟨schema, .missed⟩]).step formats 0 =
        ⟨c, [⟨schema, .ofCompiled (Validator.compile formats schema)⟩]⟩ := by
      rw [Shared.step, List.getElem?_cons_zero]
      simp only [Caller.advance_missed, List.set_cons_zero]
    rw [validatorFor_unheld hheld, Shared.run, List.foldl_cons, hlook, List.foldl_cons, hcheck]
    generalize Validator.compile formats schema = result
    cases result <;> rfl

/-! ## The result -/

/-- **Calls at once are safe.**  For any calls on a cache that is empty at first, and any order of their steps: the
cache holds no more entries than the limit and none where the limit is below zero, its keys are distinct, and
each entry was made from a schema that was accepted, whose canonical text is the key.  Each call is still about
its own schema; if it returns a validator, that was made from a schema with the same canonical text; if it
fails, its schema is rejected; and it ends with its third step at the latest. -/
theorem interleaving_safe (formats : Bool) (limit : Int) (schemas : List Json) (schedule : List Nat) :
    let shared := (Shared.start limit schemas).run formats schedule
    (shared.cache.entries.length : Int) ≤ max limit 0 ∧ shared.cache.keys.Nodup ∧
      (∀ key validator, (key, validator) ∈ shared.cache.entries → ∃ source ∈ schemas,
        source.canonicalText = key ∧ Validator.compile formats source = .ok validator) ∧
      ∀ i schema, schemas[i]? = some schema → ∃ progress,
        shared.callers[i]? = some ⟨schema, progress⟩ ∧
        (∀ validator, progress = .done (.ok validator) → ∃ source ∈ schemas,
          source.canonicalText = schema.canonicalText ∧
            Validator.compile formats source = .ok validator) ∧
        (∀ rejection, progress = .done (.error rejection) →
          Validator.compile formats schema = .error rejection) ∧
        (3 ≤ schedule.count i → ∃ result, progress = .done result) := by
  intro shared
  have hsound : shared.Sound formats limit schemas :=
    (Shared.sound_start formats limit schemas).run schedule
  refine ⟨?_, hsound.cache.tidy.distinct, hsound.cache.backed, fun i schema hschema => ?_⟩
  · have hbounded := hsound.cache.tidy.bounded
    rw [hsound.cache.limit, RecencyCache.keys, List.length_map] at hbounded
    omega
  · obtain ⟨progress, hcaller, hprogress⟩ := hsound.caller hschema
    refine ⟨progress, hcaller, ?_, ?_, Shared.done_of_count hcaller⟩
    · rintro validator rfl
      cases hprogress with
      | @returned _ source hsource hkey compiled => exact ⟨source, hsource, hkey, compiled⟩
    · rintro rejection rfl
      cases hprogress with
      | failed rejected => exact rejected

/-- Two calls with the members of one schema in two orders, on a cache for one schema: both miss it, both check theirs
and both store under one key.  Each returns a validator of a schema with its text, and no second entry is left. -/
theorem interleaving_safe_of_race :
    let first : Json := .obj [("type", .str "object"), ("minProperties", .num (.int 1))]
    let again : Json := .obj [("minProperties", .num (.int 1)), ("type", .str "object")]
    let schemas : List Json := [first, again]
    let shared := (Shared.start 1 schemas).run true [0, 1, 1, 0, 0, 1]
    first.canonicalText = again.canonicalText ∧ shared.cache.entries.length ≤ 1 ∧
      ∀ (i : Nat) schema, schemas[i]? = some schema → ∃ validator,
        shared.callers[i]? = some ⟨schema, .done (.ok validator)⟩ ∧ ∃ source ∈ schemas,
          source.canonicalText = schema.canonicalText ∧ Validator.compile true source = .ok validator := by
  intro first again schemas
  have hdistinct : first.Distinct := by decide +kernel
  have hintegers : first.FloatFree := by decide +kernel
  have hkey : first.canonicalText = again.canonicalText :=
    (Json.canonicalText_eq_iff hdistinct hintegers).mpr (.order (.swap _ _ _))
  have hcompiled : ∀ schema ∈ schemas, Validator.compile true schema = .ok (.ofSchema true schema) :=
    List.forall_mem_cons.mpr ⟨Validator.compile_of_isSome (by decide +kernel),
      List.forall_mem_singleton.mpr (Validator.compile_of_isSome (by decide +kernel))⟩
  have hcount : ∀ i < 2, 3 ≤ [0, 1, 1, 0, 0, 1].count i := by decide
  have hsafe := interleaving_safe true 1 schemas [0, 1, 1, 0, 0, 1]
  -- what the schedule comes to is known from the theorem alone, and is not to be computed
  generalize (Shared.start 1 schemas).run true [0, 1, 1, 0, 0, 1] = shared at hsafe ⊢
  obtain ⟨hbounded, -, -, hcalls⟩ := hsafe
  refine ⟨hkey, by omega, fun i schema hschema => ?_⟩
  obtain ⟨progress, hcaller, hreturned, hfailed, hends⟩ := hcalls i schema hschema
  obtain ⟨result, rfl⟩ := hends (hcount i (List.getElem?_eq_some_iff.mp hschema).1)
  cases result with
  | error rejection =>
    cases (hcompiled schema (List.mem_of_getElem? hschema)).symm.trans (hfailed rejection rfl)
  | ok validator => exact ⟨validator, hcaller, hreturned validator rfl⟩

end SchemaCache

end JsonMend
