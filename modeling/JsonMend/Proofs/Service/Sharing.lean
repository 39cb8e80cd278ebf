import JsonMend.Proofs.Draft7.Dialect
import JsonMend.Proofs.Draft7.Reordering
import JsonMend.Proofs.Json.Canonical
import JsonMend.Proofs.Json.Read
import JsonMend.Proofs.Service.Prepare
import JsonMend.Proofs.Service.Recency
/-
  The cache of schemas, call after call.

  Schemas that differ in the order of members share one entry.  Their text as a key tells no more than that,
  so what holds of one of them must hold of the others.

  1. **Twins are accepted alike** (`not_malformed_of_twins`) — the metaschema finds something wrong with a schema
     only if it does with its twin, because judging in one dialect does not depend on the order of members.
  2. **What an entry stands for** (`Backed`) — each entry is a validator made from a schema that was accepted,
     under the key of that schema.
  3. **The record** (`accepted`) — the schemas of the calls that gave a validator.
  4. **The result** (`validatorFor_recent`) — the keys are the recent ones of the record, a rejected schema is
     reported and changes nothing, and a validator stands for the schema it is given for up to order.
-/
namespace JsonMend

open Json

/-! ## Twins are accepted alike -/

namespace Validator

variable {formats : Bool} {schema source : Json} {validator : Validator} {first : Violation}

theorem found_of_malformed (h : compile formats schema = .error (.malformed first)) :
    (metaschema.judge schema).violations ≠ [] := by
  rw [compile_eq_verdict] at h
  generalize metaschema.judge schema = found at h ⊢
  obtain ⟨violations, fault?⟩ := found
  cases violations with
  | cons first rest => simp
  | nil => cases fault? <;> cases h

/-- The metaschema is in one dialect. -/
theorem metaschema_home : metaschema.registry.StaysHome metaschema.registry.rootPlace :=
  (Registry.oneDialect_of_places 2 (by decide +kernel)).schemas

/-- A validator that knows of no draft judges akin values alike. -/
theorem Like.refl (validator : Validator) : Like validator.native validator.native :=
  ⟨rfl, rfl, rfl, .same rfl rfl, rfl⟩

/-- The metaschema finds nothing wrong with a schema whose twin was accepted. -/
theorem not_malformed_of_twins (twins : schema.Twins source)
    (accepted : compile formats source = .ok validator) :
    compile formats schema ≠ .error (.malformed first) := by
  intro hmalformed
  obtain ⟨hclean, -⟩ := compile_eq_ok_iff.mp accepted
  -- the metaschema is in one dialect, so what it finds wrong is wrong where no draft is known, too
  have hkept : (metaschema.judge schema).Keeps (metaschema.native.judge schema) := judgeWith_native metaschema_home
  have hwrong := hkept.verdict
  rw [Outcome.accepts_eq_false.mpr (found_of_malformed hmalformed)] at hwrong
  have hfound := Outcome.accepts_eq_false.mp hwrong.of_ok
  have hsource : metaschema.native.judge source = .clean :=
    (judge_native_eq metaschema_home (by rw [hclean]; rfl)).trans hclean
  have hwithin := (Like.refl metaschema).judge_within (.inr twins)
  rw [hsource] at hwithin
  exact hfound (hwithin rfl).eq_nil

end Validator

theorem Json.twins_of_canonicalText {schema source : Json} (distinct : schema.Distinct)
    (integers : schema.FloatFree) (h : source.canonicalText = schema.canonicalText) :
    schema.Twins source := by
  have hreordered := (canonicalText_eq_iff distinct integers).mp h.symm
  exact ⟨distinct, hreordered.distinct distinct, hreordered.sorted distinct⟩

/-! ## What an entry stands for -/

namespace SchemaCache

variable {c : SchemaCache} {formats : Bool} {schema : Json} {validator : Validator}
  {sources sources' : List Json} {rejection : Validator.Rejection}

/-- Each entry is a validator made from one of the schemas, under the key of that schema. -/
def Backed (formats : Bool) (sources : List Json) (c : SchemaCache) : Prop :=
  ∀ key validator, (key, validator) ∈ c.entries → ∃ source ∈ sources,
    source.canonicalText = key ∧ Validator.compile formats source = .ok validator

namespace Backed

theorem empty (limit : Int) : Backed formats sources (.empty limit) := by
  intro key validator h
  cases h

theorem mono (h : Backed formats sources c) (sub : ∀ s ∈ sources, s ∈ sources') :
    Backed formats sources' c := by
  intro key validator hentry
  obtain ⟨source, hsource, hmade⟩ := h key validator hentry
  exact ⟨source, sub source hsource, hmade⟩

theorem find? {key : String} (h : Backed formats sources c) (held : c.find? key = some validator) :
    ∃ source ∈ sources, source.canonicalText = key ∧ Validator.compile formats source = .ok validator :=
  h key validator (mem_keys_of_lookup held)

theorem touch (h : Backed formats sources c) (key : String) : Backed formats sources (c.touch key) := by
  unfold RecencyCache.touch
  cases hfound : c.find? key with
  | none => exact h
  | some held =>
    intro other validator hentry
    rcases List.mem_append.mp hentry with hentry | hentry
    · exact h other validator (List.mem_filter.mp hentry).1
    · cases List.mem_singleton.mp hentry
      exact h.find? hfound

theorem store (h : Backed formats sources c) (mem : schema ∈ sources)
    (made : Validator.compile formats schema = .ok validator) :
    Backed formats sources (c.store schema validator) := by
  intro key other hentry
  have hassigned : (key, other) ∈ assign schema.canonicalText validator c.entries := by
    unfold SchemaCache.store RecencyCache.insert at hentry
    dsimp only at hentry
    split at hentry
    · exact List.mem_of_mem_drop hentry
    · exact hentry
  rcases mem_assign hassigned with hentry | hentry
  · cases hentry
    exact ⟨schema, mem, rfl, made⟩
  · exact h key other hentry

end Backed

/-! ## One call -/

/-- What a call gives and leaves: the validator in the cache, a new one that is stored, or a rejection. -/
inductive Call (formats : Bool) (c : SchemaCache) (schema : Json) :
    Except Validator.Rejection Validator → SchemaCache → Prop
  | found {validator : Validator} (held : c.find? schema.canonicalText = some validator) :
      Call formats c schema (.ok validator) (c.touch schema.canonicalText)
  | made {validator : Validator} (unheld : c.find? schema.canonicalText = none)
      (compiled : Validator.compile formats schema = .ok validator) :
      Call formats c schema (.ok validator) (c.store schema validator)
  | refused {rejection : Validator.Rejection} (unheld : c.find? schema.canonicalText = none)
      (rejected : Validator.compile formats schema = .error rejection) :
      Call formats c schema (.error rejection) c

theorem validatorFor_call (formats : Bool) (c : SchemaCache) (schema : Json) :
    Call formats c schema (c.validatorFor formats schema).1 (c.validatorFor formats schema).2 := by
  cases hheld : c.find? schema.canonicalText with
  | some validator =>
    rw [validatorFor_held hheld]
    exact .found hheld
  | none =>
    rw [validatorFor_unheld hheld]
    generalize hcompiled : Validator.compile formats schema = result
    cases result with
    | error rejection => exact .refused hheld hcompiled
    | ok validator => exact .made hheld hcompiled

theorem Backed.next (h : Backed formats sources c) (schema : Json) :
    Backed formats (sources ++ [schema]) (c.validatorFor formats schema).2 := by
  have hmore := h.mono fun s hs => List.mem_append_left [schema] hs
  have hcall := validatorFor_call formats c schema
  generalize c.validatorFor formats schema = call at hcall ⊢
  obtain ⟨result, later⟩ := call
  cases hcall with
  | found => exact hmore.touch _
  | made _ hcompiled => exact hmore.store (by simp) hcompiled
  | refused => exact hmore

/-! ## The record -/

/-- The schemas of the calls that give a validator, in turn. -/
def accepted (formats : Bool) : SchemaCache → List Json → List Json
  | _, [] => []
  | c, schema :: rest =>
    match c.validatorFor formats schema with
    | (.ok _, c) => schema :: accepted formats c rest
    | (.error _, c) => accepted formats c rest

/-- The cache after several calls. -/
def after (formats : Bool) : SchemaCache → List Json → SchemaCache
  | c, [] => c
  | c, schema :: rest => after formats (c.validatorFor formats schema).2 rest

theorem after_concat (formats : Bool) (c : SchemaCache) (schemas : List Json) (schema : Json) :
    after formats c (schemas ++ [schema]) = ((after formats c schemas).validatorFor formats schema).2 := by
  induction schemas generalizing c with
  | nil => rfl
  | cons first rest ih => exact ih _

theorem mirrors_after {uses : List String} (h : c.Mirrors uses) (schemas : List Json) :
    (after formats c schemas).Mirrors (uses ++ (accepted formats c schemas).map canonicalText) := by
  induction schemas generalizing c uses with
  | nil => simpa [after, accepted] using h
  | cons schema rest ih =>
    have hcall := validatorFor_call formats c schema
    rw [after, accepted]
    generalize c.validatorFor formats schema = call at hcall ⊢
    obtain ⟨result, later⟩ := call
    cases hcall with
    | found hheld =>
      rw [List.map_cons, List.append_cons]
      exact ih (h.touch (RecencyCache.mem_keys_iff.mpr ⟨_, hheld⟩))
    | @made validator hunheld _ =>
      have hnew : schema.canonicalText ∉ c.keys := by
        rw [RecencyCache.mem_keys_iff, hunheld]
        simp
      rw [List.map_cons, List.append_cons]
      exact ih (h.insert hnew validator)
    | refused => exact ih h

theorem backed_after (h : Backed formats sources c) (schemas : List Json) :
    Backed formats (sources ++ schemas) (after formats c schemas) := by
  induction schemas generalizing c sources with
  | nil => simpa [after] using h
  | cons schema rest ih =>
    rw [List.append_cons]
    exact ih (h.next schema)

theorem limit_validatorFor (formats : Bool) (c : SchemaCache) (schema : Json) :
    (c.validatorFor formats schema).2.limit = c.limit := by
  have hcall := validatorFor_call formats c schema
  generalize c.validatorFor formats schema = call at hcall ⊢
  obtain ⟨result, later⟩ := call
  cases hcall with
  | found => exact RecencyCache.limit_touch c _
  | made | refused => rfl

theorem limit_after (formats : Bool) (c : SchemaCache) (schemas : List Json) :
    (after formats c schemas).limit = c.limit := by
  induction schemas generalizing c with
  | nil => rfl
  | cons schema rest ih => rw [after, ih, limit_validatorFor]

/-- The keys after several calls, the record of them all being known. -/
theorem keys_after (limit : Int) (formats : Bool) (schemas : List Json) :
    (after formats (.empty limit) schemas).keys =
      recentKeys limit.toNat ((accepted formats (.empty limit) schemas).map canonicalText) := by
  have hmirrors : (after formats (.empty limit) schemas).Mirrors _ :=
    mirrors_after (RecencyCache.mirrors_empty limit) schemas
  rw [RecencyCache.Mirrors, limit_after] at hmirrors
  exact hmirrors

/-! ## The result -/

/-- **The cache is the ideal one.**  After a call its keys are those of the last schemas that were accepted, in
the order of their last use and no more than the limit.  A call that fails changes nothing, and it does fail
where the metaschema finds something wrong with the schema.  A validator was made from the schema of some call,
which differs from the present schema in the order of members only. -/
theorem validatorFor_recent {limit : Int} {earlier : List Json} {later : SchemaCache}
    {result : Except Validator.Rejection Validator} (distinct : schema.Distinct)
    (integers : schema.FloatFree)
    (call : (after formats (.empty limit) earlier).validatorFor formats schema = (result, later)) :
    later.keys = recentKeys limit.toNat
        ((accepted formats (.empty limit) (earlier ++ [schema])).map canonicalText) ∧
      (∀ rejection, result = .error rejection →
        later = after formats (.empty limit) earlier ∧
          Validator.compile formats schema = .error rejection) ∧
      (∀ first, Validator.compile formats schema = .error (.malformed first) →
        result = .error (.malformed first)) ∧
      ∀ validator, result = .ok validator → ∃ source ∈ earlier ++ [schema], source.Reordered schema ∧
        Validator.compile formats source = .ok validator ∧ validator = .ofSchema formats source := by
  have hkeys := keys_after limit formats (earlier ++ [schema])
  have hbacked : Backed formats earlier (after formats (.empty limit) earlier) := by
    have hempty : Backed formats [] (.empty limit : SchemaCache) := .empty limit
    simpa using backed_after hempty earlier
  have hcall := validatorFor_call formats (after formats (.empty limit) earlier) schema
  -- an entry under the key of the schema was made from a twin of it
  have htwin : ∀ {source : Json}, source.canonicalText = schema.canonicalText → schema.Twins source :=
    fun h => twins_of_canonicalText distinct integers h
  rw [after_concat, call] at hkeys
  rw [call] at hcall
  refine ⟨hkeys, ?_, ?_, ?_⟩
  · rintro rejection rfl
    cases hcall with
    | refused _ hrejected => exact ⟨rfl, hrejected⟩
  · intro first hmalformed
    clear call hkeys
    cases hcall with
    | found hheld =>
      obtain ⟨source, -, hkey, hmade⟩ := hbacked.find? hheld
      exact absurd hmalformed (Validator.not_malformed_of_twins (htwin hkey) hmade)
    | made _ hcompiled => cases hcompiled.symm.trans hmalformed
    | refused _ hrejected => exact congrArg _ (Except.error.inj (hrejected.symm.trans hmalformed))
  · rintro validator rfl
    clear call hkeys
    cases hcall with
    | found hheld =>
      obtain ⟨source, hsource, hkey, hmade⟩ := hbacked.find? hheld
      refine ⟨source, List.mem_append_left _ hsource, ?_, hmade, Validator.compile_eq_ok hmade⟩
      exact .of_sorted (htwin hkey).sorted.symm
    | made _ hcompiled =>
      exact ⟨schema, by simp, .refl schema, hcompiled, Validator.compile_eq_ok hcompiled⟩

/-- A cache for one schema, called with the members of a schema in one order and then in the other: the
second call is a use of the entry of the first. -/
theorem validatorFor_recent_twice :
    let first : Json := .obj [("type", .str "object"), ("minProperties", .num (.int 1))]
    let again : Json := .obj [("minProperties", .num (.int 1)), ("type", .str "object")]
    ∃ validator later,
      (after true (.empty 1) [first]).validatorFor true again = (.ok validator, later) ∧
      later.keys = [first.canonicalText] ∧
      ∃ source ∈ [first, again], source.Reordered again ∧ validator = .ofSchema true source := by
  intro first again
  have hdistinct : again.Distinct := by decide +kernel
  have hintegers : again.FloatFree := by decide +kernel
  have hkey : again.canonicalText = first.canonicalText :=
    (canonicalText_eq_iff hdistinct hintegers).mpr (.order (.swap _ _ _))
  have hcompiled : Validator.compile true first = .ok (.ofSchema true first) :=
    Validator.compile_of_isSome (by decide +kernel)
  let fresh : SchemaCache := .empty 1
  let held : SchemaCache := fresh.store first (.ofSchema true first)
  have hfirst : fresh.validatorFor true first = (.ok (.ofSchema true first), held) := by
    rw [validatorFor_unheld rfl, hcompiled]
    rfl
  have hfound : held.find? again.canonicalText = some (.ofSchema true first) := by
    have hentries : held.entries = [(first.canonicalText, .ofSchema true first)] := rfl
    rw [RecencyCache.find?, hentries, hkey, lookup_cons_if, if_pos rfl]
  have hagain : held.validatorFor true again = (.ok (.ofSchema true first), _) :=
    validatorFor_held hfound
  have hafter : after true fresh [first] = held := by rw [after, after, hfirst]
  have haccepted : accepted true fresh [first, again] = [first, again] := by
    simp only [accepted, hfirst, hagain]
  obtain ⟨hkeys, -, -, hsource⟩ := validatorFor_recent hdistinct hintegers
    (hafter ▸ hagain : (after true fresh [first]).validatorFor true again = _)
  refine ⟨_, _, hafter ▸ hagain, ?_, ?_⟩
  · rw [hkeys, List.singleton_append, haccepted, List.map_cons, List.map_singleton, hkey]
    simp [recentKeys, List.rtake]
  · obtain ⟨source, hmem, hreordered, -, hmade⟩ := hsource _ rfl
    exact ⟨source, hmem, hreordered, hmade⟩

end SchemaCache

end JsonMend
