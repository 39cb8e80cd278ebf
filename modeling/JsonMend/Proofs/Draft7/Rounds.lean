import JsonMend.Proofs.Draft.Entering
/-
  What more rounds change.

  A judging with too few rounds breaks off where they run out, and nothing else about it depends on their number.

  1. **Keeping** (`Keeps`, `Outcome.Keeps`) — a result that did not run out of rounds is kept.  An outcome is kept as
     a whole if no part of it ran out; and whether anything is wrong is settled by the first violation, whatever runs
     out behind it.
  2. **Consulting** (`Keyword.Consults`, `Rule.Consults`) — a keyword asks the schemas that it holds, under the URI that
     holds outside or inside them, about the value or about parts that are less deep; a reference asks what it leads to.
     The rules of other drafts do the same.
  3. **One keyword, one rule** (`Keyword.judge_keeps`, `Rule.judge_keeps`) — where the judging of all that is consulted
     is kept, so is what the keyword or the rule finds.
  4. **More rounds** (`Validator.judgeBy_keeps`) — by induction on the rounds, for all drafts at once.  So what is
     accepted or rejected in some number of rounds is so once and for all (`Validator.VerdictAt.unique`).
-/
namespace JsonMend

/-! ## Keeping -/

/-- A second result keeps a first one that did not run out of rounds. -/
def Keeps {α : Type} (x x' : Except Fault α) : Prop := x ≠ .error .endlessReference → x' = x

/-- A second outcome keeps what a first one settles. -/
structure Outcome.Keeps (o o' : Outcome) : Prop where
  whole : o.fault? ≠ some .endlessReference → o' = o
  verdict : JsonMend.Keeps o.accepts o'.accepts

section
variable {α β : Type} {x x' : Except Fault α} {o o' p p' : Outcome}

theorem Keeps.refl (x : Except Fault α) : Keeps x x := fun _ => rfl

theorem Keeps.of_ok {a : α} (h : Keeps (.ok a) x') : x' = .ok a := h (by simp)

theorem Keeps.bind {f f' : α → Except Fault β} (h : Keeps x x') (hf : ∀ a, x = .ok a → Keeps (f a) (f' a)) :
    Keeps (x >>= f) (x' >>= f') := by
  intro hheld
  cases x with
  | error fault =>
    have hfault : (.error fault : Except Fault α) ≠ .error .endlessReference := by
      rintro ⟨⟩
      exact hheld rfl
    rw [h hfault]
    rfl
  | ok a =>
    rw [h.of_ok]
    exact hf a rfl hheld

namespace Outcome

theorem accepts_eq_error {fault : Fault} :
    o.accepts = .error fault ↔ o.violations = [] ∧ o.fault? = some fault := by
  obtain ⟨violations, fault?⟩ := o
  cases violations <;> cases fault? <;> simp [accepts]

theorem accepts_eq_false : o.accepts = .ok false ↔ o.violations ≠ [] := by
  obtain ⟨violations, fault?⟩ := o
  cases violations <;> cases fault? <;> simp [accepts]

namespace Keeps

theorem refl (o : Outcome) : o.Keeps o := ⟨fun _ => rfl, .refl _⟩

theorem trans {o'' : Outcome} (h : o.Keeps o') (h' : o'.Keeps o'') : o.Keeps o'' where
  whole hheld := by
    have hsame := h.whole hheld
    rw [← hsame] at hheld
    exact (h'.whole hheld).trans hsame
  verdict hheld := by
    have hsame := h.verdict hheld
    rw [← hsame] at hheld
    exact (h'.verdict hheld).trans hsame

theorem append (h : o.Keeps o') (h' : p.Keeps p') : (o ++ p).Keeps (o' ++ p') := by
  cases hfault : o.fault? with
  | none =>
    rw [h.whole (by simp [hfault])]
    refine ⟨fun hheld => ?_, fun hheld => ?_⟩
    · rw [h'.whole]
      simpa [append_def, hfault] using hheld
    · by_cases hnone : o.violations = []
      · -- nothing is wrong in front, so the verdict is the one behind
        have hbehind : ∀ q : Outcome, (o ++ q).accepts = q.accepts := by
          intro q
          simp [append_def, hfault, hnone]
        rw [hbehind] at hheld ⊢
        rw [hbehind]
        exact h'.verdict hheld
      · have hfalse : ∀ q : Outcome, (o ++ q).accepts = .ok false := by
          intro q
          rw [accepts_eq_false, append_violations hfault]
          simp [hnone]
        rw [hfalse, hfalse]
  | some fault =>
    have hfirst : o ++ p = o := by rw [append_def, hfault]
    rw [hfirst]
    by_cases hends : fault = .endlessReference
    · subst hends
      refine ⟨fun hheld => absurd hfault hheld, fun hheld => ?_⟩
      have hverdict := h.verdict hheld
      have hwrong : o.violations ≠ [] := fun hnone => hheld (accepts_eq_error.mpr ⟨hnone, hfault⟩)
      rw [accepts_eq_false.mpr hwrong] at hverdict ⊢
      rw [accepts_eq_false] at hverdict ⊢
      rw [append_def]
      split
      · exact hverdict
      · simp [hverdict]
    · have hsame : o' = o := h.whole (by simpa [hfault] using hends)
      have hsecond : o' ++ p' = o := by rw [hsame, append_def, hfault]
      rw [hsecond]
      exact .refl o

theorem concat_map {γ : Type} {f f' : γ → Outcome} {parts : List γ}
    (h : ∀ a ∈ parts, (f a).Keeps (f' a)) : (concat (parts.map f)).Keeps (concat (parts.map f')) := by
  induction parts with
  | nil => exact .refl _
  | cons a rest ih =>
    rw [List.forall_mem_cons] at h
    exact h.1.append (ih h.2)

theorem ofExcept {f f' : α → Outcome} (h : JsonMend.Keeps x x')
    (hf : ∀ a, x = .ok a → (f a).Keeps (f' a)) : (Outcome.ofExcept x f).Keeps (Outcome.ofExcept x' f') := by
  cases x with
  | ok a =>
    rw [h.of_ok]
    exact hf a rfl
  | error fault =>
    by_cases hends : fault = .endlessReference
    · subst hends
      exact ⟨fun hheld => absurd rfl hheld, fun hheld => absurd rfl hheld⟩
    · rw [h (fun heq => hends (Except.error.inj heq))]
      exact .refl _

theorem under (h : o.Keeps o') (steps schemaSteps : Position) :
    (o.under steps schemaSteps).Keeps (o'.under steps schemaSteps) := by
  have haccepts : ∀ q : Outcome, (q.under steps schemaSteps).accepts = q.accepts := by
    rintro ⟨_ | ⟨y, ys⟩, _ | fault⟩ <;> rfl
  refine ⟨fun hheld => by rw [h.whole hheld], ?_⟩
  rw [haccepts, haccepts]
  exact h.verdict

theorem acceptsAfterAll (h : o.Keeps o') : JsonMend.Keeps o.acceptsAfterAll o'.acceptsAfterAll := by
  intro hheld
  rw [h.whole]
  intro hfault
  rw [Outcome.acceptsAfterAll, hfault] at hheld
  exact hheld rfl

end Keeps

end Outcome

end

/-! ## Consulting -/

namespace Keyword

/-- A keyword that judges a value may ask how a schema judges a part of it, under a URI. -/
inductive Consults (validator : Validator) (base : String) : Keyword → Json → String → Json → Json → Prop
  | reference {target inside schema v} (resolved : validator.registry.resolve base target = .ok (schema, inside)) :
      Consults validator base (.reference target) v inside schema v
  | held {k v inside schema x} (mem : schema ∈ schemas k)
      (uri : inside = base ∨ inside = baseInside base schema) (part : x = v ∨ x.depth < v.depth) :
      Consults validator base k v inside schema x

end Keyword

/-- A rule asks what its keyword asks, or how a schema that it holds judges, under the URI inside that. -/
inductive Rule.Consults (validator : Validator) (base : String) : Rule → Json → String → Json → Json → Prop
  | shared {k v inside schema x} (consults : k.Consults validator base v inside schema x) :
      Consults validator base (.shared k) v inside schema x
  | held {r v schema x} (mem : schema ∈ r.schemas) (part : x = v ∨ x.depth < v.depth) :
      Consults validator base r v (baseInside base schema) schema x

/-! ## Depth -/

namespace Json

variable {x : Json} {xs : List Json} {ms : Members} {key : String}

theorem depth_lt_of_item (h : x ∈ xs) : x.depth < (arr xs).depth := by
  rw [depth, Nat.lt_succ_iff]
  induction xs with
  | nil => cases h
  | cons y ys ih =>
    rw [itemsDepth]
    rcases List.mem_cons.mp h with rfl | h
    · exact Nat.le_max_left _ _
    · exact Nat.le_trans (ih h) (Nat.le_max_right _ _)

theorem depth_lt_of_member (h : (key, x) ∈ ms) : x.depth < (obj ms).depth := by
  rw [depth, Nat.lt_succ_iff]
  induction ms with
  | nil => cases h
  | cons m ms ih =>
    obtain ⟨k, y⟩ := m
    rw [membersDepth]
    rcases List.mem_cons.mp h with heq | h
    · cases heq
      exact Nat.le_max_left _ _
    · exact Nat.le_trans (ih h) (Nat.le_max_right _ _)

end Json

/-! ## One keyword -/

namespace Keyword

open Outcome.Keeps

variable {validator : Validator} {sub sub' : Judge} {base : String} {k : Keyword} {v x schema : Json}
  {steps schemaSteps : Position} {schemas : List Json}

/-- A keyword consults the schemas that it enters. -/
theorem Enters.consults {inside : String} (enters : k.Enters validator sub base v inside schema steps schemaSteps x) :
    k.Consults validator base v inside schema x := by
  cases enters with
  | reference hresolved => exact .reference hresolved
  | property hdeclared hstands =>
    exact .held (List.mem_map_of_mem hdeclared) (.inr rfl)
      (.inr (Json.depth_lt_of_member (mem_keys_of_lookup hstands)))
  | pattern hdeclared hmem =>
    exact .held (List.mem_map_of_mem hdeclared) (.inr rfl) (.inr (Json.depth_lt_of_member hmem))
  | name => exact .held List.mem_cons_self (.inr rfl) (.inr (Nat.succ_pos _))
  | additional _ _ hstands =>
    exact .held List.mem_cons_self (.inr rfl) (.inr (Json.depth_lt_of_member (mem_keys_of_lookup hstands)))
  | item hstands | additionalItem _ hstands =>
    exact .held List.mem_cons_self (.inr rfl) (.inr (Json.depth_lt_of_item (List.mem_of_getElem? hstands)))
  | itemInTurn hstands hdeclared =>
    exact .held (List.mem_of_getElem? hdeclared) (.inr rfl)
      (.inr (Json.depth_lt_of_item (List.mem_of_getElem? hstands)))
  | dependency hmem => exact .held (List.mem_filterMap.mpr ⟨_, hmem, rfl⟩) (.inr rfl) (.inl rfl)
  | branch hdeclared => exact .held (List.mem_of_getElem? hdeclared) (.inr rfl) (.inl rfl)
  | whenMet | whenUnmet => exact .held (by simp [schemas]) (.inr rfl) (.inl rfl)

theorem descend_keeps
    (h : (sub (baseInside base schema) schema x).Keeps (sub' (baseInside base schema) schema x)) :
    (sub.descend base schema steps schemaSteps x).Keeps (sub'.descend base schema steps schemaSteps x) := by
  by_cases hrefuses : schema = .bool false
  · subst hrefuses
    exact .refl _
  · rw [Judge.descend_of_ne hrefuses, Judge.descend_of_ne hrefuses]
    exact h.under steps schemaSteps

theorem firstAccepting_keeps
    (h : ∀ s ∈ schemas, (sub (baseInside base s) s v).Keeps (sub' (baseInside base s) s v)) :
    Keeps (firstAccepting sub base v schemas) (firstAccepting sub' base v schemas) := by
  induction schemas with
  | nil => exact .refl _
  | cons s rest ih =>
    rw [List.forall_mem_cons] at h
    rw [firstAccepting, firstAccepting]
    refine (descend_keeps h.1).acceptsAfterAll.bind fun accepted _ => ?_
    cases accepted with
    | true => exact .refl _
    | false => exact ih h.2

theorem acceptsAny_keeps {accepts accepts' : Json → Except Fault Bool} {xs : List Json}
    (h : ∀ x ∈ xs, Keeps (accepts x) (accepts' x)) : Keeps (acceptsAny accepts xs) (acceptsAny accepts' xs) := by
  induction xs with
  | nil => exact .refl _
  | cons x rest ih =>
    rw [List.forall_mem_cons] at h
    rw [acceptsAny, acceptsAny]
    refine h.1.bind fun accepted _ => ?_
    cases accepted with
    | true => exact .refl _
    | false => exact ih h.2

theorem select_keeps {α : Type} {test test' : α → Except Fault Bool} {xs : List α}
    (h : ∀ x ∈ xs, Keeps (test x) (test' x)) : Keeps (select test xs) (select test' xs) := by
  induction xs with
  | nil => exact .refl _
  | cons x rest ih =>
    rw [List.forall_mem_cons] at h
    rw [select, select]
    exact h.1.bind fun _ _ => (ih h.2).bind fun _ _ => .refl _

theorem mem_of_firstAccepting {first : Json} {rest : List Json}
    (h : firstAccepting sub base v schemas = .ok (some (first, rest))) :
    first ∈ schemas ∧ ∀ s ∈ rest, s ∈ schemas := by
  induction schemas with
  | nil => cases h
  | cons s schemas ih =>
    rw [firstAccepting] at h
    obtain ⟨accepted, -, h⟩ := bind_eq_ok.mp h
    cases accepted with
    | true =>
      cases h
      exact ⟨List.mem_cons_self, fun _ => List.mem_cons_of_mem _⟩
    | false =>
      obtain ⟨hfirst, hrest⟩ := ih h
      exact ⟨List.mem_cons_of_mem _ hfirst, fun s hs => List.mem_cons_of_mem _ (hrest s hs)⟩

/-- **What a keyword finds is kept, where the judging of all that it consults is.** -/
theorem judge_keeps
    (h : ∀ inside schema x, k.Consults validator base v inside schema x →
      (sub inside schema x).Keeps (sub' inside schema x)) :
    (k.judge validator sub base v).Keeps (k.judge validator sub' base v) := by
  have hinside : ∀ {schema x}, schema ∈ k.schemas → (x = v ∨ x.depth < v.depth) →
      (sub (baseInside base schema) schema x).Keeps (sub' (baseInside base schema) schema x) :=
    fun hmem hpart => h _ _ _ (.held hmem (.inr rfl) hpart)
  have hbeside : ∀ {schema x}, schema ∈ k.schemas → (x = v ∨ x.depth < v.depth) →
      (sub base schema x).Keeps (sub' base schema x) :=
    fun hmem hpart => h _ _ _ (.held hmem (.inl rfl) hpart)
  cases k with
  | reference target =>
    rw [judge, judge]
    exact .ofExcept (.refl _) fun _ hresolved => h _ _ _ (.reference hresolved)
  | properties schemas =>
    cases v with
    | obj ms =>
      refine .concat_map ?_
      rintro ⟨name, schema⟩ hmem
      dsimp only
      cases hstands : ms.lookup name with
      | none => exact .refl _
      | some x =>
        exact descend_keeps (hinside (List.mem_map_of_mem hmem)
          (.inr (Json.depth_lt_of_member (mem_keys_of_lookup hstands))))
    | null | bool | num | str | arr => exact .refl _
  | patternProperties schemas =>
    cases v with
    | obj ms =>
      refine .concat_map ?_
      rintro ⟨regex, schema⟩ hmem
      refine .concat_map ?_
      rintro ⟨key, x⟩ hx
      refine .ofExcept (.refl _) fun found _ => ?_
      cases found with
      | false => exact .refl _
      | true =>
        exact descend_keeps (hinside (List.mem_map_of_mem hmem) (.inr (Json.depth_lt_of_member hx)))
    | null | bool | num | str | arr => exact .refl _
  | propertyNames schema =>
    cases v with
    | obj ms =>
      exact .concat_map fun _ _ => descend_keeps (hinside List.mem_cons_self (.inr (Nat.succ_pos _)))
    | null | bool | num | str | arr => exact .refl _
  | additionalProperties declared patterns schema =>
    cases v with
    | obj ms =>
      rw [judge, judge]
      refine .ofExcept (.refl _) fun extras _ => ?_
      cases schema with
      | obj members =>
        refine .concat_map fun key _ => ?_
        cases hstands : ms.lookup key with
        | none => exact .refl _
        | some x =>
          exact descend_keeps (hinside List.mem_cons_self
            (.inr (Json.depth_lt_of_member (mem_keys_of_lookup hstands))))
      | bool b => cases b <;> exact .refl _
      | null | num | str | arr => exact .refl _
    | null | bool | num | str | arr => exact .refl _
  | items schema =>
    cases v with
    | arr xs =>
      refine .concat_map fun _ hmem => descend_keeps (hinside List.mem_cons_self (.inr ?_))
      exact Json.depth_lt_of_item (List.mem_of_getElem? (List.mk_mem_zipIdx_iff_getElem?.mp hmem))
    | null | bool | num | str | obj => exact .refl _
  | itemsInTurn schemas =>
    cases v with
    | arr xs =>
      refine .concat_map ?_
      rintro ⟨⟨x, schema⟩, i⟩ hmem
      obtain ⟨hstands, hdeclared⟩ :=
        List.getElem?_zip_eq_some.mp (List.mk_mem_zipIdx_iff_getElem?.mp hmem)
      exact descend_keeps (hinside (List.mem_of_getElem? hdeclared)
        (.inr (Json.depth_lt_of_item (List.mem_of_getElem? hstands))))
    | null | bool | num | str | obj => exact .refl _
  | additionalItems covered schema =>
    cases v with
    | arr xs =>
      cases covered with
      | none => exact .refl _
      | some n =>
        cases schema with
        | obj members =>
          refine .concat_map fun _ hmem => descend_keeps (hinside List.mem_cons_self (.inr ?_))
          obtain ⟨-, hget⟩ := List.mk_mem_zipIdx_iff_le_and_getElem?_sub.mp hmem
          exact Json.depth_lt_of_item (List.mem_of_mem_drop (List.mem_of_getElem? hget))
        | bool b => cases b <;> exact .refl _
        | null | num | str | arr => exact .refl _
    | null | bool | num | str | obj => exact .refl _
  | contains schema =>
    cases v with
    | arr xs =>
      refine .ofExcept (acceptsAny_keeps fun x hx => ?_) fun _ _ => .refl _
      exact (hbeside List.mem_cons_self (.inr (Json.depth_lt_of_item hx))).verdict
    | null | bool | num | str | obj => exact .refl _
  | dependencies entries =>
    cases v with
    | obj ms =>
      refine .concat_map ?_
      rintro ⟨property, dependency⟩ hmem
      dsimp only
      cases hasKey ms property with
      | false => exact .refl _
      | true =>
        cases dependency with
        | properties names => exact .refl _
        | schema schema =>
          exact descend_keeps (hinside (List.mem_filterMap.mpr ⟨_, hmem, rfl⟩) (.inl rfl))
    | null | bool | num | str | arr => exact .refl _
  | allOf schemas =>
    refine .concat_map fun _ hmem => descend_keeps (hinside ?_ (.inl rfl))
    exact List.mem_of_getElem? (List.mk_mem_zipIdx_iff_getElem?.mp hmem)
  | anyOf schemas =>
    exact .ofExcept (firstAccepting_keeps fun s hs => hinside hs (.inl rfl)) fun _ _ => .refl _
  | oneOf schemas =>
    refine .ofExcept (firstAccepting_keeps fun s hs => hinside hs (.inl rfl)) fun first? hfirst => ?_
    cases first? with
    | none => exact .refl _
    | some p =>
      refine .ofExcept (select_keeps fun s hs => ?_) fun _ _ => .refl _
      exact (hbeside ((mem_of_firstAccepting hfirst).2 s hs) (.inl rfl)).verdict
  | forbid schema => exact .ofExcept (hbeside List.mem_cons_self (.inl rfl)).verdict fun _ _ => .refl _
  | conditional test whenMet whenUnmet =>
    refine .ofExcept (hbeside List.mem_cons_self (.inl rfl)).verdict fun met _ => ?_
    cases met with
    | true =>
      cases whenMet with
      | none => cases whenUnmet <;> exact .refl _
      | some schema => exact descend_keeps (hinside (by simp [Keyword.schemas]) (.inl rfl))
    | false =>
      cases whenUnmet with
      | none => cases whenMet <;> exact .refl _
      | some schema =>
        cases whenMet with
        | none | some => exact descend_keeps (hinside (by simp [Keyword.schemas]) (.inl rfl))
  | type | enum | const | bound | multipleOf | count | uniqueItems | pattern | format | required => exact .refl _

end Keyword

/-! ## One rule -/

namespace Rule

open Outcome.Keeps Keyword

variable {validator : Validator} {sub sub' : Judge} {base inside : String} {r : Rule} {v x schema : Json}
  {steps schemaSteps : Position}

/-- A rule consults the schemas that it enters. -/
theorem Enters.consults (enters : r.Enters validator sub base v inside schema steps schemaSteps x) :
    r.Consults validator base v inside schema x := by
  cases enters with
  | shared henters => exact .shared henters.consults
  | property hdeclared hstands =>
    exact .held (List.mem_map_of_mem hdeclared) (.inr (Json.depth_lt_of_member (mem_keys_of_lookup hstands)))
  | dependency hmem => exact .held (List.mem_map_of_mem hmem) (.inl rfl)
  | whole => exact .held List.mem_cons_self (.inl rfl)
  | branch hdeclared => exact .held (List.mem_cons_of_mem _ (List.mem_of_getElem? hdeclared)) (.inl rfl)

/-- **What a rule finds is kept, where the judging of all that it consults is.** -/
theorem judge_keeps
    (h : ∀ inside schema x, r.Consults validator base v inside schema x →
      (sub inside schema x).Keeps (sub' inside schema x)) :
    (r.judge validator sub base v).Keeps (r.judge validator sub' base v) := by
  have hinside : ∀ {schema x}, schema ∈ r.schemas → (x = v ∨ x.depth < v.depth) →
      (sub (baseInside base schema) schema x).Keeps (sub' (baseInside base schema) schema x) :=
    fun hmem hpart => h _ _ _ (.held hmem hpart)
  cases r with
  | shared k => exact Keyword.judge_keeps fun _ _ _ hconsults => h _ _ _ (.shared hconsults)
  | properties schemas =>
    cases v with
    | obj ms =>
      refine .concat_map ?_
      rintro ⟨name, schema⟩ hmem
      dsimp only
      cases hstands : ms.lookup name with
      | none => exact .refl _
      | some x =>
        exact descend_keeps (hinside (List.mem_map_of_mem hmem)
          (.inr (Json.depth_lt_of_member (mem_keys_of_lookup hstands))))
    | null | bool | num | str | arr => exact .refl _
  | dependencies entries =>
    cases v with
    | obj ms =>
      refine .concat_map ?_
      rintro ⟨property, asked⟩ hmem
      dsimp only
      cases hasKey ms property with
      | false => exact .refl _
      | true =>
        cases asked with
        | obj schema => exact descend_keeps (hinside (List.mem_map_of_mem hmem) (.inl rfl))
        | null | bool | num | str | arr => exact .refl _
    | null | bool | num | str | arr => exact .refl _
  | extension schema =>
    cases schema with
    | obj members => exact descend_keeps (hinside List.mem_cons_self (.inl rfl))
    | arr schemas =>
      refine .concat_map fun _ hmem => descend_keeps (hinside (List.mem_cons_of_mem _ ?_) (.inl rfl))
      exact List.mem_of_getElem? (List.mk_mem_zipIdx_iff_getElem?.mp hmem)
    | null | bool | num | str => exact .refl _
  | disallow refused =>
    refine .concat_map fun x hx => .ofExcept ?_ fun _ _ => .refl _
    cases x with
    | obj members =>
      exact (descend_keeps (hinside (List.mem_filter.mpr ⟨hx, rfl⟩) (.inl rfl))).acceptsAfterAll
    | str name =>
      have hsame : meets sub base v (.str name) = meets sub' base v (.str name) := by
        unfold meets
        split
        · rfl
        · rfl
        · rename_i hobj
          cases hobj
        · rfl
      rw [hsame]
      exact .refl _
    | null | bool | num | arr => exact .refl _
  | type | bound | items | divisibleBy => exact .refl _

end Rule

/-! ## More rounds -/

namespace Validator

variable {validator : Validator} {rounds rounds' : Nat} {draft : Draft} {base : String} {members : Members}
  {schema v : Json} {sub sub' : Judge}

/-- What a schema finds is kept, where the judging of all that its rules consult is. -/
theorem judgeMembers_keeps
    (h : ∀ name value r inside schema x, (name, value) ∈ Keyword.applicable members →
      Rule.ofMember draft members name value = .ok (some r) → r.Consults validator base v inside schema x →
      (sub inside schema x).Keeps (sub' inside schema x)) :
    (validator.judgeMembers draft sub base members v (Keyword.applicable members)).Keeps
      (validator.judgeMembers draft sub' base members v (Keyword.applicable members)) := by
  refine .concat_map ?_
  rintro ⟨name, value⟩ hmem
  refine .ofExcept (.refl _) fun r? hr => ?_
  cases r? with
  | none => exact .refl _
  | some r => exact (Rule.judge_keeps fun _ _ _ => h _ _ _ _ _ _ hmem hr).under _ _

/-- **More rounds keep what is settled.** -/
theorem judgeBy_keeps (more : rounds ≤ rounds') :
    (validator.judgeBy rounds draft base schema v).Keeps (validator.judgeBy rounds' draft base schema v) := by
  induction rounds generalizing rounds' draft base schema v with
  | zero => exact ⟨fun hheld => absurd rfl hheld, fun hheld => absurd rfl hheld⟩
  | succ rounds ih =>
    obtain ⟨fewer, rfl⟩ := Nat.exists_eq_succ_of_ne_zero (Nat.ne_zero_of_lt more)
    cases schema with
    | obj members => exact judgeMembers_keeps fun _ _ _ _ _ _ _ _ _ => ih (Nat.le_of_succ_le_succ more)
    | bool b => cases b <;> exact .refl _
    | null | num | str | arr => exact .refl _

/-- The verdict on a value, under a URI, that the judging of a schema inside one of a draft comes to in a number of
rounds. -/
def VerdictIn (validator : Validator) (rounds : Nat) (outer : Draft) (base : String) (schema v : Json)
    (accepted : Bool) : Prop :=
  (validator.inside rounds outer base schema v).accepts = .ok accepted

/-- The verdict that it comes to in some number of rounds. -/
def VerdictAt (validator : Validator) (outer : Draft) (base : String) (schema v : Json) (accepted : Bool) : Prop :=
  ∃ rounds, validator.VerdictIn rounds outer base schema v accepted

/-- A schema inside one of a draft accepts a value, under a URI. -/
abbrev AcceptsAt (validator : Validator) (outer : Draft) (base : String) (schema v : Json) : Prop :=
  validator.VerdictAt outer base schema v true

variable {outer : Draft} {accepted accepted' : Bool}

/-- A verdict stands. -/
theorem VerdictIn.of_le (h : validator.VerdictIn rounds outer base schema v accepted) (more : rounds ≤ rounds') :
    validator.VerdictIn rounds' outer base schema v accepted := by
  have hkept : Keeps (validator.inside rounds outer base schema v).accepts
      (validator.inside rounds' outer base schema v).accepts := (judgeBy_keeps more).verdict
  rw [VerdictIn] at h
  rw [h] at hkept
  exact hkept.of_ok

theorem VerdictIn.verdictAt (h : validator.VerdictIn rounds outer base schema v accepted) :
    validator.VerdictAt outer base schema v accepted := ⟨rounds, h⟩

/-- **There is at most one verdict.** -/
theorem VerdictAt.unique (h : validator.VerdictAt outer base schema v accepted)
    (h' : validator.VerdictAt outer base schema v accepted') : accepted = accepted' := by
  obtain ⟨rounds, h⟩ := h
  obtain ⟨rounds', h'⟩ := h'
  -- both verdicts stand in as many rounds as both have together
  have hverdict := h.of_le (Nat.le_add_right rounds rounds')
  exact Except.ok.inj (hverdict.symm.trans (h'.of_le (Nat.le_add_left rounds' rounds)))

theorem VerdictAt.acceptsAt_iff (h : validator.VerdictAt outer base schema v accepted) :
    validator.AcceptsAt outer base schema v ↔ accepted = true := by
  constructor
  · exact h.unique
  · rintro rfl
    exact h

end Validator

end JsonMend
