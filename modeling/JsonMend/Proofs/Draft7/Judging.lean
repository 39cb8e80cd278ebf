import JsonMend.Draft7.Validator
import JsonMend.Proofs.Json.Keys
/-
  What a schema finds, and what the schemas inside it find.

  1. **Results and outcomes** — a bind that returns has returned in both parts (`bind_eq_ok`).  Where the
     judging has no fault, every part of it is fault-free and all that the parts find is found
     (`sound_of_mem`, `found_of_mem`).
  2. **Draft-07** — a rule of draft-07 is a keyword (`Rule.shared_of_draft7`), and a schema inside one of draft-07 is
     judged by draft-07, too, unless it names another draft (`inner_of_home`).
  3. **One schema** — each of its rules that count is judged, and what it finds is found (`rule_judged`); nothing else
     is (`rule_of_found`).  In draft-07 these are its keywords (`keyword_judged`, `keyword_of_found`).
  4. **One schema inside another** (`Inner`) — the schema of a property, of a pattern that a key matches, or
     of all items, beside the part of the value that it judges: what it finds is found one step further
     down (`inner_found`).
  5. **Places** (`Judged`) — the way down to a place along such steps, and what is found there
     (`found_at`).
-/
namespace JsonMend

/-! ## Results -/

section
variable {ε δ α β : Type} {x : Except ε α} {b : β}

theorem bind_eq_ok {f : α → Except ε β} : x >>= f = .ok b ↔ ∃ a, x = .ok a ∧ f a = .ok b := by
  cases x with
  | error error =>
    constructor
    · intro h
      cases h
    · rintro ⟨a, h, -⟩
      cases h
  | ok a =>
    constructor
    · intro h
      exact ⟨a, rfl, h⟩
    · rintro ⟨a', h, hb⟩
      cases h
      exact hb

theorem map_eq_ok {f : α → β} : x.map f = .ok b ↔ ∃ a, x = .ok a ∧ f a = b := by
  cases x with
  | error error =>
    constructor
    · intro h
      cases h
    · rintro ⟨a, h, -⟩
      cases h
  | ok a =>
    constructor
    · intro h
      exact ⟨a, rfl, Except.ok.inj h⟩
    · rintro ⟨a', h, rfl⟩
      cases h
      rfl

theorem mapError_eq_ok {f : ε → δ} {a : α} : x.mapError f = .ok a ↔ x = .ok a := by
  cases x with
  | error error =>
    constructor <;>
    · intro h
      cases h
  | ok a' =>
    constructor <;>
    · intro h
      cases h
      rfl

/-- What is known of a result shows that there is one. -/
theorem ok_of_toOption_map {f : α → β} (h : x.toOption.map f = some b) : ∃ a, x = .ok a ∧ f a = b := by
  cases x with
  | error error => cases h
  | ok a => exact ⟨a, rfl, Option.some.inj h⟩

theorem singleton_of_toOption_map {xs : Except ε (List α)} {f : α → β}
    (h : xs.toOption.map (·.map f) = some [b]) : ∃ a, xs = .ok [a] ∧ f a = b := by
  obtain ⟨_, rfl, hshown⟩ := ok_of_toOption_map h
  obtain ⟨a, rfl, ha⟩ := List.map_eq_singleton_iff.mp hshown
  exact ⟨a, rfl, ha⟩

end

namespace Outcome

/-! ## Outcomes -/

variable {o : Outcome} {os : List Outcome} {x : Violation}

theorem concat_fault?_eq_none : (concat os).fault? = none ↔ ∀ p ∈ os, p.fault? = none := by
  induction os with
  | nil => simp [clean]
  | cons p os ih => rw [concat_cons, append_fault?_eq_none, ih, List.forall_mem_cons]

theorem concat_violations (sound : ∀ p ∈ os, p.fault? = none) :
    (concat os).violations = os.flatMap violations := by
  induction os with
  | nil => rfl
  | cons p os ih =>
    rw [List.forall_mem_cons] at sound
    rw [concat_cons, append_violations sound.1, ih sound.2, List.flatMap_cons]

theorem sound_of_mem {α : Type} {f : α → Outcome} {parts : List α} {a : α}
    (sound : (concat (parts.map f)).fault? = none) (hmem : a ∈ parts) : (f a).fault? = none :=
  concat_fault?_eq_none.mp sound _ (List.mem_map_of_mem hmem)

theorem found_of_mem {α : Type} {f : α → Outcome} {parts : List α} {a : α}
    (sound : (concat (parts.map f)).fault? = none) (hmem : a ∈ parts) (hx : x ∈ (f a).violations) :
    x ∈ (concat (parts.map f)).violations := by
  rw [concat_violations (concat_fault?_eq_none.mp sound)]
  exact List.mem_flatMap_of_mem (List.mem_map_of_mem hmem) hx

theorem sound_ofExcept {α : Type} {e : Except Fault α} {f : α → Outcome}
    (sound : (ofExcept e f).fault? = none) : ∃ a, e = .ok a := by
  cases e with
  | error fault => cases sound
  | ok a => exact ⟨a, rfl⟩

theorem mem_under {steps schemaSteps : Position} :
    x ∈ (o.under steps schemaSteps).violations ↔
      ∃ y ∈ o.violations, x = y.under steps schemaSteps := by
  show x ∈ o.violations.map _ ↔ _
  rw [List.mem_map]
  constructor
  · rintro ⟨y, hy, rfl⟩
    exact ⟨y, hy, rfl⟩
  · rintro ⟨y, hy, rfl⟩
    exact ⟨y, hy, rfl⟩

end Outcome

open Outcome

/-! ## Draft-07 -/

/-- Whether a schema names another draft than draft-07. -/
def Json.namesOtherDraft (schema : Json) : Bool := schema.draft?.any (· ≠ .draft7)

theorem Rule.ofMember_draft7 (schema : Members) (name : String) (value : Json) :
    Rule.ofMember .draft7 schema name value = (Keyword.ofMember schema name value).map (·.map .shared) := by
  have hread : Rule.read? .draft7 schema name value = (Keyword.read? schema name value).map (·.map .shared) := rfl
  rw [Rule.ofMember, Keyword.ofMember, hread]
  cases Keyword.read? schema name value <;> rfl

theorem Rule.ofMember_shared {members : Members} {name : String} {value : Json} {k : Keyword}
    (h : Keyword.ofMember members name value = .ok (some k)) :
    Rule.ofMember .draft7 members name value = .ok (some (.shared k)) := by
  rw [ofMember_draft7, h]
  rfl

/-- A rule of draft-07 is a keyword. -/
theorem Rule.shared_of_draft7 {members : Members} {name : String} {value : Json} {r : Rule}
    (h : Rule.ofMember .draft7 members name value = .ok (some r)) :
    ∃ k, r = .shared k ∧ Keyword.ofMember members name value = .ok (some k) := by
  rw [ofMember_draft7] at h
  obtain ⟨k?, hk, hr⟩ := map_eq_ok.mp h
  cases k? with
  | none => cases hr
  | some k =>
    cases hr
    exact ⟨k, rfl, hk⟩

namespace Validator

variable {validator : Validator} {rounds : Nat} {base name : String} {members : Members}
  {value v : Json} {y : Violation}

theorem draftOf_of_home {schema : Json} (home : schema.namesOtherDraft = false) :
    validator.draftOf .draft7 schema = .draft7 := by
  unfold draftOf
  cases hdraft : schema.draft? with
  | none => rfl
  | some draft =>
    have hdraft7 : draft = .draft7 := by simpa [Json.namesOtherDraft, hdraft] using home
    simp [hdraft7]

/-- A schema inside another that stays with draft-07 is judged by draft-07. -/
theorem inner_of_home {schema : Json} (home : validator.draftOf .draft7 schema = .draft7) :
    validator.inner rounds base schema v = validator.judgeWith rounds base schema v := by
  rw [inner, inside, home, judgeWith]

/-- Where no draft is known, all schemas are of draft-07. -/
theorem inner_of_native (native : validator.drafts = []) : validator.inner rounds = validator.judgeWith rounds := by
  funext base schema v
  refine inner_of_home ?_
  unfold draftOf
  cases schema.draft? <;> simp [native]

/-! ## One schema -/

theorem applicable_of_no_reference (h : members.lookup "$ref" = none) :
    Keyword.applicable members = members := by
  rw [Keyword.applicable, h]

/-- Where a keyword other than a reference counts, all keywords of the schema do. -/
theorem applicable_of_mem (hmem : (name, value) ∈ Keyword.applicable members) (hname : name ≠ "$ref") :
    Keyword.applicable members = members := by
  unfold Keyword.applicable at hmem ⊢
  split at hmem
  · rfl
  · rfl
  · cases List.mem_singleton.mp hmem
    exact absurd rfl hname

theorem mem_of_applicable (hmem : (name, value) ∈ Keyword.applicable members) : (name, value) ∈ members := by
  unfold Keyword.applicable at hmem
  split at hmem
  · exact hmem
  · exact hmem
  · rename_i hlookup
    cases List.mem_singleton.mp hmem
    exact mem_keys_of_lookup hlookup

/-- A judging without a fault had rounds left. -/
theorem rounds_of_sound {draft : Draft} {schema : Json}
    (sound : (validator.judgeBy rounds draft base schema v).fault? = none) :
    ∃ fewer, rounds = fewer + 1 := by
  cases rounds with
  | zero =>
    cases sound
  | succ fewer => exact ⟨fewer, rfl⟩

/-- What the keywords of a schema find, one after another. -/
def judgeKeywords (validator : Validator) (sub : Judge) (base : String) (schema : Members) (v : Json)
    (members : Members) : Outcome :=
  .concat (members.map fun (name, value) =>
    .ofExcept (Keyword.ofMember schema name value) fun
      | some k => (k.judge validator sub base v).under [] k.step
      | none => .clean)

theorem judgeMembers_draft7 (validator : Validator) (sub : Judge) (base : String) (schema : Members) (v : Json)
    (members : Members) :
    validator.judgeMembers .draft7 sub base schema v members = validator.judgeKeywords sub base schema v members := by
  unfold judgeMembers judgeKeywords
  congr 1
  refine List.map_congr_left fun (name, value) _ => ?_
  simp only [Rule.ofMember_draft7]
  cases Keyword.ofMember schema name value with
  | error fault => rfl
  | ok k? => cases k? <;> rfl

/-- **By draft-07 a schema is judged keyword by keyword.** -/
theorem judgeWith_obj : validator.judgeWith (rounds + 1) base (.obj members) v =
    validator.judgeKeywords (validator.inner rounds) base members v (Keyword.applicable members) :=
  judgeMembers_draft7 _ _ _ _ _ _

/-- Each rule of a schema that counts is judged, and what it finds is found. -/
theorem rule_judged {draft : Draft} (hmem : (name, value) ∈ Keyword.applicable members)
    (sound : (validator.judgeBy (rounds + 1) draft base (.obj members) v).fault? = none) :
    ∃ r?, Rule.ofMember draft members name value = .ok r? ∧ ∀ r, r? = some r →
      (r.judge validator (validator.inside rounds draft) base v).fault? = none ∧
        ∀ x ∈ (r.judge validator (validator.inside rounds draft) base v).violations,
          x.under [] r.step ∈ (validator.judgeBy (rounds + 1) draft base (.obj members) v).violations := by
  rw [judgeBy] at sound ⊢
  -- the member is read without a fault, or the judging would have one
  have hsound := sound_of_mem sound hmem
  obtain ⟨r?, hr⟩ := sound_ofExcept hsound
  refine ⟨r?, hr, ?_⟩
  rintro r rfl
  simp only [hr] at hsound
  refine ⟨hsound, fun x hx => found_of_mem sound hmem ?_⟩
  simp only [hr]
  exact mem_under.mpr ⟨x, hx, rfl⟩

/-- All that a schema finds, one of its rules that count finds. -/
theorem rule_of_found {draft : Draft}
    (hy : y ∈ (validator.judgeBy (rounds + 1) draft base (.obj members) v).violations) :
    ∃ name value r x, (name, value) ∈ Keyword.applicable members ∧
      Rule.ofMember draft members name value = .ok (some r) ∧
      x ∈ (r.judge validator (validator.inside rounds draft) base v).violations ∧ y = x.under [] r.step := by
  rw [judgeBy] at hy
  obtain ⟨o, ho, hy⟩ := mem_violations_concat hy
  obtain ⟨⟨name, value⟩, hmem, rfl⟩ := List.mem_map.mp ho
  simp only at hy
  cases hr : Rule.ofMember draft members name value with
  | error fault =>
    rw [hr] at hy
    cases hy
  | ok r? =>
    rw [hr] at hy
    cases r? with
    | none => cases hy
    | some r =>
      obtain ⟨x, hx, rfl⟩ := mem_under.mp hy
      exact ⟨name, value, r, x, hmem, hr, hx, rfl⟩

/-- Each keyword of a schema that counts is judged, and what it finds is found. -/
theorem keyword_judged (hmem : (name, value) ∈ Keyword.applicable members)
    (sound : (validator.judgeWith (rounds + 1) base (.obj members) v).fault? = none) :
    ∃ k?, Keyword.ofMember members name value = .ok k? ∧ ∀ k, k? = some k →
      (k.judge validator (validator.inner rounds) base v).fault? = none ∧
        ∀ x ∈ (k.judge validator (validator.inner rounds) base v).violations,
          x.under [] k.step ∈ (validator.judgeWith (rounds + 1) base (.obj members) v).violations := by
  obtain ⟨r?, hr, hjudged⟩ := rule_judged hmem sound
  rw [Rule.ofMember_draft7] at hr
  obtain ⟨k?, hk, rfl⟩ := map_eq_ok.mp hr
  refine ⟨k?, hk, ?_⟩
  rintro k rfl
  exact hjudged (.shared k) rfl

/-- A keyword that counts has no fault, where the judging has none, and what it finds is found. -/
theorem keyword_judged_of_read {k : Keyword} (hmem : (name, value) ∈ Keyword.applicable members)
    (hk : Keyword.ofMember members name value = .ok (some k))
    (sound : (validator.judgeWith (rounds + 1) base (.obj members) v).fault? = none) :
    (k.judge validator (validator.inner rounds) base v).fault? = none ∧
      ∀ x ∈ (k.judge validator (validator.inner rounds) base v).violations,
        x.under [] k.step ∈ (validator.judgeWith (rounds + 1) base (.obj members) v).violations := by
  obtain ⟨k?, hread, hjudged⟩ := keyword_judged hmem sound
  cases hk.symm.trans hread
  exact hjudged k rfl

/-- All that a schema finds, one of its keywords that count finds. -/
theorem keyword_of_found
    (hy : y ∈ (validator.judgeWith (rounds + 1) base (.obj members) v).violations) :
    ∃ name value k x, (name, value) ∈ Keyword.applicable members ∧
      Keyword.ofMember members name value = .ok (some k) ∧
      x ∈ (k.judge validator (validator.inner rounds) base v).violations ∧
      y = x.under [] k.step := by
  obtain ⟨name, value, r, x, hmem, hr, hx, rfl⟩ := rule_of_found hy
  obtain ⟨k, rfl, hk⟩ := Rule.shared_of_draft7 hr
  exact ⟨name, value, k, x, hmem, hk, hx, rfl⟩

/-- In a schema without a reference every keyword counts. -/
theorem keyword_found (h : members.lookup "$ref" = none) (hmem : (name, value) ∈ members)
    (sound : (validator.judgeWith (rounds + 1) base (.obj members) v).fault? = none) :
    ∃ k?, Keyword.ofMember members name value = .ok k? ∧ ∀ k, k? = some k →
      (k.judge validator (validator.inner rounds) base v).fault? = none ∧
        ∀ x ∈ (k.judge validator (validator.inner rounds) base v).violations,
          x.under [] k.step ∈ (validator.judgeWith (rounds + 1) base (.obj members) v).violations := by
  rw [← applicable_of_no_reference h] at hmem
  exact keyword_judged hmem sound

theorem found_by_keyword (h : members.lookup "$ref" = none)
    (hy : y ∈ (validator.judgeWith (rounds + 1) base (.obj members) v).violations) :
    ∃ name value k x, (name, value) ∈ members ∧ Keyword.ofMember members name value = .ok (some k) ∧
      x ∈ (k.judge validator (validator.inner rounds) base v).violations ∧
      y = x.under [] k.step := by
  have hfound := keyword_of_found hy
  rw [applicable_of_no_reference h] at hfound
  exact hfound

end Validator

/-! ## One schema inside another -/

/-- A schema inside a schema, and the part of the value that it judges.  A key is judged by each pattern
that it matches. -/
inductive Inner (members : Members) : Json → Segment → Members → Json → Prop
  | property {ms name x ps sub} (keyword : members.lookup "properties" = some (.obj ps))
      (declared : (name, .obj sub) ∈ ps) (stands : ms.lookup name = some x) :
      Inner members (.obj ms) (.key name) sub x
  | pattern {ms key x ps regex sub} (keyword : members.lookup "patternProperties" = some (.obj ps))
      (declared : (regex, .obj sub) ∈ ps) (found : Regex.found regex key = .ok true)
      (mem : (key, x) ∈ ms) : Inner members (.obj ms) (.key key) sub x
  | item {xs i x sub} (keyword : members.lookup "items" = some (.obj sub))
      (stands : xs[i]? = some x) : Inner members (.arr xs) (.index i) sub x

theorem Inner.stands {members sub : Members} {v x : Json} {step : Segment}
    (h : Inner members v step sub x) (hv : v.Distinct) : v.step? step = some x ∧ x.Distinct := by
  cases h with
  | property _ _ hstands => exact ⟨hstands, hv.lookup hstands⟩
  | pattern _ _ _ hmem => exact ⟨lookup_of_mem hv.keys hmem, hv.mem hmem⟩
  | item _ hstands => exact ⟨hstands, hv.item hstands⟩

namespace Validator

variable {validator : Validator} {rounds : Nat} {base : String} {members sub : Members}
  {v x : Json} {step : Segment}

/-- **What an inner schema finds is found**, one step further down, where the judging has no fault. -/
theorem inner_found (h : members.lookup "$ref" = none)
    (sound : (validator.judgeWith (rounds + 1) base (.obj members) v).fault? = none)
    (hinner : Inner members v step sub x) :
    ∃ inside, (validator.inner rounds inside (.obj sub) x).fault? = none ∧
      ∀ y ∈ (validator.inner rounds inside (.obj sub) x).violations, ∃ schemaPlace,
        y.under [step] schemaPlace ∈
          (validator.judgeWith (rounds + 1) base (.obj members) v).violations := by
  -- a keyword enters the inner schema by `Judge.descend`, at a step of its own in the schema
  have henter : ∀ (k : Keyword) (schemaSteps : Position),
      ((validator.inner rounds).descend base (.obj sub) [step] schemaSteps x).fault? = none →
      (∀ y ∈ ((validator.inner rounds).descend base (.obj sub) [step] schemaSteps x).violations,
        y.under [] k.step ∈ (validator.judgeWith (rounds + 1) base (.obj members) v).violations) →
      ∃ inside, (validator.inner rounds inside (.obj sub) x).fault? = none ∧
        ∀ y ∈ (validator.inner rounds inside (.obj sub) x).violations, ∃ schemaPlace,
          y.under [step] schemaPlace ∈
            (validator.judgeWith (rounds + 1) base (.obj members) v).violations := by
    intro k schemaSteps hsound hfound
    refine ⟨baseInside base (.obj sub), hsound, fun y hy => ⟨k.step ++ schemaSteps, ?_⟩⟩
    have hunder := hfound _ (mem_under.mpr ⟨y, hy, rfl⟩)
    rw [Violation.under_under] at hunder
    exact hunder
  cases hinner with
  | @property ms name x ps sub hkeyword hdeclared hstands =>
    obtain ⟨k?, hk, hfound⟩ := keyword_found h (mem_keys_of_lookup hkeyword) sound
    cases hk
    obtain ⟨hsound, hfound⟩ := hfound _ rfl
    refine henter (.properties ps) [.key name] ?_ fun y hy => hfound y ?_
    · have hpart := sound_of_mem hsound hdeclared
      simp only [hstands] at hpart
      exact hpart
    · refine found_of_mem hsound hdeclared ?_
      simp only [hstands]
      exact hy
  | @pattern ms key x ps regex sub hkeyword hdeclared hmatch hkey =>
    obtain ⟨k?, hk, hfound⟩ := keyword_found h (mem_keys_of_lookup hkeyword) sound
    cases hk
    obtain ⟨hsound, hfound⟩ := hfound _ rfl
    have hmatches : Keyword.matchesPattern regex key = .ok true := by
      rw [Keyword.matchesPattern, hmatch]
    have hpattern := sound_of_mem hsound hdeclared
    refine henter (.patternProperties ps) [.key regex] ?_ fun y hy => hfound y ?_
    · have hpart := sound_of_mem hpattern hkey
      simp only [hmatches] at hpart
      exact hpart
    · refine found_of_mem hsound hdeclared (found_of_mem hpattern hkey ?_)
      simp only [hmatches]
      exact hy
  | @item xs i x sub hkeyword hstands =>
    obtain ⟨k?, hk, hfound⟩ := keyword_found h (mem_keys_of_lookup hkeyword) sound
    cases hk
    obtain ⟨hsound, hfound⟩ := hfound _ rfl
    have hitem : (x, i) ∈ xs.zipIdx 0 := List.mk_mem_zipIdx_iff_getElem?.mpr hstands
    let enter (p : Json × Nat) : Outcome :=
      (validator.inner rounds).descend base (.obj sub) [.index p.2] [] p.1
    have hconcat : (concat ((xs.zipIdx 0).map enter)).fault? = none := hsound
    refine henter (.items (.obj sub)) [] ?_ fun y hy => hfound y ?_
    · have hpart := sound_of_mem hconcat hitem
      exact hpart
    · have hpart : y ∈ (enter (x, i)).violations := hy
      exact found_of_mem hconcat hitem hpart

end Validator

/-! ## Places -/

/-- The way down to a place in a value, along schemas that stand inside one another.  No schema on it is a
reference, and none names another draft than draft-07. -/
inductive Judged : Members → Json → Position → Members → Json → Prop
  | here {members v} : Judged members v [] members v
  | down {members v step sub x place last y} (noReference : members.lookup "$ref" = none)
      (inner : Inner members v step sub x) (home : (Json.obj sub).namesOtherDraft = false)
      (rest : Judged sub x place last y) :
      Judged members v (step :: place) last y

/-- In a value with distinct keys, what is judged stands at its place. -/
theorem Judged.at? {members last : Members} {v w : Json} {place : Position}
    (h : Judged members v place last w) (hv : v.Distinct) : v.at? place = some w := by
  induction h with
  | here => rfl
  | down _ hinner _ _ ih =>
    obtain ⟨hstands, hx⟩ := hinner.stands hv
    rw [Json.at?_cons, hstands, Option.bind_some, ih hx]

namespace Validator

variable {validator : Validator} {rounds : Nat} {base : String} {members : Members} {v : Json}

/-- **What a schema finds at a place is found**, where the judging has no fault. -/
theorem found_at {place : Position} {last : Members} {w : Json}
    (sound : (validator.judgeWith rounds base (.obj members) v).fault? = none)
    (hjudged : Judged members v place last w) :
    ∃ fewer inside, (validator.judgeWith fewer inside (.obj last) w).fault? = none ∧
      ∀ y ∈ (validator.judgeWith fewer inside (.obj last) w).violations, ∃ schemaPlace,
        y.under place schemaPlace ∈ (validator.judgeWith rounds base (.obj members) v).violations := by
  induction hjudged generalizing rounds base with
  | here => exact ⟨rounds, base, sound, fun y hy => ⟨[], hy⟩⟩
  | @down members v step sub x place last w hnone hinner hhome hrest ih =>
    obtain ⟨fewer, rfl⟩ := rounds_of_sound sound
    obtain ⟨inside, hsound, hfound⟩ := inner_found hnone sound hinner
    rw [inner_of_home (draftOf_of_home hhome)] at hsound hfound
    obtain ⟨least, innermost, hlast, hbelow⟩ := ih hsound
    refine ⟨least, innermost, hlast, fun y hy => ?_⟩
    obtain ⟨schemaPlace, hy⟩ := hbelow y hy
    obtain ⟨outer, hy⟩ := hfound _ hy
    rw [Violation.under_under] at hy
    exact ⟨outer ++ schemaPlace, hy⟩

/-- What becomes of a schema, by what the metaschema finds. -/
def verdict (formats : Bool) (schema : Json) : Outcome → Except Rejection Validator
  | ⟨first :: _, _⟩ => .error (.malformed first)
  | ⟨[], some fault⟩ => .error (.fault fault)
  | ⟨[], none⟩ => .ok (ofSchema formats schema)

theorem compile_eq_verdict (formats : Bool) (schema : Json) :
    compile formats schema = verdict formats schema (metaschema.judge schema) := by
  -- the function is unfolded before it is applied: otherwise the kernel computes what the metaschema finds
  have hbody : @compile = compile := rfl
  conv at hbody =>
    rhs
    delta compile
  rw [hbody]
  dsimp only
  generalize metaschema.judge schema = found
  obtain ⟨violations, fault?⟩ := found
  cases violations with
  | cons first rest => rfl
  | nil => cases fault? <;> rfl

/-- **A schema with which nothing is wrong is made ready**, and no other. -/
theorem compile_eq_ok_iff {formats : Bool} {schema : Json} :
    compile formats schema = .ok validator ↔ metaschema.judge schema = .clean ∧ validator = ofSchema formats schema := by
  rw [compile_eq_verdict]
  generalize metaschema.judge schema = found
  obtain ⟨violations, fault?⟩ := found
  cases violations with
  | cons first rest => simp [verdict, Outcome.clean]
  | nil => cases fault? <;> simp [verdict, Outcome.clean, eq_comm]

theorem compile_eq_ok {formats : Bool} {schema : Json} (h : compile formats schema = .ok validator) :
    validator = ofSchema formats schema := (compile_eq_ok_iff.mp h).2

theorem compile_of_isSome {formats : Bool} {schema : Json}
    (h : (compile formats schema).toOption.isSome = true) :
    compile formats schema = .ok (ofSchema formats schema) := by
  cases hcompile : compile formats schema with
  | error rejection => rw [hcompile] at h; cases h
  | ok validator => rw [compile_eq_ok hcompile]

/-- A validator that was made ready judges by the schema that it was made from. -/
theorem judge_of_compile {formats : Bool} {schema : Json}
    (h : compile formats schema = .ok validator) (v : Json) : validator.judge v =
      validator.judgeWith (validator.fuelFor v) validator.registry.rootUri schema v := by
  rw [compile_eq_ok h]
  rfl

end Validator

end JsonMend
