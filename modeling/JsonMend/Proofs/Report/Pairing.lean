import Mathlib.Data.List.Nodup
import JsonMend.Proofs.Draft7.Missing
import JsonMend.Proofs.Report.Findings
/-
  What is queued under a pair of pointers is what the violations found there are about, in turn.

  1. **Paired** (`Paired`) — the violations that share the place and the schema place of one of them are about
     all that its keyword misses, in the order of the keyword.
  2. **Parts** (`Outcome.paired_concat`) — what is put together from paired parts is paired, if the texts of the
     steps tell the parts apart.
  3. **Keywords** (`Keyword.judge_paired`) — the parts of one keyword are told apart by the first step in the
     value or in the schema; what `dependencies` misses by itself, by there being no step at all.
  4. **Schemas** (`Validator.judgeWith_pairs`) — by induction on the rounds; the keywords of one schema are told
     apart by the first step in the schema.
-/
namespace JsonMend

open Outcome

/-! ## Paired -/

namespace Violation

/-- The parameters that name what a violation misses. -/
def named (y : Violation) : Members :=
  match y.complaint with
  | .missingProperty name _ => Report.requiredParams name
  | .missingDependency property name asked =>
    Report.dependencyParams property name ((asked.lookup property).getD [])
  | _ => []

/-- The parameters for all that the keyword misses. -/
def missed (y : Violation) : List Members := Report.missingNames y.value y.complaint

/-- The texts of the steps to the value and to the keyword. -/
def texts (y : Violation) : List String × List String :=
  (y.place.map Segment.text, y.schemaPlace.map Segment.text)

end Violation

section
variable {κ : Type} [DecidableEq κ] (key : Violation → κ)

/-- The violations about something missing that have a key. -/
def missingAt (spot : κ) (ys : List Violation) : List Violation :=
  ys.filter fun y => y.isMissing && decide (key y = spot)

/-- The violations that share the key of one of them are about all that its keyword misses, in turn. -/
def Paired (ys : List Violation) : Prop :=
  ∀ y ∈ ys, y.isMissing = true → (missingAt key (key y) ys).map Violation.named = y.missed

end

section
variable {κ : Type} [DecidableEq κ] {key : Violation → κ} {ys : List Violation} {spot : κ}

theorem paired_of_none (h : ∀ y ∈ ys, y.isMissing = false) : Paired key ys := by
  intro y hy hmissing
  cases (h y hy).symm.trans hmissing

theorem paired_of_nil (h : ys = []) : Paired key ys := by
  rw [h]
  intro y hy
  cases hy

theorem missingAt_eq_nil (h : ∀ y ∈ ys, y.isMissing = true → key y ≠ spot) :
    missingAt key spot ys = [] := by
  refine List.filter_eq_nil_iff.mpr fun y hy hboth => ?_
  rw [Bool.and_eq_true, decide_eq_true_eq] at hboth
  exact h y hy hboth.1 hboth.2

theorem missingAt_flatMap {α : Type} (f : α → List Violation) (parts : List α) :
    missingAt key spot (parts.flatMap f) = parts.flatMap fun a => missingAt key spot (f a) :=
  List.filter_flatMap

/-- A finer key may be replaced by a coarser one that tells the violations apart as well. -/
theorem Paired.of_key {μ : Type} [DecidableEq μ] {other : Violation → μ} (h : Paired key ys)
    (same : ∀ y ∈ ys, ∀ z ∈ ys, y.isMissing = true → z.isMissing = true →
      (other z = other y ↔ key z = key y)) : Paired other ys := by
  intro y hy hmissing
  rw [← h y hy hmissing]
  refine congrArg (List.map Violation.named) (List.filter_congr fun z hz => ?_)
  cases hz_missing : z.isMissing with
  | false => rfl
  | true =>
    rw [Bool.true_and, Bool.true_and]
    exact decide_eq_decide.mpr (same y hy z hz hmissing hz_missing)

end

/-! ## Parts -/

theorem flatMap_eq_of_nodup {α β τ : Type} {parts : List α} {f : α → List β} {tag : α → τ} {a : α}
    (nodup : (parts.map tag).Nodup) (ha : a ∈ parts)
    (others : ∀ b ∈ parts, tag b ≠ tag a → f b = []) : parts.flatMap f = f a := by
  induction parts with
  | nil => cases ha
  | cons first rest ih =>
    rw [List.map_cons, List.nodup_cons] at nodup
    obtain ⟨hfresh, hnodup⟩ := nodup
    rw [List.flatMap_cons]
    rcases List.mem_cons.mp ha with rfl | ha
    · have hrest : rest.flatMap f = [] := by
        refine List.flatMap_eq_nil_iff.mpr fun b hb => others b (List.mem_cons_of_mem _ hb) ?_
        intro htag
        exact hfresh (htag ▸ List.mem_map_of_mem hb)
      rw [hrest, List.append_nil]
    · have hfirst : f first = [] := by
        refine others first List.mem_cons_self fun htag => ?_
        exact hfresh (htag ▸ List.mem_map_of_mem ha)
      rw [hfirst, List.nil_append]
      exact ih hnodup ha fun b hb => others b (List.mem_cons_of_mem _ hb)

variable {validator : Validator} {sub : Judge} {base inside : String} {k : Keyword}
  {v x schema : Json} {steps schemaSteps : Position} {y : Violation} {ys : List Violation}

theorem Paired.under (h : Paired Violation.texts ys) (steps schemaSteps : Position) :
    Paired Violation.texts (ys.map (·.under steps schemaSteps)) := by
  intro y hy hmissing
  obtain ⟨z, hz, rfl⟩ := List.mem_map.mp hy
  have htexts : ∀ u : Violation,
      ((u.under steps schemaSteps).texts = (z.under steps schemaSteps).texts) = (u.texts = z.texts) := by
    intro u
    simp [Violation.texts, Violation.under]
  have hfilter : missingAt Violation.texts (z.under steps schemaSteps).texts
      (ys.map (·.under steps schemaSteps)) =
        (missingAt Violation.texts z.texts ys).map (·.under steps schemaSteps) := by
    rw [missingAt, List.filter_map]
    refine congrArg (List.map _) (List.filter_congr fun u _ => ?_)
    simp only [Function.comp_apply, htexts]
    rfl
  rw [hfilter, List.map_map]
  exact h z hz hmissing

/-- **What is put together from paired parts is paired**, if the texts of the steps tell to which part a
violation belongs. -/
theorem Outcome.paired_concat {α τ : Type} {parts : List α} {f : α → Outcome} (tag : α → τ)
    (head : List String × List String → τ) (nodup : (parts.map tag).Nodup)
    (sound : (concat (parts.map f)).fault? = none)
    (tagged : ∀ a ∈ parts, (f a).fault? = none →
      ∀ y ∈ (f a).violations, y.isMissing = true → head y.texts = tag a)
    (each : ∀ a ∈ parts, (f a).fault? = none → Paired Violation.texts (f a).violations) :
    Paired Violation.texts (concat (parts.map f)).violations := by
  have hsound : ∀ a ∈ parts, (f a).fault? = none := fun a ha => sound_of_mem sound ha
  rw [concat_violations (concat_fault?_eq_none.mp sound), List.flatMap_map]
  intro y hy hmissing
  obtain ⟨a, ha, hya⟩ := List.mem_flatMap.mp hy
  rw [missingAt_flatMap, flatMap_eq_of_nodup nodup ha]
  · exact each a ha (hsound a ha) y hya hmissing
  · intro b hb htag
    refine missingAt_eq_nil fun z hz hz_missing htexts => htag ?_
    rw [← tagged b hb (hsound b hb) z hz hz_missing, htexts, tagged a ha (hsound a ha) y hya hmissing]

/-! ## Keywords -/

/-- A judge whose findings are paired, and that misses nothing in a string. -/
structure Judge.Pairs (sub : Judge) : Prop where
  paired : ∀ {inside schema x}, schema.Distinct → x.Distinct → (sub inside schema x).fault? = none →
    Paired Violation.texts (sub inside schema x).violations
  strings : ∀ {inside schema s}, (sub inside schema (.str s)).fault? = none →
    ∀ y ∈ (sub inside schema (.str s)).violations, y.isMissing = false

namespace Judge

/-- What is found missing in descending lies behind the steps. -/
theorem texts_of_descend (hy : y ∈ (sub.descend base schema steps schemaSteps x).violations)
    (missing : y.isMissing = true) : ∃ below schemaBelow,
      y.texts = (steps.map Segment.text ++ below, schemaSteps.map Segment.text ++ schemaBelow) := by
  by_cases hrefuses : schema = .bool false
  · subst hrefuses
    rw [List.mem_singleton.mp hy] at missing
    cases missing
  · rw [descend_of_ne hrefuses] at hy
    obtain ⟨inner, -, rfl⟩ := mem_under.mp hy
    refine ⟨inner.place.map Segment.text, inner.schemaPlace.map Segment.text, ?_⟩
    simp only [Violation.texts, Violation.under, List.map_append]

/-- The first step down in the value can be read off what is missing there. -/
theorem place_of_descend {step : Segment}
    (hy : y ∈ (sub.descend base schema (step :: steps) schemaSteps x).violations) (missing : y.isMissing = true) :
    y.texts.1.headD "" = step.text := by
  obtain ⟨below, schemaBelow, htexts⟩ := texts_of_descend hy missing
  rw [htexts]
  rfl

/-- And so can the first step down in the schema. -/
theorem schemaPlace_of_descend {step : Segment}
    (hy : y ∈ (sub.descend base schema steps (step :: schemaSteps) x).violations) (missing : y.isMissing = true) :
    y.texts.2.headD "" = step.text := by
  obtain ⟨below, schemaBelow, htexts⟩ := texts_of_descend hy missing
  rw [htexts]
  rfl

theorem Pairs.descend (pairs : sub.Pairs) (distinct : schema.Distinct) (hx : x.Distinct)
    (sound : (sub.descend base schema steps schemaSteps x).fault? = none) :
    Paired Violation.texts (sub.descend base schema steps schemaSteps x).violations := by
  by_cases hrefuses : schema = .bool false
  · subst hrefuses
    refine paired_of_none fun y hy => ?_
    rw [List.mem_singleton.mp hy]
    rfl
  · rw [descend_of_ne hrefuses] at sound ⊢
    exact (pairs.paired distinct hx sound).under _ _

theorem Pairs.descend_str (pairs : sub.Pairs) {s : String}
    (sound : (sub.descend base schema [] [] (.str s)).fault? = none)
    (hy : y ∈ (sub.descend base schema [] [] (.str s)).violations) : y.isMissing = false := by
  by_cases hrefuses : schema = .bool false
  · subst hrefuses
    rw [List.mem_singleton.mp hy]
    rfl
  · rw [descend_of_ne hrefuses] at sound hy
    obtain ⟨inner, hinner, rfl⟩ := mem_under.mp hy
    exact pairs.strings sound inner hinner

end Judge

namespace Keyword

theorem violations_require_each {ms : Members} (names : List String) (complaint : String → Complaint) :
    (concat (names.map fun name => require (hasKey ms name) v (complaint name))).violations =
      (names.filter (!hasKey ms ·)).map fun name => .here (complaint name) v := by
  induction names with
  | nil => rfl
  | cons name rest ih =>
    rw [List.map_cons, concat_cons, List.filter_cons]
    cases hkey : hasKey ms name with
    | true =>
      have hclean : require true v (complaint name) = clean := rfl
      rw [hclean, clean_append, ih]
      rfl
    | false =>
      have hcomplain : require false v (complaint name) = complain v (complaint name) := rfl
      rw [hcomplain, append_violations rfl, ih]
      rfl

/-- What a keyword misses by itself has no steps. -/
theorem missingAt_here {names : List String} {complaint : String → Complaint}
    (missing : ∀ name, (complaint name).isMissing = true) :
    missingAt Violation.texts ([], []) (names.map fun name => .here (complaint name) v) =
      names.map fun name => .here (complaint name) v := by
  refine List.filter_eq_self.mpr fun y hy => ?_
  obtain ⟨name, -, rfl⟩ := List.mem_map.mp hy
  rw [Bool.and_eq_true, decide_eq_true_eq]
  exact ⟨missing name, rfl⟩

theorem required_paired {names : List String} :
    Paired Violation.texts ((Keyword.required names).judge validator sub base v).violations := by
  cases v with
  | obj ms =>
    rw [Keyword.judge, violations_require_each]
    intro y hy _
    obtain ⟨name, -, rfl⟩ := List.mem_map.mp hy
    refine (congrArg (List.map Violation.named) (missingAt_here fun _ => rfl)).trans ?_
    rw [List.map_map]
    rfl
  | null | bool | num | str | arr => exact paired_of_nil rfl

/-! ### `dependencies` -/

theorem listed_subset {entries : List (String × Dependency)} {property : String} {names : List String}
    (h : (property, .properties names) ∈ entries) : (property, names) ∈ Dependency.listed entries :=
  List.mem_filterMap.mpr ⟨_, h, rfl⟩

theorem listed_nodup {entries : List (String × Dependency)} (nodup : (entries.map Prod.fst).Nodup) :
    ((Dependency.listed entries).map Prod.fst).Nodup := by
  have hsublist : ((Dependency.listed entries).map Prod.fst).Sublist (entries.map Prod.fst) := by
    induction entries with
    | nil => exact .slnil
    | cons e rest ih =>
      rw [List.map_cons, List.nodup_cons] at nodup
      obtain ⟨property, d⟩ := e
      cases d with
      | properties names => exact (ih nodup.2).cons_cons _
      | schema s => exact (ih nodup.2).cons _
  exact nodup.sublist hsublist

/-- What one entry of `dependencies` finds. -/
def entryOutcome (sub : Judge) (base : String) (ms : Members) (asked : List (String × List String))
    (e : String × Dependency) : Outcome :=
  if hasKey ms e.1 then
    match e.2 with
    | .properties names => .concat (names.map fun name =>
        require (hasKey ms name) (.obj ms) (.missingDependency e.1 name asked))
    | .schema schema => sub.descend base schema [] [.key e.1] (.obj ms)
  else .clean

theorem judge_dependencies (entries : List (String × Dependency)) (ms : Members) :
    (Keyword.dependencies entries).judge validator sub base (.obj ms) =
      .concat (entries.map (entryOutcome sub base ms (Dependency.listed entries))) := rfl

/-- The parameters for what one entry misses. -/
def entryMissed (ms : Members) (e : String × Dependency) : List Members :=
  match e.2 with
  | .properties names =>
    if hasKey ms e.1 then
      (names.filter (!hasKey ms ·)).map (Report.dependencyParams e.1 · names)
    else []
  | .schema _ => []

/-- All that `dependencies` misses, entry by entry. -/
theorem missingNames_dependencies (entries : List (String × Dependency)) (ms : Members)
    (property name : String) :
    Report.missingNames (.obj ms) (.missingDependency property name (Dependency.listed entries)) =
      entries.flatMap (entryMissed ms) := by
  show (Dependency.listed entries).flatMap _ = _
  induction entries with
  | nil => rfl
  | cons e rest ih =>
    obtain ⟨property, d⟩ := e
    cases d with
    | properties names =>
      rw [List.flatMap_cons, ← ih]
      rfl
    | schema s =>
      rw [List.flatMap_cons, ← ih]
      rfl

/-- What an entry misses by itself, at the place of the keyword. -/
theorem entry_named {entries : List (String × Dependency)} {ms : Members} {e : String × Dependency}
    (nodup : (entries.map Prod.fst).Nodup) (he : e ∈ entries) :
    (missingAt Violation.texts ([], [])
      (entryOutcome sub base ms (Dependency.listed entries) e).violations).map Violation.named =
        entryMissed ms e := by
  obtain ⟨property, d⟩ := e
  cases d with
  | properties names =>
    unfold entryOutcome entryMissed
    dsimp only
    split
    · rw [violations_require_each, missingAt_here fun _ => rfl, List.map_map]
      refine List.map_congr_left fun name _ => ?_
      have hlookup := lookup_of_mem (listed_nodup nodup) (listed_subset he)
      simp only [Function.comp_apply, Violation.named, Violation.here, hlookup, Option.getD_some]
    · rfl
  | schema s =>
    unfold entryOutcome entryMissed
    dsimp only
    split
    · have hnone : missingAt Violation.texts ([], [])
          (sub.descend base s [] [.key property] (.obj ms)).violations = [] := by
        refine missingAt_eq_nil fun y hy hmissing htexts => ?_
        obtain ⟨below, schemaBelow, hbelow⟩ := Judge.texts_of_descend hy hmissing
        cases hbelow.symm.trans htexts
      rw [hnone]
      rfl
    · rfl

/-- What an entry finds missing it misses by itself, or stands behind the entry's own step. -/
theorem entry_found {asked : List (String × List String)} {ms : Members} {e : String × Dependency}
    (hy : y ∈ (entryOutcome sub base ms asked e).violations) (missing : y.isMissing = true) :
    (∃ names name, e.2 = .properties names ∧ hasKey ms e.1 = true ∧ name ∈ names ∧
        hasKey ms name = false ∧ y = .here (.missingDependency e.1 name asked) (.obj ms)) ∨
      (∃ s, e.2 = .schema s ∧ hasKey ms e.1 = true) ∧ y.texts.2.head? = some e.1 := by
  obtain ⟨property, d⟩ := e
  unfold entryOutcome at hy
  dsimp only at hy
  split at hy
  · rename_i hpresent
    cases d with
    | properties names =>
      rw [violations_require_each] at hy
      obtain ⟨name, hname, rfl⟩ := List.mem_map.mp hy
      obtain ⟨hmem, habsent⟩ := List.mem_filter.mp hname
      exact .inl ⟨names, name, rfl, hpresent, hmem, by simpa using habsent, rfl⟩
    | schema s =>
      obtain ⟨below, schemaBelow, htexts⟩ := Judge.texts_of_descend hy missing
      refine .inr ⟨⟨s, rfl, hpresent⟩, ?_⟩
      rw [htexts]
      rfl
  · cases hy

theorem dependencies_paired {entries : List (String × Dependency)} (pairs : sub.Pairs)
    (distinct : (Keyword.dependencies entries).Distinct) (hv : v.Distinct)
    (sound : ((Keyword.dependencies entries).judge validator sub base v).fault? = none) :
    Paired Violation.texts ((Keyword.dependencies entries).judge validator sub base v).violations := by
  cases v with
  | null | bool | num | str | arr => exact paired_of_nil rfl
  | obj ms =>
    rw [judge_dependencies] at sound ⊢
    rw [concat_violations (concat_fault?_eq_none.mp sound), List.flatMap_map]
    intro y hy hmissing
    obtain ⟨e, he, hye⟩ := List.mem_flatMap.mp hy
    rw [missingAt_flatMap]
    rcases entry_found hye hmissing with ⟨_, name, -, -, -, -, rfl⟩ | ⟨⟨s, hs, hpresent⟩, hhead⟩
    · -- what the keyword misses by itself is collected from all entries
      have htexts : (Violation.here (.missingDependency e.1 name (Dependency.listed entries))
        (.obj ms)).texts = ([], []) := rfl
      rw [htexts, List.map_flatMap, Violation.missed]
      refine Eq.trans ?_ (missingNames_dependencies entries ms e.1 name).symm
      exact List.flatMap_congr fun other hother => entry_named distinct.1 hother
    · -- what a schema misses that a property depends on is told by the property
      rw [flatMap_eq_of_nodup distinct.1 he]
      · obtain ⟨property, d⟩ := e
        cases hs
        have hpart : entryOutcome sub base ms (Dependency.listed entries) (property, .schema s) =
          sub.descend base s [] [.key property] (.obj ms) := if_pos hpresent
        have hsound := sound_of_mem sound he
        rw [hpart] at hye hsound ⊢
        exact pairs.descend (distinct.2 _ _ he) hv hsound y hye hmissing
      · intro other hother htag
        refine missingAt_eq_nil fun z hz hz_missing hsame => ?_
        rcases entry_found hz hz_missing with ⟨_, _, -, -, -, -, hz_here⟩ | ⟨-, hz_head⟩
        · rw [← hsame, hz_here] at hhead
          cases hhead
        · rw [hsame, hhead] at hz_head
          exact htag (Option.some.inj hz_head).symm

/-! ### The others -/

theorem paired_of_owned {o : Outcome} (h : o.Owned v k.name) (asksNot : ¬ k.Asks) :
    Paired Violation.texts o.violations := by
  refine paired_of_none fun y hy => ?_
  obtain ⟨-, hname⟩ := h y hy
  exact eq_false_of_ne_true fun hmissing => asksNot (asks_of_missing hmissing hname)

theorem index_texts_nodup {α : Type} (parts : List α) (start : Nat) :
    ((parts.zipIdx start).map fun p => (Segment.index p.2).text).Nodup := by
  have hindices : ((parts.zipIdx start).map Prod.snd).Nodup := by
    rw [List.zipIdx_map_snd]
    exact List.nodup_range'
  have htexts := hindices.map (f := fun i => (Segment.index i).text) fun i j h => index_eq_of_text h
  rwa [List.map_map] at htexts

theorem overItems_paired {xs : List Json} {start : Nat} (pairs : sub.Pairs) (distinct : schema.Distinct)
    (hxs : ∀ x ∈ xs, x.Distinct)
    (sound : (overItems (fun i x => sub.descend base schema [.index i] [] x) start xs).fault? = none) :
    Paired Violation.texts
      (overItems (fun i x => sub.descend base schema [.index i] [] x) start xs).violations := by
  refine paired_concat _ (fun t => t.1.headD "") (index_texts_nodup xs start) sound ?_ ?_
  · rintro ⟨x, i⟩ - - y hy hmissing
    exact Judge.place_of_descend hy hmissing
  · rintro ⟨x, i⟩ hmem hsound
    exact pairs.descend distinct (hxs x (List.fst_mem_of_mem_zipIdx hmem)) hsound

theorem paired_of_require {met : Bool} {complaint : Complaint} (h : complaint.isMissing = false) :
    Paired Violation.texts (require met v complaint).violations := by
  refine paired_of_none fun y hy => ?_
  obtain ⟨-, rfl⟩ := mem_require.mp hy
  exact h

/-- What a pattern finds missing in the value of a key stands behind both. -/
theorem texts_of_pattern {regex key : String}
    (hy : y ∈ (ofExcept (matchesPattern regex key) fun found =>
      if found then sub.descend base schema [.key key] [.key regex] x else .clean).violations)
    (missing : y.isMissing = true) : y.texts.1.headD "" = key ∧ y.texts.2.headD "" = regex := by
  cases hmatches : matchesPattern regex key with
  | error fault =>
    rw [hmatches] at hy
    cases hy
  | ok found =>
    rw [hmatches] at hy
    cases found with
    | true => exact ⟨Judge.place_of_descend hy missing, Judge.schemaPlace_of_descend hy missing⟩
    | false => cases hy

theorem extras_nodup {declared patterns extras : List String} {ms : Members}
    (distinct : (Json.obj ms).Distinct) (h : extraKeys declared patterns ms = .ok extras) :
    extras.Nodup := by
  unfold extraKeys at h
  rw [select_eq_filter h]
  exact distinct.keys.filter _

theorem properties_paired {schemas : List (String × Json)} (pairs : sub.Pairs)
    (keyword : (Keyword.properties schemas).Distinct) (hv : v.Distinct)
    (sound : ((Keyword.properties schemas).judge validator sub base v).fault? = none) :
    Paired Violation.texts ((Keyword.properties schemas).judge validator sub base v).violations := by
  cases v with
  | obj ms =>
    refine paired_concat Prod.fst (fun t => t.2.headD "") keyword.keys sound ?_ ?_
    · rintro ⟨name, s⟩ - - y hy hmissing
      dsimp only at hy
      split at hy
      · exact Judge.schemaPlace_of_descend hy hmissing
      · cases hy
    · rintro ⟨name, s⟩ hmem hsound
      dsimp only at hsound ⊢
      split at hsound
      · rename_i hstands
        exact pairs.descend (keyword.mem hmem) (hv.lookup hstands) hsound
      · exact paired_of_nil rfl
  | null | bool | num | str | arr => exact paired_of_nil rfl

theorem patternProperties_paired {schemas : List (String × Json)} (pairs : sub.Pairs)
    (keyword : (Keyword.patternProperties schemas).Distinct) (hv : v.Distinct)
    (sound : ((Keyword.patternProperties schemas).judge validator sub base v).fault? = none) :
    Paired Violation.texts ((Keyword.patternProperties schemas).judge validator sub base v).violations := by
  cases v with
  | obj ms =>
    -- the keys of one pattern are told apart by the place, the patterns by the schema's place
    refine paired_concat Prod.fst (fun t => t.2.headD "") keyword.keys sound ?_ ?_
    · rintro ⟨regex, s⟩ - hsound y hy hmissing
      obtain ⟨⟨key, x⟩, -, hfault, hy⟩ := part_of_found hsound hy
      exact (texts_of_pattern hy hmissing).2
    · rintro ⟨regex, s⟩ hmem hsound
      refine paired_concat Prod.fst (fun t => t.1.headD "") hv.keys hsound ?_ ?_
      · rintro ⟨key, x⟩ - hfault y hy hmissing
        exact (texts_of_pattern hy hmissing).1
      · rintro ⟨key, x⟩ hx hfault
        obtain ⟨found, hfound⟩ := sound_ofExcept hfault
        dsimp only at hfault ⊢
        rw [hfound] at hfault ⊢
        cases found with
        | true => exact pairs.descend (keyword.mem hmem) (hv.mem hx) hfault
        | false => exact paired_of_nil rfl
  | null | bool | num | str | arr => exact paired_of_nil rfl

theorem additionalProperties_paired {declared patterns : List String} (pairs : sub.Pairs)
    (distinct : schema.Distinct) (hv : v.Distinct)
    (sound : ((Keyword.additionalProperties declared patterns schema).judge validator sub base v).fault? = none) :
    Paired Violation.texts ((Keyword.additionalProperties declared patterns schema).judge validator sub base v).violations := by
  cases v with
  | obj ms =>
    rw [Keyword.judge] at sound ⊢
    obtain ⟨extras, hextras⟩ := sound_ofExcept sound
    rw [hextras] at sound ⊢
    cases schema with
    | obj members =>
      refine paired_concat id (fun t => t.1.headD "") ?_ sound ?_ ?_
      · rw [List.map_id]
        exact extras_nodup hv hextras
      · rintro key - - y hy hmissing
        split at hy
        · exact Judge.place_of_descend hy hmissing
        · cases hy
      · intro key _ hsound
        split at hsound
        · rename_i hstands
          exact pairs.descend distinct (hv.lookup hstands) hsound
        · exact paired_of_nil rfl
    | bool b =>
      cases b with
      | true => exact paired_of_nil rfl
      | false => exact paired_of_require rfl
    | null | num | str | arr => exact paired_of_nil rfl
  | null | bool | num | str | arr => exact paired_of_nil rfl

theorem itemsInTurn_paired {schemas : List Json} (pairs : sub.Pairs)
    (distinct : ∀ s ∈ schemas, s.Distinct) (hv : v.Distinct)
    (sound : ((Keyword.itemsInTurn schemas).judge validator sub base v).fault? = none) :
    Paired Violation.texts ((Keyword.itemsInTurn schemas).judge validator sub base v).violations := by
  cases v with
  | arr xs =>
    refine paired_concat _ (fun t => t.1.headD "") (index_texts_nodup _ 0) sound ?_ ?_
    · rintro ⟨⟨x, s⟩, i⟩ - - y hy hmissing
      exact Judge.place_of_descend hy hmissing
    · rintro ⟨⟨x, s⟩, i⟩ hmem hsound
      obtain ⟨hx, hs⟩ := List.of_mem_zip (List.fst_mem_of_mem_zipIdx hmem)
      exact pairs.descend (distinct s hs) (Json.eachObject_arr.mp hv x hx) hsound
  | null | bool | num | str | obj => exact paired_of_nil rfl

theorem additionalItems_paired {covered : Option Nat} (pairs : sub.Pairs)
    (distinct : schema.Distinct) (hv : v.Distinct)
    (sound : ((Keyword.additionalItems covered schema).judge validator sub base v).fault? = none) :
    Paired Violation.texts ((Keyword.additionalItems covered schema).judge validator sub base v).violations := by
  cases v with
  | arr xs =>
    cases covered with
    | none => cases sound
    | some n =>
      cases schema with
      | obj members =>
        exact overItems_paired pairs distinct
          (fun x hx => Json.eachObject_arr.mp hv x (List.mem_of_mem_drop hx)) sound
      | bool b =>
        cases b with
        | true => exact paired_of_nil rfl
        | false => exact paired_of_require rfl
      | null | num | str | arr => exact paired_of_nil rfl
  | null | bool | num | str | obj => cases covered <;> exact paired_of_nil rfl

theorem allOf_paired {schemas : List Json} (pairs : sub.Pairs)
    (distinct : ∀ s ∈ schemas, s.Distinct) (hv : v.Distinct)
    (sound : ((Keyword.allOf schemas).judge validator sub base v).fault? = none) :
    Paired Violation.texts ((Keyword.allOf schemas).judge validator sub base v).violations := by
  refine paired_concat _ (fun t => t.2.headD "") (index_texts_nodup schemas 0) sound ?_ ?_
  · rintro ⟨s, i⟩ - - y hy hmissing
    exact Judge.schemaPlace_of_descend hy hmissing
  · rintro ⟨s, i⟩ hmem hsound
    exact pairs.descend (distinct s (List.fst_mem_of_mem_zipIdx hmem)) hv hsound

theorem conditional_paired {test : Json} {whenMet whenUnmet : Option Json} (pairs : sub.Pairs)
    (distinct : ∀ s, whenMet = some s ∨ whenUnmet = some s → s.Distinct) (hv : v.Distinct)
    (sound : ((Keyword.conditional test whenMet whenUnmet).judge validator sub base v).fault? = none) :
    Paired Violation.texts ((Keyword.conditional test whenMet whenUnmet).judge validator sub base v).violations := by
  rw [Keyword.judge] at sound ⊢
  obtain ⟨met, htested⟩ := sound_ofExcept sound
  rw [htested] at sound ⊢
  cases met with
  | true =>
    cases whenMet with
    | none => cases whenUnmet <;> exact paired_of_nil rfl
    | some s => exact pairs.descend (distinct s (.inl rfl)) hv sound
  | false =>
    cases whenUnmet with
    | none => cases whenMet <;> exact paired_of_nil rfl
    | some s =>
      cases whenMet with
      | none | some => exact pairs.descend (distinct s (.inr rfl)) hv sound

/-- **What one keyword finds missing is paired**, if what the schemas inside it find is. -/
theorem judge_paired (pairs : sub.Pairs) (registry : validator.registry.Distinct)
    (keyword : k.Distinct) (hv : v.Distinct) (sound : (k.judge validator sub base v).fault? = none) :
    Paired Violation.texts (k.judge validator sub base v).violations := by
  cases k with
  | required names => exact required_paired
  | dependencies entries => exact dependencies_paired pairs keyword hv sound
  | type | enum | const | bound | multipleOf | count | uniqueItems | pattern | format | contains
  | anyOf | oneOf | forbid => exact paired_of_owned (own_findings rfl) (by rintro ⟨⟩)
  | reference target =>
    rw [Keyword.judge] at sound ⊢
    obtain ⟨⟨schema, inside⟩, hresolved⟩ := sound_ofExcept sound
    rw [hresolved] at sound ⊢
    exact pairs.paired (registry.resolve hresolved) hv sound
  | properties schemas => exact properties_paired pairs keyword hv sound
  | patternProperties schemas => exact patternProperties_paired pairs keyword hv sound
  | propertyNames s =>
    cases v with
    | obj ms =>
      refine paired_of_none fun y hy => ?_
      obtain ⟨⟨key, x⟩, -, hsound, hy⟩ := part_of_found sound hy
      exact pairs.descend_str hsound hy
    | null | bool | num | str | arr => exact paired_of_nil rfl
  | additionalProperties declared patterns s => exact additionalProperties_paired pairs keyword hv sound
  | items s =>
    cases v with
    | arr xs => exact overItems_paired pairs keyword (Json.eachObject_arr.mp hv) sound
    | null | bool | num | str | obj => exact paired_of_nil rfl
  | itemsInTurn schemas => exact itemsInTurn_paired pairs keyword hv sound
  | additionalItems covered s => exact additionalItems_paired pairs keyword hv sound
  | allOf schemas => exact allOf_paired pairs keyword hv sound
  | conditional test whenMet whenUnmet => exact conditional_paired pairs keyword hv sound

end Keyword

/-! ## Schemas -/

namespace Validator

/-- What one member of a schema finds. -/
def memberOutcome (validator : Validator) (sub : Judge) (base : String) (members : Members) (v : Json)
    (m : String × Json) : Outcome :=
  .ofExcept (Keyword.ofMember members m.1 m.2) fun
    | some k => (k.judge validator sub base v).under [] k.step
    | none => .clean

theorem memberOutcome_sound {members : Members} {m : String × Json}
    (sound : (memberOutcome validator sub base members v m).fault? = none) :
    (memberOutcome validator sub base members v m).violations = [] ∨
      ∃ k, Keyword.ofMember members m.1 m.2 = .ok (some k) ∧
        (k.judge validator sub base v).fault? = none ∧
        (memberOutcome validator sub base members v m).violations =
          (k.judge validator sub base v).violations.map (·.under [] k.step) := by
  unfold memberOutcome at sound ⊢
  obtain ⟨k?, hk⟩ := sound_ofExcept sound
  rw [hk] at sound ⊢
  cases k? with
  | none => exact .inl rfl
  | some k => exact .inr ⟨k, rfl, sound, rfl⟩

theorem applicable_nodup {members : Members} (distinct : (Json.obj members).Distinct) :
    ((Keyword.applicable members).map Prod.fst).Nodup := by
  unfold Keyword.applicable
  split
  · exact distinct.keys
  · exact distinct.keys
  · exact List.nodup_singleton _

theorem judgeKeywords_paired {members : Members} (pairs : sub.Pairs)
    (registry : validator.registry.Distinct) (distinct : (Json.obj members).Distinct) (hv : v.Distinct)
    (sound : (validator.judgeKeywords sub base members v (Keyword.applicable members)).fault? = none) :
    Paired Violation.texts
      (validator.judgeKeywords sub base members v (Keyword.applicable members)).violations := by
  have hparts : validator.judgeKeywords sub base members v (Keyword.applicable members) =
    concat ((Keyword.applicable members).map (memberOutcome validator sub base members v)) := rfl
  rw [hparts] at sound ⊢
  have each : ∀ m ∈ Keyword.applicable members,
      (memberOutcome validator sub base members v m).fault? = none →
      Paired Violation.texts (memberOutcome validator sub base members v m).violations := by
    rintro ⟨name, value⟩ hmem hsound
    rcases memberOutcome_sound hsound with hnil | ⟨k, hk, hjudged, hfound⟩
    · exact paired_of_nil hnil
    · rw [hfound]
      have hkeyword := Keyword.distinct_of_ofMember distinct (mem_of_applicable hmem) hk
      exact (Keyword.judge_paired pairs registry hkeyword hv hjudged).under _ _
  by_cases href : ∃ name value target, (name, value) ∈ Keyword.applicable members ∧
      Keyword.ofMember members name value = .ok (some (.reference target))
  · -- a reference stands alone, so there is nothing to tell apart
    obtain ⟨name, value, target, hmem, hk⟩ := href
    have halone := applicable_of_reference distinct hmem hk
    refine paired_concat (fun _ => ()) (fun _ => ()) ?_ sound (fun _ _ _ _ _ _ => rfl) each
    rw [halone]
    exact List.nodup_singleton _
  · refine paired_concat Prod.fst (fun t => Keyword.ownerOf (t.2.headD ""))
      (applicable_nodup distinct) sound ?_ each
    rintro ⟨name, value⟩ hmem hsound y hy hmissing
    rcases memberOutcome_sound hsound with hnil | ⟨k, hk, hjudged, hfound⟩
    · rw [hnil] at hy
      cases hy
    · rw [hfound] at hy
      obtain ⟨inner, hinner, rfl⟩ := List.mem_map.mp hy
      have hnoReference : ∀ target, k ≠ .reference target := by
        rintro target rfl
        exact href ⟨name, value, target, hmem, hk⟩
      obtain ⟨lead, hlead, rest, htexts⟩ := Keyword.leads_of_found hnoReference hjudged hinner hmissing
      have hhead : (inner.under [] k.step).texts.2 = lead :: rest := htexts
      rw [hhead, Keyword.name_of_ofMember hk]
      exact Keyword.ownerOf_leads hlead

/-- **What a schema finds missing is paired.** -/
theorem judgeWith_pairs (native : validator.drafts = []) (registry : validator.registry.Distinct) (rounds : Nat) :
    (validator.judgeWith rounds : Judge).Pairs := by
  refine ⟨?_, fun sound y hy => not_missing_of_str native sound hy⟩
  induction rounds with
  | zero =>
    intro inside schema x _ _ sound
    cases sound
  | succ rounds ih =>
    intro inside schema x distinct hx sound
    cases schema with
    | obj members =>
      rw [judgeWith_obj, inner_of_native native] at sound ⊢
      exact judgeKeywords_paired ⟨ih, fun sound y hy => not_missing_of_str native sound hy⟩ registry distinct hx sound
    | bool b =>
      cases b with
      | true => exact paired_of_nil rfl
      | false =>
        refine paired_of_none fun y hy => ?_
        rw [List.mem_singleton.mp hy]
        rfl
    | null | num | str | arr => exact paired_of_nil rfl

end Validator

end JsonMend
