import JsonMend.Proofs.Draft7.Own
/-
  Direct schemas: what is found at a place, a schema that judges the place finds by itself.

  1. **Own findings** (`own_findings`) — most keywords pass on nothing that an inner schema finds.  What such a
     keyword finds, it finds about the value at hand, and it is the keyword that complains.
  2. **Direct** — a schema that passes on what the schemas of its properties, patterns and items find, and
     nothing else; so do all schemas inside it.
  3. **From a finding to a place** (`found_direct`) — by induction on the rounds: a finding is a schema's own,
     or it was found one step further down, by a schema that is direct in turn.
-/
namespace JsonMend

open Outcome

/-! ## Own findings -/

variable {v : Json} {name : String} {complaint : Complaint}

/-- All that is found is found about the value at hand, by the keyword of the name. -/
def Outcome.Owned (o : Outcome) (v : Json) (name : String) : Prop :=
  ∀ y ∈ o.violations, y = .here y.complaint v ∧ y.keyword = name

namespace Outcome

theorem owned_of_nil {o : Outcome} (h : o.violations = []) : o.Owned v name := by
  intro y hy
  rw [h] at hy
  cases hy

theorem owned_complain (h : complaint.keyword = name) : (complain v complaint).Owned v name := by
  intro y hy
  rw [List.mem_singleton.mp hy]
  exact ⟨rfl, h⟩

theorem owned_require {met : Bool} (h : complaint.keyword = name) :
    (Keyword.require met v complaint).Owned v name := by
  unfold Keyword.require
  cases met with
  | true => exact owned_of_nil rfl
  | false => exact owned_complain h

theorem owned_ofExcept {α : Type} {e : Except Fault α} {f : α → Outcome}
    (h : ∀ a, (f a).Owned v name) : (ofExcept e f).Owned v name := by
  cases e with
  | error fault => exact owned_of_nil rfl
  | ok a => exact h a

theorem owned_concat {α : Type} {f : α → Outcome} {parts : List α} (h : ∀ a, (f a).Owned v name) :
    (concat (parts.map f)).Owned v name := by
  intro y hy
  obtain ⟨o, ho, hy⟩ := mem_violations_concat hy
  obtain ⟨a, -, rfl⟩ := List.mem_map.mp ho
  exact h a y hy

end Outcome

namespace Keyword

variable {members : Members} {value : Json} {k : Keyword}

/-- What a requirement that is not met finds. -/
theorem mem_require {met : Bool} {y : Violation} :
    y ∈ (require met v complaint).violations ↔ met = false ∧ y = .here complaint v := by
  unfold require
  cases met with
  | true => simp [clean]
  | false => simp [complain]

/-- What the keyword for additional properties finds about an object itself is that a closed one has extra
keys. -/
theorem undeclared_of_here {validator : Validator} {sub : Judge} {base : String}
    {declared patterns : List String} {schema : Json}
    (h : .here complaint v ∈
      ((Keyword.additionalProperties declared patterns schema).judge validator sub base v).violations) :
    ∃ ms extras, schema = .bool false ∧ v = .obj ms ∧ extraKeys declared patterns ms = .ok extras ∧
      extras ≠ [] ∧ complaint = .undeclared extras declared patterns := by
  cases v with
  | obj ms =>
    rw [Keyword.judge] at h
    cases hextras : Keyword.extraKeys declared patterns ms with
    | error fault =>
      rw [hextras] at h
      cases h
    | ok extras =>
      rw [hextras] at h
      cases schema with
      | obj inner =>
        -- what an inner schema finds is found further down
        obtain ⟨o, ho, h⟩ := mem_violations_concat h
        obtain ⟨key, -, rfl⟩ := List.mem_map.mp ho
        split at h
        · obtain ⟨deep, -, heq⟩ := mem_under.mp h
          cases congrArg Violation.place heq
        · cases h
      | bool b =>
        cases b with
        | true => cases h
        | false =>
          obtain ⟨hsome, heq⟩ := mem_require.mp h
          cases heq
          refine ⟨ms, extras, rfl, rfl, hextras, ?_, rfl⟩
          rintro rfl
          cases hsome
      | null | num | str | arr => cases h
  | null | bool | num | str | arr => cases h

/-- Whether a keyword passes on what the schemas inside it find. -/
def passesOn : Keyword → Bool
  | .reference _ | .properties _ | .patternProperties _ | .propertyNames _ | .items _ => true
  | .itemsInTurn _ | .additionalItems _ _ | .dependencies _ | .allOf _ | .conditional _ _ _ => true
  | .additionalProperties _ _ (.obj _) => true
  | _ => false

/-- **What a keyword finds by itself is about the value at hand, and bears the keyword's name.** -/
theorem own_findings {validator : Validator} {judge : Judge} {base : String}
    (own : k.passesOn = false) : (k.judge validator judge base v).Owned v k.name := by
  cases k with
  | reference | properties | patternProperties | propertyNames | items => cases own
  | itemsInTurn | additionalItems | dependencies | allOf | conditional => cases own
  | type | enum | const => exact owned_require rfl
  | bound side limit =>
    cases v with
    | num n => exact owned_require rfl
    | null | bool | str | arr | obj => exact owned_of_nil rfl
  | multipleOf divisor =>
    cases v with
    | num n =>
      rw [Keyword.judge]
      split
      · exact owned_require rfl
      · exact owned_of_nil rfl
    | null | bool | str | arr | obj => exact owned_of_nil rfl
  | count side what limit =>
    rw [Keyword.judge]
    split
    · exact owned_require rfl
    · exact owned_of_nil rfl
  | uniqueItems wanted =>
    cases v with
    | arr xs => exact owned_require rfl
    | null | bool | num | str | obj => exact owned_of_nil rfl
  | pattern regex =>
    cases v with
    | str s => exact owned_ofExcept fun found => owned_require rfl
    | null | bool | num | arr | obj => exact owned_of_nil rfl
  | format name =>
    rw [Keyword.judge]
    split
    · split
      · exact owned_require rfl
      · exact owned_of_nil rfl
    · exact owned_of_nil rfl
  | required names =>
    cases v with
    | obj ms => exact owned_concat fun name => owned_require rfl
    | null | bool | num | str | arr => exact owned_of_nil rfl
  | additionalProperties declared patterns schema =>
    cases v with
    | obj ms =>
      refine owned_ofExcept fun extras => ?_
      cases schema with
      | obj => cases own
      | bool b =>
        cases b with
        | true => exact owned_of_nil rfl
        | false => exact owned_require rfl
      | null | num | str | arr => exact owned_of_nil rfl
    | null | bool | num | str | arr => exact owned_of_nil rfl
  | contains schema =>
    cases v with
    | arr xs => exact owned_ofExcept fun found => owned_require rfl
    | null | bool | num | str | obj => exact owned_of_nil rfl
  | anyOf schemas =>
    refine owned_ofExcept fun first? => ?_
    cases first? with
    | some first => exact owned_of_nil rfl
    | none => exact owned_complain rfl
  | oneOf schemas =>
    refine owned_ofExcept fun first? => ?_
    cases first? with
    | some first => exact owned_ofExcept fun more => owned_require rfl
    | none => exact owned_complain (by cases schemas <;> rfl)
  | forbid schema => exact owned_ofExcept fun accepted => owned_require rfl

theorem name_of_map {α : Type} {a? : Option α} {read : α → Keyword}
    (hname : ∀ a, (read a).name = name)
    (h : a?.map (fun a => some (read a)) = some (some k)) : name = k.name := by
  obtain ⟨a, -, hk⟩ := Option.map_eq_some_iff.mp h
  rw [← hname a, Option.some.inj hk]

theorem name_of_additionalItems (h : additionalItems? members value = some (some k)) :
    "additionalItems" = k.name := by
  unfold additionalItems? at h
  split at h
  · cases h
  · cases h
  · exact name_of_map (fun _ => rfl) h
  · exact name_of_map (fun _ => rfl) h
  · cases h

/-- A keyword stands under its name. -/
theorem name_of_ofMember (h : ofMember members name value = .ok (some k)) : name = k.name := by
  have hread := read?_of_ofMember h
  unfold read? at hread
  dsimp only at hread
  split at hread
  -- most keywords are read from one part of the value, or keep the value as it is
  all_goals try exact name_of_map (fun _ => rfl) hread
  case h_2 =>
    -- type
    split at hread
    · cases hread
      rfl
    · exact name_of_map (fun _ => rfl) hread
  case h_23 =>
    -- additionalProperties
    obtain ⟨declared, -, hread⟩ := Option.bind_eq_some_iff.mp hread
    obtain ⟨patterns, -, hread⟩ := Option.bind_eq_some_iff.mp hread
    obtain ⟨schema, -, hread⟩ := Option.bind_eq_some_iff.mp hread
    cases hread
    rfl
  case h_24 =>
    -- items
    split at hread
    · cases hread
      rfl
    · cases hread
      rfl
  case h_25 => exact name_of_additionalItems hread
  case h_27 =>
    -- dependencies
    obtain ⟨entries, -, hread⟩ := Option.bind_eq_some_iff.mp hread
    obtain ⟨dependencies, -, hread⟩ := Option.bind_eq_some_iff.mp hread
    cases hread
    rfl
  case h_33 =>
    -- not a keyword
    cases hread
  all_goals
    cases hread
    rfl

end Keyword

/-- A keyword of a schema finds something about a value by itself. -/
inductive OwnFinding (members : Members) (v : Json) (complaint : Complaint) : Prop
  | intro {name value k validator judge base} (mem : (name, value) ∈ members)
      (keyword : Keyword.ofMember members name value = .ok (some k)) (own : k.passesOn = false)
      (found : .here complaint v ∈ (Keyword.judge validator judge base v k).violations) :
      OwnFinding members v complaint

/-! ## Direct -/

/-- The keywords that pass on what schemas other than those of properties, patterns and items find. -/
def indirectKeywords : List String :=
  ["$ref", "propertyNames", "additionalItems", "dependencies", "allOf", "if"]

/-- A schema that passes on what the schemas of its properties, patterns and items find, and nothing else.
All of these are objects, one schema stands for all items, and none names another draft. -/
inductive Direct : Json → Prop
  | intro {members : Members} (keywords : ∀ m ∈ members, m.1 ∉ indirectKeywords)
      (inside : ∀ sub, Inside members sub → Direct sub)
      (home : ∀ sub, Inside members sub → sub.namesOtherDraft = false)
      (additional : ∀ v, members.lookup "additionalProperties" = some v → v.isBool = true) :
      Direct (.obj members)

namespace Direct

variable {members : Members} {key : String} {value sub : Json} {k : Keyword}

/-- A direct schema is an object. -/
theorem members_of (h : Direct sub) : ∃ members, sub = .obj members := by
  cases h with
  | intro => exact ⟨_, rfl⟩

theorem not_indirect (h : Direct (.obj members)) (hmem : (key, value) ∈ members) :
    key ∉ indirectKeywords := by
  cases h with
  | intro hkeywords => exact hkeywords _ hmem

theorem no_reference (h : Direct (.obj members)) : members.lookup "$ref" = none := by
  rw [lookup_eq_none_iff]
  intro hmem
  obtain ⟨⟨key, value⟩, hm, rfl⟩ := List.mem_map.mp hmem
  exact h.not_indirect hm (by decide)

theorem of_inside (h : Direct (.obj members)) (hinside : Inside members sub) : Direct sub := by
  cases h with
  | intro _ inside => exact inside sub hinside

/-- No schema inside a direct one names another draft. -/
theorem home_inside (h : Direct (.obj members)) (hinside : Inside members sub) : sub.namesOtherDraft = false := by
  cases h with
  | intro _ _ home => exact home sub hinside

theorem of_inner {inner : Members} {x : Json} {step : Segment} (h : Direct (.obj members))
    (hinner : Inner members v step inner x) : Direct (.obj inner) := by
  cases hinner with
  | property hkeyword hdeclared => exact h.of_inside (.named (.inl rfl) hkeyword hdeclared)
  | pattern hkeyword hdeclared => exact h.of_inside (.named (.inr rfl) hkeyword hdeclared)
  | item hkeyword => exact h.of_inside (.items hkeyword)

theorem isBool_of_additional (h : Direct (.obj members))
    (hlookup : members.lookup "additionalProperties" = some sub) : sub.isBool = true := by
  cases h with
  | intro _ _ _ hadditional => exact hadditional _ hlookup

/-- The keywords by which a direct schema passes findings on. -/
theorem passing (h : Direct (.obj members)) (hlookup : members.lookup key = some value)
    (hk : Keyword.ofMember members key value = .ok (some k)) (passes : k.passesOn = true) :
    (∃ ps, key = "properties" ∧ value = .obj ps ∧ k = .properties ps) ∨
      (∃ ps, key = "patternProperties" ∧ value = .obj ps ∧ k = .patternProperties ps) ∨
      (key = "items" ∧ k = .items value) := by
  have hname : key = k.name := Keyword.name_of_ofMember hk
  have hdirect : k.name ∉ indirectKeywords := by
    rw [← hname]
    exact h.not_indirect (mem_keys_of_lookup hlookup)
  cases k with
  | reference | propertyNames | additionalItems | dependencies | allOf | conditional =>
    simp [Keyword.name, indirectKeywords] at hdirect
  | properties schemas =>
    subst hname
    cases value with
    | obj ps => cases hk; exact .inl ⟨_, rfl, rfl, rfl⟩
    | null | bool | num | str | arr => cases hk
  | patternProperties schemas =>
    subst hname
    cases value with
    | obj ps => cases hk; exact .inr (.inl ⟨_, rfl, rfl, rfl⟩)
    | null | bool | num | str | arr => cases hk
  | additionalProperties declared patterns schema =>
    subst hname
    have hbool := h.isBool_of_additional hlookup
    cases additional_of_ofMember hk
    cases value with
    | bool => cases passes
    | null | num | str | arr | obj => cases hbool
  | items schema =>
    subst hname
    cases value with
    | arr schemas => cases hk
    | null | bool | num | str | obj => cases hk; exact .inr (.inr ⟨rfl, rfl⟩)
  | itemsInTurn schemas =>
    subst hname
    obtain ⟨inside, rfl⟩ := (h.of_inside (.items hlookup)).members_of
    cases hk
  | type | enum | const | bound | multipleOf | count | uniqueItems | pattern => cases passes
  | format | required | contains | anyOf | oneOf | forbid => cases passes

end Direct

/-- What a schema finds by itself in the name of the keyword for additional properties is that it is closed
and that an object has extra keys. -/
theorem extra_of_own {members : Members} (distinct : (Json.obj members).Distinct)
    (h : OwnFinding members v complaint) (hkeyword : complaint.keyword = "additionalProperties") :
    ∃ ms extras, v = .obj ms ∧ (Shape.ofSchema (.obj members)).closed = true ∧
      (Shape.ofSchema (.obj members)).extraKeys ms = .ok extras ∧ extras ≠ [] ∧
      complaint = .undeclared extras ((Shape.ofSchema (.obj members)).properties.map Prod.fst)
        ((Shape.ofSchema (.obj members)).patterns.map Prod.fst) := by
  obtain ⟨hmem, hk, hown, hfound⟩ := h
  rename_i name value k validator judge base
  have hlookup : members.lookup name = some value := lookup_of_mem distinct.keys hmem
  obtain ⟨-, hname⟩ := Keyword.own_findings hown _ hfound
  have hkey : name = "additionalProperties" :=
    (Keyword.name_of_ofMember hk).trans (hname.symm.trans hkeyword)
  subst hkey
  cases additional_of_ofMember hk
  obtain ⟨ms, extras, rfl, rfl, hextras, hsome, rfl⟩ := Keyword.undeclared_of_here hfound
  refine ⟨ms, extras, rfl, ?_, hextras, hsome, rfl⟩
  rw [Shape.closed_ofSchema, hlookup]
  rfl

/-! ## From a finding to a place -/

namespace Validator

variable {validator : Validator} {judge : Judge} {rounds : Nat} {base : String} {members : Members}
  {y : Violation}

/-- What the schemas of the properties find, one of them finds about the member of its name. -/
theorem found_by_properties {schemas : Members}
    (hy : y ∈ ((Keyword.properties schemas).judge validator judge base v).violations) :
    ∃ ms name schema x, v = .obj ms ∧ (name, schema) ∈ schemas ∧ ms.lookup name = some x ∧
      y ∈ (judge.descend base schema [.key name] [.key name] x).violations := by
  cases v with
  | obj ms =>
    obtain ⟨o, ho, hy⟩ := mem_violations_concat hy
    obtain ⟨⟨name, schema⟩, hmem, rfl⟩ := List.mem_map.mp ho
    cases hlookup : ms.lookup name with
    | none =>
      simp only [hlookup] at hy
      cases hy
    | some x =>
      simp only [hlookup] at hy
      exact ⟨ms, name, schema, x, rfl, hmem, hlookup, hy⟩
  | null | bool | num | str | arr => cases hy

/-- What the schemas of the patterns find, one of them finds about a member whose key matches. -/
theorem found_by_patterns {schemas : Members}
    (hy : y ∈ ((Keyword.patternProperties schemas).judge validator judge base v).violations) :
    ∃ ms key x regex schema, v = .obj ms ∧ (regex, schema) ∈ schemas ∧ (key, x) ∈ ms ∧
      Regex.found regex key = .ok true ∧
      y ∈ (judge.descend base schema [.key key] [.key regex] x).violations := by
  cases v with
  | obj ms =>
    obtain ⟨o, ho, hy⟩ := mem_violations_concat hy
    obtain ⟨⟨regex, schema⟩, hschema, rfl⟩ := List.mem_map.mp ho
    obtain ⟨o, ho, hy⟩ := mem_violations_concat hy
    obtain ⟨⟨key, x⟩, hmem, rfl⟩ := List.mem_map.mp ho
    simp only [Keyword.matchesPattern] at hy
    cases hfound : Regex.found regex key with
    | error error =>
      simp only [hfound] at hy
      cases hy
    | ok found =>
      simp only [hfound] at hy
      cases found with
      | false => cases hy
      | true => exact ⟨ms, key, x, regex, schema, rfl, hschema, hmem, hfound, hy⟩
  | null | bool | num | str | arr => cases hy

/-- What the schema of the items finds, it finds about one of them. -/
theorem found_by_items {schema : Json}
    (hy : y ∈ ((Keyword.items schema).judge validator judge base v).violations) :
    ∃ xs i x, v = .arr xs ∧ xs[i]? = some x ∧
      y ∈ (judge.descend base schema [.index i] [] x).violations := by
  cases v with
  | arr xs =>
    obtain ⟨o, ho, hy⟩ := mem_violations_concat hy
    obtain ⟨⟨x, i⟩, hmem, rfl⟩ := List.mem_map.mp ho
    exact ⟨xs, i, x, rfl, List.mk_mem_zipIdx_iff_getElem?.mp hmem, hy⟩
  | null | bool | num | str | obj => cases hy

/-- **Whatever a direct schema finds, a schema that judges the place finds by itself.** -/
theorem found_direct (direct : Direct (.obj members)) (distinct : (Json.obj members).Distinct)
    (hy : y ∈ (validator.judgeWith rounds base (.obj members) v).violations) :
    ∃ last, Judged members v y.place last y.value ∧ Direct (.obj last) ∧
      (Json.obj last).Distinct ∧ OwnFinding last y.value y.complaint := by
  induction rounds generalizing base members v y with
  | zero => cases hy
  | succ rounds ih =>
    have hnone := direct.no_reference
    obtain ⟨key, value, k, x, hmem, hk, hx, rfl⟩ := found_by_keyword hnone hy
    have hlookup : members.lookup key = some value := lookup_of_mem distinct.keys hmem
    cases hpasses : k.passesOn with
    | false =>
      obtain ⟨hhere, -⟩ := Keyword.own_findings hpasses x hx
      rw [hhere] at hx ⊢
      exact ⟨members, .here, direct, distinct, .intro hmem hk hpasses hx⟩
    | true =>
      -- the finding of an inner schema, which the induction hypothesis leads to its place
      have hbelow : ∀ {step schemaSteps schema part}, Inside members schema →
          (∀ sub, schema = .obj sub → Inner members v step sub part) →
          x ∈ ((validator.inner rounds).descend base schema [step] schemaSteps part).violations →
          ∃ last, Judged members v (x.under [] k.step).place last x.value ∧ Direct (.obj last) ∧
            (Json.obj last).Distinct ∧ OwnFinding last x.value x.complaint := by
        intro step schemaSteps schema part hinside hinner hx
        have hdirect := direct.of_inside hinside
        have hhome := direct.home_inside hinside
        obtain ⟨sub, rfl⟩ := hdirect.members_of
        obtain ⟨z, hz, rfl⟩ := mem_under.mp hx
        rw [inner_of_home (draftOf_of_home hhome)] at hz
        obtain ⟨last, hjudged, hlast⟩ := ih hdirect (hinside.eachObject distinct) hz
        exact ⟨last, .down hnone (hinner sub rfl) hhome hjudged, hlast⟩
      rcases direct.passing hlookup hk hpasses with ⟨ps, rfl, rfl, rfl⟩ | ⟨ps, rfl, rfl, rfl⟩ |
        ⟨rfl, rfl⟩
      · obtain ⟨ms, name, schema, part, rfl, hschema, hpart, hx⟩ := found_by_properties hx
        refine hbelow (.named (.inl rfl) hlookup hschema) ?_ hx
        rintro sub rfl
        exact .property hlookup hschema hpart
      · obtain ⟨ms, name, part, regex, schema, rfl, hschema, hpart, hfound, hx⟩ :=
          found_by_patterns hx
        refine hbelow (.named (.inr rfl) hlookup hschema) ?_ hx
        rintro sub rfl
        exact .pattern hlookup hschema hfound hpart
      · obtain ⟨xs, i, part, rfl, hpart, hx⟩ := found_by_items hx
        refine hbelow (.items hlookup) ?_ hx
        rintro sub rfl
        exact .item hlookup hpart

end Validator

end JsonMend
