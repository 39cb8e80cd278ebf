import JsonMend.Proofs.Draft7.Way
import JsonMend.Proofs.Repair.Follow
/-
  Judging two values side by side.

  Where one value follows another (`Follows`), a schema judges both in the same way, but for what was put in.
  This file takes the two complaints that repairing is about, a wrong type and undeclared properties.

  1. **Covering** (`Violation.Covers`) — a violation of the one value that stands for one of the other.
  2. **Three reasons for a difference** — the violation has to do with a value that was put in (`Touched`), a
     keyword enters a schema for the one value only, because a test comes out differently or a property was
     missing (`Switched`), or a schema of another draft made it (`FoundAbroad`).
  3. **One keyword** (`Enters.beside`) — where it enters a schema for the one value, it enters the same schema
     for the other, with parts that follow, unless there is such a reason.
  4. **All violations** (`found_beside`) — by induction on the rounds.
-/
namespace JsonMend

open Outcome

variable {validator : Validator} {sub sub' : Judge} {rounds rounds' : Nat} {base inside : String}
  {k : Keyword} {put : Position → Prop} {v w x y schema : Json} {steps schemaSteps place : Position}
  {z z' : Violation}

/-! ## Covering -/

/-- The complaint is about a wrong type or about undeclared properties. -/
inductive Complaint.Targeted : Complaint → Prop
  | wrongType {names : List String} : Targeted (.wrongType names)
  | undeclared {extras declared patterns : List String} :
      Targeted (.undeclared extras declared patterns)

theorem Complaint.targeted_of_keyword {c : Complaint}
    (h : c.keyword = "type" ∨ c.keyword = "additionalProperties") : c.Targeted := by
  cases c with
  | wrongType names => exact .wrongType
  | undeclared extras declared patterns => exact .undeclared
  | nothingAllowed | notInEnum | notConst | outOfBounds | notMultiple | wrongCount | repeatedItems
  | patternUnmatched | formatUnmet | missingProperty | missingDependency | surplusItems
  | nothingContained | noneOfAny | noneOfOne | noBranches | severalOfOne | forbidden | notBeyond
  | notDivisible | disallowed =>
    exact absurd h (by simp [keyword])

/-- A violation covers another: both stand at one place and complain of a wrong type, or of undeclared
properties beside the same declared ones, in an object that has all the keys of the other. -/
inductive Violation.Covers (z z' : Violation) : Prop
  | wrongType {names : List String} (place : z.place = z'.place) (complaint : z.complaint = .wrongType names)
      (complaint' : z'.complaint = .wrongType names) : Covers z z'
  | undeclared {extras extras' declared patterns : List String} {ms ns : Members}
      (place : z.place = z'.place) (complaint : z.complaint = .undeclared extras declared patterns)
      (complaint' : z'.complaint = .undeclared extras' declared patterns) (object : z.value = .obj ms)
      (object' : z'.value = .obj ns) (keys : ∀ key ∈ ns.map Prod.fst, key ∈ ms.map Prod.fst) :
      Covers z z'

theorem Violation.Covers.under (h : z.Covers z') :
    (z.under steps schemaSteps).Covers (z'.under steps schemaSteps) := by
  cases h with
  | wrongType hplace hcomplaint hcomplaint' =>
    exact .wrongType (congrArg (steps ++ ·) hplace) hcomplaint hcomplaint'
  | undeclared hplace hcomplaint hcomplaint' hobject hobject' hkeys =>
    exact .undeclared (congrArg (steps ++ ·) hplace) hcomplaint hcomplaint' hobject hobject' hkeys

/-! ## Reasons for a difference -/

/-- A place has to do with a value that was put in: it is the place of that value or below it, or that of an
object that has got the value as a new member. -/
inductive Touched (put : Position → Prop) (v : Json) (place : Position) : Prop
  | below {above rest : Position} (puts : put above) (split : place = above ++ rest) :
      Touched put v place
  | grown {key : String} (puts : put (place ++ [.key key]))
      (absent : v.at? (place ++ [.key key]) = none) : Touched put v place

theorem Touched.down {step : Segment} (stands : v.step? step = some x)
    (h : Touched (fun place => put (step :: place)) x place) : Touched put v (step :: place) := by
  cases h with
  | @below above rest hput hplace => exact .below hput (congrArg (step :: ·) hplace)
  | grown hput habsent =>
    refine .grown hput ?_
    rw [List.cons_append, Json.at?_cons, stands, Option.bind_some, habsent]

namespace Keyword

/-- A keyword enters a schema for a value, but not for the value that it follows: a test comes out
differently, or the property whose dependency it is was missing. -/
inductive Turns (sub sub' : Judge) (base : String) : Keyword → Position → Json → Json → Prop
  | test {test whenMet whenUnmet schemaSteps v w}
      (differ : (sub base test w).accepts ≠ (sub' base test v).accepts) :
      Turns sub sub' base (.conditional test whenMet whenUnmet) schemaSteps v w
  | dependency {entries property ms ns} (absent : hasKey ms property = false)
      (present : hasKey ns property = true) :
      Turns sub sub' base (.dependencies entries) [.key property] (.obj ms) (.obj ns)

end Keyword

/-- A violation was found behind an entrance that a keyword takes for the value and not for the one that it
follows.  Up to there the same schemas judge both. -/
inductive Switched (validator : Validator) :
    Nat → Nat → String → Json → Json → Json → Violation → Prop
  | here {rounds rounds' base members name value k v w inside schema steps schemaSteps y z}
      (mem : (name, value) ∈ Keyword.applicable members)
      (read : Keyword.ofMember members name value = .ok (some k))
      (enters : k.Enters validator (validator.inner rounds) base w inside schema steps schemaSteps y)
      (turns : k.Turns (validator.inner rounds) (validator.inner rounds') base schemaSteps v w)
      (found : z ∈ (validator.inner rounds inside schema y).violations) :
      Switched validator (rounds + 1) (rounds' + 1) base (.obj members) v w
        ((z.under steps schemaSteps).under [] k.step)
  | down {rounds rounds' base members name value k v w inside schema steps schemaSteps x y z}
      (mem : (name, value) ∈ Keyword.applicable members)
      (read : Keyword.ofMember members name value = .ok (some k))
      (enters : k.Enters validator (validator.inner rounds) base w inside schema steps schemaSteps y)
      (enters' : k.Enters validator (validator.inner rounds') base v inside schema steps schemaSteps x)
      (home : validator.draftOf .draft7 schema = .draft7)
      (rest : Switched validator rounds rounds' inside schema x y z) :
      Switched validator (rounds + 1) (rounds' + 1) base (.obj members) v w
        ((z.under steps schemaSteps).under [] k.step)

/-- A violation was found from a stand at the end of a way on, where another draft holds. -/
inductive Violation.FoundAbroad (validator : Validator) (start : Stand) : Violation → Prop
  | intro {place above last z} (way : Way validator start place above last) (abroad : last.draft ≠ .draft7)
      (found : z ∈ (validator.judgeAt last).violations) : FoundAbroad validator start (z.under place above)

/-- What is found abroad behind an entrance is found abroad in front of it. -/
theorem Violation.FoundAbroad.under {name : String} {members : Members} {value : Json} {r : Rule} {draft : Draft}
    (h : z.FoundAbroad validator ⟨rounds, validator.draftOf draft schema, inside, schema, x⟩)
    (mem : (name, value) ∈ Keyword.applicable members) (read : Rule.ofMember draft members name value = .ok (some r))
    (enters : r.Enters validator (validator.inside rounds draft) base v inside schema steps schemaSteps x) :
    (z.under steps (r.step ++ schemaSteps)).FoundAbroad validator ⟨rounds + 1, draft, base, .obj members, v⟩ := by
  cases h with
  | intro way habroad hfound =>
    rw [Violation.under_under]
    exact .intro (.down mem read enters way) habroad hfound

/-! ## One keyword -/

/-- Two values that a keyword has a schema judge: the whole values, the name of a member that both have, or
parts at one step. -/
inductive Beside (v w : Json) : Position → Json → Json → Prop
  | whole : Beside v w [] v w
  | name {key : String} : Beside v w [] (.str key) (.str key)
  | part {step : Segment} {x y : Json} (stands : v.step? step = some x)
      (stands' : w.step? step = some y) : Beside v w [step] x y

theorem Beside.follows (h : Beside v w steps x y) (outline : Outline put v w)
    (parts : ∀ step x y, v.step? step = some x → w.step? step = some y →
      Follows (fun place => put (step :: place)) x y) :
    ∃ put', Follows put' x y ∧
      ∀ place, Touched put' x place → Touched put v (steps ++ place) := by
  cases h with
  | whole => exact ⟨put, .kept outline parts, fun place htouched => htouched⟩
  | name =>
    -- nothing was put in below a name
    refine ⟨fun _ => False, .same, fun place htouched => ?_⟩
    cases htouched with
    | below hput _ => exact hput.elim
    | grown hput _ => exact hput.elim
  | @part step x y hx hy => exact ⟨_, parts step x y hx hy, fun place htouched => htouched.down hx⟩

theorem Beside.distinct (h : Beside v w steps x y) (distinct : w.Distinct) : y.Distinct := by
  cases h with
  | whole => exact distinct
  | name => exact .str _
  | part _ hy => exact distinct.step hy

namespace Outline

variable {ms ns : Members} {key : String}

/-- What an object follows is an object. -/
theorem of_obj (h : Outline put v (.obj ns)) : ∃ ms, v = .obj ms ∧
    ∀ key ∈ ns.map Prod.fst, key ∈ ms.map Prod.fst ∨ put [.key key] := by
  cases h with
  | obj hkeys => exact ⟨_, rfl, hkeys⟩
  | flat hobj _ => exact absurd rfl (hobj _)

theorem of_arr {ys : List Json} (h : Outline put v (.arr ys)) :
    ∃ xs, v = .arr xs ∧ ys.length = xs.length := by
  cases h with
  | arr hlength => exact ⟨_, rfl, hlength⟩
  | flat _ harr => exact absurd rfl (harr _)

theorem member (h : Outline put (.obj ms) (.obj ns)) (hy : ns.lookup key = some y) :
    (∃ x, ms.lookup key = some x) ∨ put [.key key] := by
  have hstands : (Json.obj ns).step? (.key key) = some y := hy
  exact h.stands hstands

theorem item {xs ys : List Json} {i : Nat} (h : Outline put (.arr xs) (.arr ys))
    (hy : ys[i]? = some y) : (∃ x, xs[i]? = some x) ∨ put [.index i] := by
  have hstands : (Json.arr ys).step? (.index i) = some y := hy
  exact h.stands hstands

theorem isOfTypeNamed_eq (h : Outline put v w) : v.isOfTypeNamed = w.isOfTypeNamed := by
  cases h with
  | obj _ | arr _ =>
    -- the type of an object or an array does not depend on its parts
    funext name
    unfold Json.isOfTypeNamed
    cases JsonType.ofName? name with
    | none => rfl
    | some t => cases t <;> rfl
  | flat _ _ => rfl

end Outline

theorem Keyword.extraKeys_mono {declared patterns extras extras' : List String} {ms ns : Members}
    {key : String} (h : extraKeys declared patterns ns = .ok extras)
    (h' : extraKeys declared patterns ms = .ok extras') (extra : key ∈ extras)
    (mem : key ∈ ms.map Prod.fst) : key ∈ extras' :=
  (mem_select h').mpr ⟨mem, ((mem_select h).mp extra).2⟩

/-- How a keyword enters a schema for a value, beside the value that it follows. -/
inductive Keyword.EntersBeside (validator : Validator) (sub sub' : Judge) (base : String)
    (put : Position → Prop) (k : Keyword) (v w : Json) (inside : String) (schema : Json)
    (steps schemaSteps : Position) (y : Json) : Prop
  | both {x : Json} (enters' : Enters validator sub' base k v inside schema steps schemaSteps x)
      (beside : Beside v w steps x y) :
      EntersBeside validator sub sub' base put k v w inside schema steps schemaSteps y
  | fresh {step : Segment} (single : steps = [step]) (puts : put [step]) :
      EntersBeside validator sub sub' base put k v w inside schema steps schemaSteps y
  | freshName {key : String} (whole : steps = []) (name : y = .str key) (puts : put [.key key])
      (absent : v.step? (.key key) = none) :
      EntersBeside validator sub sub' base put k v w inside schema steps schemaSteps y
  | turned (turns : k.Turns sub sub' base schemaSteps v w) :
      EntersBeside validator sub sub' base put k v w inside schema steps schemaSteps y

/-- **Where a keyword enters a schema for a value, it enters it for the value that this one follows**, with
parts that follow, unless what it judges was put in, or it turns off. -/
theorem Keyword.Enters.beside (outline : Outline put v w) (distinct : w.Distinct)
    (sound : (k.judge validator sub' base v).fault? = none)
    (enters : Enters validator sub base k w inside schema steps schemaSteps y) :
    EntersBeside validator sub sub' base put k v w inside schema steps schemaSteps y := by
  cases enters with
  | reference hresolved => exact .both (.reference hresolved) .whole
  | property hdeclared hstands =>
    obtain ⟨ms, rfl, hkeys⟩ := outline.of_obj
    rcases outline.member hstands with ⟨x, hx⟩ | hput
    · exact .both (.property hdeclared hx) (.part hx hstands)
    · exact .fresh rfl hput
  | pattern hdeclared hmem hmatching =>
    obtain ⟨ms, rfl, hkeys⟩ := outline.of_obj
    have hstands := lookup_of_mem distinct.keys hmem
    rcases outline.member hstands with ⟨x, hx⟩ | hput
    · exact .both (.pattern hdeclared (mem_keys_of_lookup hx) hmatching) (.part hx hstands)
    · exact .fresh rfl hput
  | @name schema ns key y hmem =>
    obtain ⟨ms, rfl, hkeys⟩ := outline.of_obj
    cases hx : ms.lookup key with
    | some x => exact .both (.name (mem_keys_of_lookup hx)) .name
    | none =>
      have hput := (hkeys key (List.mem_map_of_mem hmem)).resolve_left (lookup_eq_none_iff.mp hx)
      exact .freshName rfl rfl hput hx
  | additional hcounted hextra hstands =>
    obtain ⟨ms, rfl, hkeys⟩ := outline.of_obj
    rw [Keyword.judge] at sound
    obtain ⟨extras', hcounted'⟩ := sound_ofExcept sound
    rcases outline.member hstands with ⟨x, hx⟩ | hput
    · have hextra' := extraKeys_mono hcounted hcounted' hextra
        (List.mem_map_of_mem (mem_keys_of_lookup hx))
      exact .both (.additional hcounted' hextra' hx) (.part hx hstands)
    · exact .fresh rfl hput
  | item hstands =>
    obtain ⟨xs, rfl, -⟩ := outline.of_arr
    rcases outline.item hstands with ⟨x, hx⟩ | hput
    · exact .both (.item hx) (.part hx hstands)
    · exact .fresh rfl hput
  | itemInTurn hstands hdeclared =>
    obtain ⟨xs, rfl, -⟩ := outline.of_arr
    rcases outline.item hstands with ⟨x, hx⟩ | hput
    · exact .both (.itemInTurn hx hdeclared) (.part hx hstands)
    · exact .fresh rfl hput
  | additionalItem hbehind hstands =>
    obtain ⟨xs, rfl, -⟩ := outline.of_arr
    rcases outline.item hstands with ⟨x, hx⟩ | hput
    · exact .both (.additionalItem hbehind hx) (.part hx hstands)
    · exact .fresh rfl hput
  | @dependency entries property schema ns hmem hpresent =>
    obtain ⟨ms, rfl, hkeys⟩ := outline.of_obj
    cases hpresent' : hasKey ms property with
    | true => exact .both (.dependency hmem hpresent') .whole
    | false => exact .turned (.dependency hpresent' hpresent)
  | branch hdeclared => exact .both (.branch hdeclared) .whole
  | @whenMet test schema other v htested =>
    by_cases hsame : (sub base test w).accepts = (sub' base test v).accepts
    · exact .both (.whenMet (hsame.symm.trans htested)) .whole
    · exact .turned (.test hsame)
  | @whenUnmet test schema other v htested =>
    by_cases hsame : (sub base test w).accepts = (sub' base test v).accepts
    · exact .both (.whenUnmet (hsame.symm.trans htested)) .whole
    · exact .turned (.test hsame)

namespace Keyword

theorem type_of_name (h : k.name = "type") : ∃ names, k = .type names := by
  cases k with
  | type names => exact ⟨names, rfl⟩
  | reference | enum | const | bound | multipleOf | count | uniqueItems | pattern | format | required
  | properties | patternProperties | propertyNames | additionalProperties | items | itemsInTurn
  | additionalItems | contains | dependencies | allOf | anyOf | oneOf | forbid | conditional =>
    exact absurd h (by simp [name])

theorem additional_of_name (h : k.name = "additionalProperties") :
    ∃ declared patterns schema, k = .additionalProperties declared patterns schema := by
  cases k with
  | additionalProperties declared patterns schema => exact ⟨declared, patterns, schema, rfl⟩
  | reference | type | enum | const | bound | multipleOf | count | uniqueItems | pattern | format
  | required | properties | patternProperties | propertyNames | items | itemsInTurn | additionalItems
  | contains | dependencies | allOf | anyOf | oneOf | forbid | conditional =>
    exact absurd h (by simp [name])

/-- **What a keyword finds about a value itself, it finds about the value that this one follows**, unless the
value is an object that has got a new member. -/
theorem own_beside {complaint : Complaint} (outline : Outline put v w)
    (targeted : complaint.Targeted) (bears : complaint.keyword = k.name)
    (sound : (k.judge validator sub' base v).fault? = none)
    (found : .here complaint w ∈ (k.judge validator sub base w).violations) :
    (∃ z ∈ (k.judge validator sub' base v).violations, z.Covers (.here complaint w)) ∨
      ∃ key, put [.key key] ∧ v.step? (.key key) = none := by
  cases targeted with
  | wrongType =>
    obtain ⟨names, rfl⟩ := type_of_name bears.symm
    obtain ⟨hmismatch, heq⟩ := mem_require.mp found
    cases heq
    rw [← outline.isOfTypeNamed_eq] at hmismatch
    exact .inl ⟨.here (.wrongType _) v, mem_require.mpr ⟨hmismatch, rfl⟩, .wrongType rfl rfl rfl⟩
  | @undeclared extras =>
    obtain ⟨declared, patterns, schema, rfl⟩ := additional_of_name bears.symm
    obtain ⟨ns, _, rfl, rfl, hextras, hsome, heq⟩ := undeclared_of_here found
    cases heq
    obtain ⟨ms, rfl, hkeys⟩ := outline.of_obj
    rw [Keyword.judge] at sound ⊢
    obtain ⟨extras', hextras'⟩ := sound_ofExcept sound
    by_cases hnew : ∃ key ∈ ns.map Prod.fst, key ∉ ms.map Prod.fst
    · obtain ⟨key, hkey, habsent⟩ := hnew
      exact .inr ⟨key, (hkeys key hkey).resolve_left habsent, lookup_eq_none_iff.mpr habsent⟩
    · have hold : ∀ key ∈ ns.map Prod.fst, key ∈ ms.map Prod.fst := fun key hkey =>
        Decidable.not_not.mp fun habsent => hnew ⟨key, hkey, habsent⟩
      -- an extra key of the one object is an extra key of the other
      obtain ⟨key, hkey⟩ := List.exists_mem_of_ne_nil extras hsome
      have hextra := extraKeys_mono hextras hextras' hkey (hold key ((mem_select hextras).mp hkey).1)
      have hsome' : extras'.isEmpty = false := List.isEmpty_eq_false_iff.mpr (List.ne_nil_of_mem hextra)
      refine .inl ⟨.here (.undeclared extras' _ _) (.obj ms), ?_, .undeclared rfl rfl rfl rfl rfl hold⟩
      rw [hextras']
      exact mem_require.mpr ⟨hsome', rfl⟩

end Keyword

/-! ## All violations -/

/-- A schema that refuses a value altogether makes no targeted complaint. -/
theorem not_refused_of_targeted {draft : Draft}
    (sound : (validator.judgeBy rounds draft base schema v).fault? = none)
    (hz : z ∈ (validator.judgeBy rounds draft base schema v).violations)
    (targeted : z.complaint.Targeted) : schema ≠ .bool false := by
  rintro rfl
  obtain ⟨fewer, rfl⟩ := Validator.rounds_of_sound sound
  rw [List.mem_singleton.mp hz] at targeted
  cases targeted

/-- What is found about a text is found at its place. -/
theorem place_of_text {key : String} {draft : Draft}
    (sound : (validator.judgeBy rounds draft base schema (.str key)).fault? = none)
    (hz : z ∈ (validator.judgeBy rounds draft base schema (.str key)).violations)
    (targeted : z.complaint.Targeted) : z.place = [] := by
  cases located_of_found sound hz with
  | refused h =>
    obtain ⟨-, hrefused⟩ := h
    rw [hrefused] at targeted
    cases targeted
  | peculiar h =>
    obtain ⟨way, -, -, -, hplace⟩ := h
    obtain ⟨rfl, hvalue⟩ := way.stays_at_text rfl
    refine hplace.resolve_right fun hobject => ?_
    rw [hvalue] at hobject
    cases hobject
  | keyword h =>
    obtain ⟨way, -, -, -, -, -⟩ := h
    exact (way.stays_at_text rfl).1

/-- **Two judgings side by side.**  Of a wrong type and of undeclared properties, a schema complains about a
value as it does about the value that this one follows, unless the violation has to do with what was put
in, was found where a keyword turns off, or was found abroad. -/
theorem found_beside (follows : Follows put v w) (distinct : w.Distinct)
    (sound : (validator.judgeWith rounds base schema w).fault? = none)
    (sound' : (validator.judgeWith rounds' base schema v).fault? = none)
    (hz : z ∈ (validator.judgeWith rounds base schema w).violations)
    (targeted : z.complaint.Targeted) :
    (∃ z' ∈ (validator.judgeWith rounds' base schema v).violations, z'.Covers z) ∨
      Touched put v z.place ∨ Switched validator rounds rounds' base schema v w z ∨
      z.FoundAbroad validator ⟨rounds, .draft7, base, schema, w⟩ := by
  induction rounds generalizing rounds' base schema put v w z with
  | zero => cases sound
  | succ rounds ih =>
    obtain ⟨rounds', rfl⟩ := Validator.rounds_of_sound sound'
    rcases follows.cases with hput | ⟨houtline, hparts⟩
    · exact .inr (.inl (.below hput rfl))
    cases schema with
    | obj members =>
      obtain ⟨name, value, k, own, hmem, hk, hown, rfl⟩ := Validator.keyword_of_found hz
      obtain ⟨hsound, -⟩ := Validator.keyword_judged_of_read hmem hk sound
      obtain ⟨hsound', hfound'⟩ := Validator.keyword_judged_of_read hmem hk sound'
      have htargeted : own.complaint.Targeted := targeted
      cases Keyword.found_by hsound hown with
      | refused hcomplaint =>
        rw [hcomplaint] at htargeted
        cases htargeted
      | own hhere hname =>
        rw [hhere] at hown
        rcases Keyword.own_beside houtline htargeted hname hsound' hown with
          ⟨z', hz', hcovers⟩ | ⟨key, hput, habsent⟩
        · rw [← hhere] at hcovers
          exact .inl ⟨_, hfound' z' hz', hcovers.under⟩
        · right
          left
          rw [hhere]
          refine .grown hput ?_
          exact (Json.at?_cons v _ []).trans (by rw [habsent]; rfl)
      | @entered inside schema steps schemaSteps y inner henters hinside hinner habove =>
        subst habove
        have habroad : ∀ {z : Violation},
            z.FoundAbroad validator ⟨rounds, validator.draftOf .draft7 schema, inside, schema, y⟩ →
            ((z.under steps schemaSteps).under [] k.step).FoundAbroad validator
              ⟨rounds + 1, .draft7, base, .obj members, w⟩ := by
          intro z h
          rw [Violation.under_under]
          exact h.under hmem (Rule.ofMember_shared hk) (.shared henters)
        cases henters.beside houtline distinct hsound' with
        | @both x henters' hbeside =>
          obtain ⟨put', hfollows, htouched⟩ := hbeside.follows houtline hparts
          have hrefuses := not_refused_of_targeted hinside hinner htargeted
          obtain ⟨hinside', hinner'⟩ := henters'.found hrefuses hsound'
          by_cases hhome : validator.draftOf .draft7 schema = .draft7
          · rw [Validator.inner_of_home hhome] at hinside hinside' hinner hinner'
            rcases ih hfollows (hbeside.distinct distinct) hinside hinside' hinner htargeted with
              ⟨z', hz', hcovers⟩ | htouch | hswitched | hforeign
            · exact .inl ⟨_, hfound' _ (hinner' z' hz'), hcovers.under.under⟩
            · exact .inr (.inl (htouched _ htouch))
            · exact .inr (.inr (.inl (.down hmem hk henters henters' hhome hswitched)))
            · exact .inr (.inr (.inr (habroad (hhome.symm ▸ hforeign))))
          · exact .inr (.inr (.inr (habroad (.intro .here hhome hinner))))
        | fresh hsteps hput =>
          subst hsteps
          exact .inr (.inl (.below hput rfl))
        | @freshName key hsteps hname hput habsent =>
          subst hsteps
          subst hname
          right
          left
          have hplace : inner.place = [] := place_of_text hinside hinner htargeted
          show Touched put v inner.place
          rw [hplace]
          refine .grown hput ?_
          exact (Json.at?_cons v _ []).trans (by rw [habsent]; rfl)
        | turned hturns => exact .inr (.inr (.inl (.here hmem hk henters hturns hinner)))
    | bool b =>
      cases b with
      | true => cases hz
      | false => exact absurd rfl (not_refused_of_targeted sound hz targeted)
    | null | num | str | arr => cases sound

end JsonMend
