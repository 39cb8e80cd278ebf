import JsonMend.Proofs.Draft7.Distinct
/-
  Where a finding of another draft comes from.

  Most rules of a draft are keywords of draft-07, and read as such (`Rule.keyword_of_ofMember`).  The others are few.
  What is shown of keywords is shown of rules here.

  1. **Reading** (`Rule.ReadFrom`) — a rule of its own draft is read from the value of its member, so the schemas that
     a rule holds are inside the schema that it is read from (`Rule.schema_inside`).
  2. **Entering** (`Rule.Enters`) — the schemas that a rule enters, with the steps that lead down in the value and in
     the schema.
  3. **Where from** (`Rule.found_by`) — what a rule finds is its own, or was found behind an entrance.  Only some
     complaints are made by rules of other drafts (`Complaint.isPeculiar`); the rest come from keywords.
-/
namespace JsonMend

open Outcome

/-! ## Reading -/

namespace Rule

variable {draft : Draft} {members : Members} {name : String} {value schema : Json} {r : Rule} {k : Keyword}

theorem read?_of_ofMember (h : ofMember draft members name value = .ok (some r)) :
    read? draft members name value = some (some r) := by
  unfold ofMember at h
  split at h
  · cases hread : read? draft members name value with
    | none =>
      rw [hread] at h
      cases h
    | some r? =>
      rw [hread] at h
      exact congrArg some (Except.ok.inj h)
  · cases h

/-- How the schemas that a rule of its own draft holds are read from the value of its member. -/
def ReadFrom (value : Json) : Rule → Prop
  | .properties schemas | .dependencies schemas => value = .obj schemas
  | .extension schema => value = schema
  | .disallow refused => value = .arr refused ∨ ∀ s ∈ refused, s.isObj = false
  | _ => True

/-- What a rule is read as: a keyword that draft-07 reads from the same member, or a rule of its own draft. -/
def Read (members : Members) (name : String) (value : Json) : Rule → Prop
  | .shared k => Keyword.read? members name value = some (some k)
  | r => r.ReadFrom value

theorem read_common (h : common? members name value = some (some r)) : r.Read members name value := by
  obtain ⟨k?, hk, hr⟩ := Option.map_eq_some_iff.mp h
  cases k? with
  | none => cases hr
  | some k =>
    cases hr
    exact hk

theorem read_bound {side : Bound} {flag : String} (h : bound? members side flag value = some (some r))
    (reads : Keyword.read? members name value = value.number?.map fun n => some (.bound side n)) :
    r.Read members name value := by
  obtain ⟨limit, hlimit, hr⟩ := Option.map_eq_some_iff.mp h
  split at hr
  · cases hr
    trivial
  · cases hr
    show Keyword.read? members name value = _
    rw [reads, hlimit]
    rfl

theorem read_early (h : early? members name value = some (some r)) : r.Read members name value := by
  unfold early? at h
  split at h
  · split at h
    · cases h
      trivial
    · obtain ⟨names, -, hr⟩ := Option.map_eq_some_iff.mp h
      cases hr
      trivial
  · exact read_bound h rfl
  · exact read_bound h rfl
  · split at h
    · cases h
      rfl
    · cases h
      rfl
    · cases h
      trivial
  · exact read_common h

theorem read_oldest (h : oldest? members name value = some (some r)) : r.Read members name value := by
  unfold oldest? at h
  split at h
  · obtain ⟨r?, hr?, hr⟩ := Option.map_eq_some_iff.mp h
    split at hr
    · split at hr
      · cases hr
      · cases hr
        trivial
    · subst hr
      exact read_early hr?
  · obtain ⟨ms, hms, hr⟩ := Option.map_eq_some_iff.mp h
    cases hr
    exact Json.eq_obj_of_members? hms
  · obtain ⟨ms, hms, hr⟩ := Option.map_eq_some_iff.mp h
    cases hr
    exact Json.eq_obj_of_members? hms
  · cases h
    rfl
  · split at h
    · cases h
      exact .inl rfl
    · cases h
      refine .inr fun s hs => ?_
      obtain ⟨m, -, rfl⟩ := List.mem_map.mp hs
      rfl
    · cases h
      exact .inr fun s hs => List.mem_singleton.mp hs ▸ rfl
    · cases h
  · cases h
    trivial
  · exact read_early h

theorem read_of_ofMember (h : ofMember draft members name value = .ok (some r)) : r.Read members name value := by
  have hread := read?_of_ofMember h
  unfold read? at hread
  split at hread
  · cases hread
  · cases draft with
    | draft3 => exact read_oldest hread
    | draft4 => exact read_early hread
    | draft6 | draft7 | draft201909 | draft202012 => exact read_common hread

/-- **A keyword of a draft is a keyword of draft-07.** -/
theorem keyword_of_ofMember (h : ofMember draft members name value = .ok (some (.shared k))) :
    Keyword.ofMember members name value = .ok (some k) := by
  have hread : Keyword.read? members name value = some (some k) := read_of_ofMember h
  rw [Keyword.ofMember, hread]

/-- The schemas that a rule holds. -/
def schemas : Rule → List Json
  | .shared k => k.schemas
  | .properties schemas | .dependencies schemas => schemas.map Prod.snd
  | .extension schema => schema :: (schema.items?.getD [])
  | .disallow refused => refused.filter Json.isObj
  | _ => []

/-- **What a rule holds is inside the schema that it is read from.** -/
theorem schema_inside (hmem : (name, value) ∈ members) (h : ofMember draft members name value = .ok (some r))
    (hs : schema ∈ r.schemas) : schema ∈ (Json.obj members).innerParts := by
  have hvalue : value ∈ (Json.obj members).innerParts := Json.member_mem_innerParts hmem
  have hunder : ∀ {s}, s ∈ value.innerParts → s ∈ (Json.obj members).innerParts :=
    fun hs => Json.innerParts_trans hvalue (Json.mem_parts_of_inner hs)
  have hread := read_of_ofMember h
  cases r with
  | shared k => exact Keyword.schema_inside hmem (keyword_of_ofMember h) hs
  | properties | dependencies =>
    cases (hread : value = _)
    obtain ⟨m, hm, rfl⟩ := List.mem_map.mp hs
    exact hunder (Json.member_mem_innerParts hm)
  | extension =>
    cases (hread : value = _)
    rcases List.mem_cons.mp hs with rfl | hs
    · exact hvalue
    · cases value with
      | arr schemas => exact hunder (Json.item_mem_innerParts hs)
      | null | bool | num | str | obj => cases hs
  | disallow refused =>
    obtain ⟨hs, hobject⟩ := List.mem_filter.mp hs
    rcases hread with rfl | hflat
    · exact hunder (Json.item_mem_innerParts hs)
    · rw [hflat schema hs] at hobject
      cases hobject
  | type | bound | items | divisibleBy => cases hs

end Rule

/-! ## Entering -/

/-- A rule that judges a value enters a schema, as a keyword does. -/
inductive Rule.Enters (validator : Validator) (sub : Judge) (base : String) :
    Rule → Json → String → Json → Position → Position → Json → Prop
  | shared {k v inside schema steps schemaSteps x}
      (enters : k.Enters validator sub base v inside schema steps schemaSteps x) :
      Enters validator sub base (.shared k) v inside schema steps schemaSteps x
  | property {schemas name schema ms x} (declared : (name, schema) ∈ schemas) (stands : ms.lookup name = some x) :
      Enters validator sub base (.properties schemas) (.obj ms) (baseInside base schema) schema
        [.key name] [.key name] x
  | dependency {entries property members ms} (mem : (property, .obj members) ∈ entries)
      (present : hasKey ms property = true) :
      Enters validator sub base (.dependencies entries) (.obj ms) (baseInside base (.obj members)) (.obj members)
        [] [.key property] (.obj ms)
  | whole {members v} :
      Enters validator sub base (.extension (.obj members)) v (baseInside base (.obj members)) (.obj members) [] [] v
  | branch {schemas i schema v} (declared : schemas[i]? = some schema) :
      Enters validator sub base (.extension (.arr schemas)) v (baseInside base schema) schema [] [.index i] v

/-- Whether a rule is a keyword of draft-07. -/
def Rule.isShared : Rule → Bool
  | .shared _ => true
  | _ => false

/-- Whether a rule of some other draft can make a complaint. -/
def Complaint.isPeculiar : Complaint → Bool
  | .wrongType _ | .missingProperty _ _ | .missingDependency _ _ _ => true
  | .notBeyond _ _ | .notDivisible _ | .disallowed _ => true
  | _ => false

/-- Where a finding of a rule comes from: from a keyword, from the rule itself, from an entered schema that allows
nothing, or from an entered schema that judges without a fault.  Only in an object does a rule blame a place below the
value. -/
inductive Rule.FoundBy (validator : Validator) (sub : Judge) (base : String) (r : Rule) (v : Json) (y : Violation) :
    Prop
  | shared {k} (common : r = .shared k) (here : y = .here y.complaint v) (name : y.keyword = k.name) :
      FoundBy validator sub base r v y
  | own (peculiar : y.complaint.isPeculiar = true) (foreign : r.isShared = false) (value : y.value = v)
      (place : y.place = [] ∨ v.isObj = true) : FoundBy validator sub base r v y
  | refused {inside steps schemaSteps x} (complaint : y.complaint = .nothingAllowed)
      (enters : Enters validator sub base r v inside (.bool false) steps schemaSteps x) :
      FoundBy validator sub base r v y
  | entered {inside schema steps schemaSteps x inner}
      (enters : Enters validator sub base r v inside schema steps schemaSteps x)
      (sound : (sub inside schema x).fault? = none) (mem : inner ∈ (sub inside schema x).violations)
      (above : y = inner.under steps schemaSteps) : FoundBy validator sub base r v y

/-! ## Where from -/

namespace Rule

variable {validator : Validator} {sub : Judge} {base : String} {r : Rule} {v schema x : Json}
  {steps schemaSteps : Position} {y : Violation}

theorem FoundBy.of_descend
    (enters : Enters validator sub base r v (baseInside base schema) schema steps schemaSteps x)
    (sound : (sub.descend base schema steps schemaSteps x).fault? = none)
    (hy : y ∈ (sub.descend base schema steps schemaSteps x).violations) :
    FoundBy validator sub base r v y := by
  by_cases hrefuses : schema = .bool false
  · subst hrefuses
    rw [List.mem_singleton.mp hy]
    exact .refused rfl enters
  · rw [Judge.descend_of_ne hrefuses] at sound hy
    obtain ⟨inner, hinner, rfl⟩ := mem_under.mp hy
    exact .entered enters sound hinner rfl

theorem FoundBy.of_require {met : Bool} (complaint : Complaint)
    (hy : y ∈ (Keyword.require met v complaint).violations) (foreign : r.isShared = false) (peculiar : complaint.isPeculiar = true) : FoundBy validator sub base r v y := by
  obtain ⟨-, rfl⟩ := Keyword.mem_require.mp hy
  exact .own peculiar foreign rfl (.inl rfl)

/-- What an absent property's schema finds. -/
theorem FoundBy.of_absent {property : String} {ms : Members} (foreign : r.isShared = false)
    (hy : y ∈ (absent property schema (.obj ms)).violations) : FoundBy validator sub base r (.obj ms) y := by
  unfold absent at hy
  split at hy
  · dsimp only at hy
    split at hy
    · split at hy
      · obtain ⟨z, hz, rfl⟩ := mem_under.mp hy
        rw [List.mem_singleton.mp hz]
        exact .own rfl foreign rfl (.inr rfl)
      · cases hy
    · cases hy
  · cases hy

/-- **What a rule finds is its own, or was found behind an entrance.** -/
theorem found_by (sound : (r.judge validator sub base v).fault? = none)
    (hy : y ∈ (r.judge validator sub base v).violations) : FoundBy validator sub base r v y := by
  cases r with
  | shared k =>
    cases Keyword.found_by sound hy with
    | own hhere hname => exact .shared rfl hhere hname
    | refused hcomplaint henters => exact .refused hcomplaint (.shared henters)
    | entered henters hinside hinner habove => exact .entered (.shared henters) hinside hinner habove
  | type names => exact .of_require (.wrongType names) hy rfl rfl
  | bound side limit =>
    cases v with
    | num n => exact .of_require (.notBeyond side limit) hy rfl rfl
    | null | bool | str | arr | obj => cases hy
  | items =>
    cases v with
    | arr xs => cases sound
    | null | bool | num | str | obj => cases hy
  | properties schemas =>
    cases v with
    | obj ms =>
      obtain ⟨⟨name, schema⟩, hdeclared, hsound, hy⟩ := part_of_found sound hy
      cases hstands : ms.lookup name with
      | none =>
        simp only [hstands] at hy
        exact .of_absent rfl hy
      | some x =>
        simp only [hstands] at hsound hy
        exact .of_descend (.property hdeclared hstands) hsound hy
    | null | bool | num | str | arr => cases hy
  | dependencies entries =>
    cases v with
    | obj ms =>
      obtain ⟨⟨property, asked⟩, hmem, hsound, hy⟩ := part_of_found sound hy
      cases hpresent : hasKey ms property with
      | false =>
        simp only [hpresent] at hy
        cases hy
      | true =>
        simp only [hpresent, if_true] at hsound hy
        split at hy
        · exact .of_descend (.dependency hmem hpresent) hsound hy
        · exact .of_require (.missingDependency property _ _) hy rfl rfl
        · split at hy
          · obtain ⟨o, ho, hy⟩ := mem_violations_concat hy
            obtain ⟨name, -, rfl⟩ := List.mem_map.mp ho
            exact .of_require (.missingDependency property name _) hy rfl rfl
          · cases hy
    | null | bool | num | str | arr => cases hy
  | extension schema =>
    cases schema with
    | obj members => exact .of_descend .whole sound hy
    | arr schemas =>
      obtain ⟨⟨schema, i⟩, hmem, hsound, hy⟩ := part_of_found sound hy
      exact .of_descend (.branch (List.mk_mem_zipIdx_iff_getElem?.mp hmem)) hsound hy
    | null | bool | num | str => cases hy
  | disallow refused =>
    obtain ⟨x, -, hsound, hy⟩ := part_of_found sound hy
    obtain ⟨met, hmet⟩ := sound_ofExcept hsound
    rw [hmet] at hy
    exact .of_require (.disallowed x) hy rfl rfl
  | divisibleBy divisor =>
    cases v with
    | num n =>
      cases divisor with
      | num d =>
        rw [judge] at hy
        split at hy
        · exact .of_require (.notDivisible d) hy rfl rfl
        · cases hy
      | null | bool | str | arr | obj => cases hy
    | null | bool | str | arr | obj => cases hy

/-- **The part of a value that is judged where a schema is entered has distinct keys.** -/
theorem Enters.part_distinct {inside : String}
    (enters : Enters validator sub base r v inside schema steps schemaSteps x) (hv : v.Distinct) : x.Distinct := by
  cases enters with
  | shared henters => exact henters.part_distinct hv
  | property _ hstands => exact hv.lookup hstands
  | dependency | whole | branch => exact hv

end Rule

end JsonMend
