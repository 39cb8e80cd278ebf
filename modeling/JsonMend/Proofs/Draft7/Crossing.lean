import JsonMend.Proofs.Draft7.Plain
import JsonMend.Proofs.Json.Parts
/-
  Where a repair goes down and the validator does not.

  A repair goes down along shapes, the validator along schemas.  The two part at three kinds of steps.  A
  shape knows nothing of references, while a schema with a reference consists of the reference alone.  A shape
  knows nothing of drafts, while a schema that names another draft is judged by that.  And
  a shape leads an undeclared key of an object to the schema of the items (`Shape.child`), while the
  validator applies that schema to the items of arrays and to nothing else.

  1. **Abroad**, **Astray** — a way down that enters a schema of another draft, and one that meets a reference or such
     a key, or goes abroad.
  2. **One walk or the other** (`judged_or_astray`) — what a shape leads to without going astray, the schema
     that the shape was read from judges as well.
  3. **Without references** (`Unreferenced`) — a way goes astray by crossing (`Crosses`) or by going abroad.
  4. **Nothing is judged across** (`Judged.not_crosses`) — under a direct schema no place that is judged is
     reached by crossing, as long as all schemas that judge a place have one shape (`JudgedAlike`).
-/
namespace JsonMend

open Shape

variable {s sub g : Shape} {members : Members} {schema v x : Json} {place : Position}
  {step : Segment}

/-! ## Abroad -/

/-- The way down to a place, along the schemas that its shapes are read from, enters one that names another
draft. -/
inductive Abroad : Json → Json → Position → Prop
  | here {members : Members} {inside v x : Json} {step : Segment} {place : Position}
      (stands : v.step? step = some x)
      (part : (ofSchema (.obj members)).Part v step (ofSchema inside) x)
      (read : Inside members inside) (foreign : inside.namesOtherDraft = true) :
      Abroad (.obj members) v (step :: place)
  | down {members : Members} {inside v x : Json} {step : Segment} {place : Position}
      (stands : v.step? step = some x)
      (part : (ofSchema (.obj members)).Part v step (ofSchema inside) x)
      (read : Inside members inside) (rest : Abroad inside x place) :
      Abroad (.obj members) v (step :: place)

theorem Inside.mem_innerParts {sub : Json} (h : Inside members sub) : sub ∈ (Json.obj members).innerParts := by
  have hmember : ∀ {key value}, members.lookup key = some value → value ∈ (Json.obj members).innerParts :=
    fun hlookup => Json.member_mem_innerParts (mem_keys_of_lookup hlookup)
  cases h with
  | named _ hkeyword hmem =>
    exact Json.innerParts_trans (hmember hkeyword) (Json.mem_parts_of_inner (Json.member_mem_innerParts hmem))
  | items hkeyword => exact hmember hkeyword

/-- A way abroad enters a schema inside. -/
theorem Abroad.foreign_inside (h : Abroad schema v place) : ∃ s ∈ schema.innerParts, s.namesOtherDraft = true := by
  induction h with
  | here _ _ hread hforeign => exact ⟨_, hread.mem_innerParts, hforeign⟩
  | down _ _ hread _ ih =>
    obtain ⟨s, hs, hforeign⟩ := ih
    exact ⟨s, Json.innerParts_trans hread.mem_innerParts (Json.mem_parts_of_inner hs), hforeign⟩

/-- Nothing inside a direct schema is of another draft. -/
theorem Abroad.not_direct (h : Abroad schema v place) : ¬ Direct schema := by
  intro hdirect
  induction h with
  | here _ _ hread hforeign => exact Bool.false_ne_true ((hdirect.home_inside hread).symm.trans hforeign)
  | down _ _ hread _ ih => exact ih (hdirect.of_inside hread)

/-! ## Astray -/

/-- The way down to a place, along the schemas that its shapes are read from, meets a reference, goes abroad, or takes
a key of an object that the shape there does not declare. -/
inductive Astray : Json → Json → Position → Prop
  | reference {members : Members} {v : Json} {place : Position}
      (reference : members.lookup "$ref" ≠ none) : Astray (.obj members) v place
  | crossed {members ms : Members} {key : String} {place : Position}
      (undeclared : (ofSchema (.obj members)).declares key = .ok false) :
      Astray (.obj members) (.obj ms) (.key key :: place)
  | abroad {schema v : Json} {place : Position} (abroad : Abroad schema v place) : Astray schema v place
  | down {members : Members} {inside v x : Json} {step : Segment} {place : Position}
      (stands : v.step? step = some x)
      (part : (ofSchema (.obj members)).Part v step (ofSchema inside) x)
      (read : Inside members inside) (rest : Astray inside x place) :
      Astray (.obj members) v (step :: place)

/-! ## One walk or the other -/

/-- A part that a shape leads to stands behind an undeclared key, or the shape that governs it is that of a
schema inside, which judges the part too. -/
theorem inner_of_part (part : (ofSchema (.obj members)).Part v step sub x) :
    (∃ key ms, step = .key key ∧ v = .obj ms ∧
      (ofSchema (.obj members)).declares key = .ok false) ∨
    ∃ inside, sub = ofSchema inside ∧ Inside members inside ∧
      ∀ inner, inside = .obj inner → v.step? step = some x → Inner members v step inner x := by
  cases part with
  | @member ms key x sub hobject hmem hchild =>
    rcases child_key_cases hchild with hlookup | ⟨-, hmatch⟩ | ⟨-, hfree⟩
    · right
      obtain ⟨ps, inside, hkeyword, hdeclared, rfl⟩ := schema_of_property (mem_keys_of_lookup hlookup)
      refine ⟨inside, rfl, .named (.inl rfl) hkeyword hdeclared, ?_⟩
      rintro inner rfl hstands
      exact .property hkeyword hdeclared hstands
    · right
      obtain ⟨regex, hpattern, hfound⟩ := mem_of_firstMatching hmatch
      obtain ⟨ps, inside, hkeyword, hdeclared, rfl⟩ := schema_of_pattern hpattern
      refine ⟨inside, rfl, .named (.inr rfl) hkeyword hdeclared, ?_⟩
      rintro inner rfl -
      exact .pattern hkeyword hdeclared hfound hmem
    · -- the shape of the items takes what no property and no pattern declares
      left
      exact ⟨key, ms, rfl, rfl, declares_eq_false.mpr (hfree hobject)⟩
  | item hget hitems =>
    right
    obtain ⟨inside, hkeyword, -, rfl⟩ := schema_of_items hitems
    refine ⟨inside, rfl, .items hkeyword, ?_⟩
    rintro inner rfl -
    exact .item hkeyword hget

/-- **What a shape leads to without going astray, a schema judges**, unless nothing is asked of it. -/
theorem judged_or_astray (hwalk : (ofSchema schema).Walk v place g x) :
    Astray schema v place ∨ g = unconstrained ∨
      ∃ members last, schema = .obj members ∧ g = ofSchema (.obj last) ∧
        last.lookup "$ref" = none ∧ Judged members v place last x := by
  generalize hs : ofSchema schema = s at hwalk
  induction hwalk generalizing schema with
  | @here s v =>
    subst hs
    cases schema with
    | obj members =>
      by_cases hnone : members.lookup "$ref" = none
      · exact .inr (.inr ⟨members, members, rfl, rfl, hnone, .here⟩)
      · exact .inl (.reference hnone)
    | null | bool | num | str | arr => exact .inr (.inl (ofSchema_of_not_obj rfl))
  | @down s v step sub x place g y stands part rest ih =>
    subst hs
    cases schema with
    | obj members =>
      by_cases hnone : members.lookup "$ref" = none
      · rcases inner_of_part part with ⟨key, ms, rfl, rfl, hundeclared⟩ |
          ⟨inside, rfl, hinside, hinner⟩
        · exact .inl (.crossed hundeclared)
        · rcases ih rfl with hastray | hfree | ⟨inner, last, rfl, hg, hlast, hjudged⟩
          · exact .inl (.down stands part hinside hastray)
          · exact .inr (.inl hfree)
          · cases hhome : (Json.obj inner).namesOtherDraft with
            | true => exact .inl (.abroad (.here stands part hinside hhome))
            | false =>
              have hdown := Judged.down hnone (hinner inner rfl stands) hhome hjudged
              exact .inr (.inr ⟨members, last, rfl, hg, hlast, hdown⟩)
      · exact .inl (.reference hnone)
    | null | bool | num | str | arr =>
      -- nothing is one step below what constrains nothing
      have hchild := part.child
      rw [ofSchema_of_not_obj rfl] at hchild
      cases step <;> cases hchild

/-! ## Without references -/

/-- A schema in which no schema that its shape is read from is a reference. -/
inductive Unreferenced : Json → Prop
  | obj {members : Members} (noReference : members.lookup "$ref" = none)
      (inside : ∀ sub, Inside members sub → Unreferenced sub) : Unreferenced (.obj members)
  | flat {v : Json} (flat : v.isObj = false) : Unreferenced v

namespace Unreferenced

theorem noReference (h : Unreferenced (.obj members)) : members.lookup "$ref" = none := by
  cases h with
  | obj hnone _ => exact hnone
  | flat hflat => cases hflat

theorem of_inside {sub : Json} (h : Unreferenced (.obj members)) (hinside : Inside members sub) :
    Unreferenced sub := by
  cases h with
  | obj _ inside => exact inside sub hinside
  | flat hflat => cases hflat

/-- A schema without the keyword anywhere uses no references. -/
theorem of_eachObject (h : schema.EachObject ("$ref" ∉ ·)) : Unreferenced schema := by
  induction schema using Inside.induction with
  | obj members ih =>
    have hnone : members.lookup "$ref" = none := lookup_eq_none_iff.mpr (Json.eachObject_obj.mp h).1
    exact .obj hnone fun sub hinside => ih sub hinside (hinside.eachObject h)
  | flat schema hflat => exact .flat hflat

end Unreferenced

/-! ## Crossing -/

/-- The way down to a place takes a key of an object that the shape there does not declare. -/
def Crosses (s : Shape) (v : Json) (place : Position) : Prop :=
  ∃ above key below g ms, place = above ++ .key key :: below ∧ s.Walk v above g (.obj ms) ∧
    g.declares key = .ok false

theorem Crosses.here {key : String} {ms : Members} (h : s.declares key = .ok false)
    (below : Position) : Crosses s (.obj ms) (.key key :: below) :=
  ⟨[], key, below, s, ms, rfl, .here, h⟩

theorem Crosses.down (stands : v.step? step = some x) (part : s.Part v step sub x)
    (h : Crosses sub x place) : Crosses s v (step :: place) := by
  obtain ⟨above, key, below, g, ms, rfl, hwalk, hundeclared⟩ := h
  exact ⟨step :: above, key, below, g, ms, rfl, .down stands part hwalk, hundeclared⟩

theorem Astray.crosses_or_abroad (h : Astray schema v place) (unreferenced : Unreferenced schema) :
    Crosses (ofSchema schema) v place ∨ Abroad schema v place := by
  induction h with
  | reference hreference => exact absurd unreferenced.noReference hreference
  | crossed hundeclared => exact .inl (.here hundeclared _)
  | abroad habroad => exact .inr habroad
  | down stands part hread rest ih =>
    exact (ih (unreferenced.of_inside hread)).imp (·.down stands part) (.down stands part hread)

/-- What a shape leads to without crossing, a schema without references judges, unless it is of another draft. -/
theorem judged_of_walk (h : Unreferenced schema) (hwalk : (ofSchema schema).Walk v place g x) :
    (Crosses (ofSchema schema) v place ∨ Abroad schema v place) ∨ g = unconstrained ∨
      ∃ members last, schema = .obj members ∧ g = ofSchema (.obj last) ∧
        last.lookup "$ref" = none ∧ Judged members v place last x :=
  (judged_or_astray hwalk).imp_left fun hastray => hastray.crosses_or_abroad h

/-! ## Nothing is judged across -/

/-- A key that leads to an inner schema is declared. -/
theorem Inner.declared {sub : Members} {key : String} (h : Inner members v (.key key) sub x) :
    (ofSchema (.obj members)).declares key ≠ .ok false := by
  intro hundeclared
  obtain ⟨hproperty, hpattern⟩ := declares_eq_false.mp hundeclared
  cases h with
  | property hkeyword hdeclared hstands =>
    rw [lookup_eq_none_iff] at hproperty
    exact hproperty (List.mem_map.mpr ⟨_, property_of_schema hkeyword hdeclared, rfl⟩)
  | pattern hkeyword hdeclared hfound hmem =>
    exact firstMatching_ne_none (pattern_of_schema hkeyword hdeclared) hfound hpattern

/-- Wherever several schemas judge one place of a value, they have one shape. -/
def JudgedAlike (schema v : Json) : Prop :=
  ∀ members place last last' x x', schema = .obj members → Judged members v place last x →
    Judged members v place last' x' → ofSchema (.obj last) = ofSchema (.obj last')

theorem JudgedAlike.inner {sub : Members} (h : JudgedAlike (.obj members) v)
    (noReference : members.lookup "$ref" = none) (hinner : Inner members v step sub x)
    (home : (Json.obj sub).namesOtherDraft = false) : JudgedAlike (.obj sub) x := by
  rintro _ place last last' y y' ⟨⟩ hlast hlast'
  exact h members (step :: place) last last' y y' rfl (.down noReference hinner home hlast)
    (.down noReference hinner home hlast')

/-- Only patterns let several schemas judge one place. -/
theorem Plain.judgedAlike (plain : Plain schema) (distinct : schema.Distinct) :
    JudgedAlike schema v := by
  rintro members place last last' x x' rfl hlast hlast'
  obtain ⟨hwalk, -⟩ := hlast.walk plain distinct
  obtain ⟨hwalk', -⟩ := hlast'.walk plain distinct
  exact (hwalk.unique hwalk').1

/-- **What a direct schema judges is not reached by crossing.** -/
theorem Judged.not_crosses {last : Members} (h : Judged members v place last x)
    (direct : Direct (.obj members)) (alike : JudgedAlike (.obj members) v) (hv : v.Distinct) :
    ¬ Crosses (ofSchema (.obj members)) v place := by
  induction h with
  | here =>
    rintro ⟨above, key, below, g, ms, hplace, -, -⟩
    exact List.append_ne_nil_of_right_ne_nil above (List.cons_ne_nil _ _) hplace.symm
  | @down members v step sub x place last y hnone hinner hhome hrest ih =>
    obtain ⟨hstands, hx⟩ := hinner.stands hv
    rintro ⟨above, key, below, g, ms, hplace, hwalk, hundeclared⟩
    cases above with
    | nil =>
      -- the first step crosses, but an inner schema judges behind it
      cases hplace
      cases hwalk
      exact hinner.declared hundeclared
    | cons step' above =>
      rw [List.cons_append, List.cons.injEq] at hplace
      obtain ⟨rfl, hplace⟩ := hplace
      cases hwalk with
      | down stands part rest =>
        rw [hstands] at stands
        cases stands
        rcases inner_of_part part with ⟨key', ms', rfl, rfl, hundeclared'⟩ |
          ⟨inside, rfl, hinside, hinner'⟩
        · exact hinner.declared hundeclared'
        · -- both schemas judge the part, so the walk goes on under the shape of the one that does
          have hhome' := direct.home_inside hinside
          obtain ⟨inner, rfl⟩ := (direct.of_inside hinside).members_of
          have hinner' := hinner' inner rfl hstands
          have hshape : ofSchema (.obj inner) = ofSchema (.obj sub) :=
            alike members [step] inner sub x x rfl (.down hnone hinner' hhome' .here)
              (.down hnone hinner hhome .here)
          rw [hshape] at rest
          refine ih ?_ (alike.inner hnone hinner hhome) hx ⟨above, key, below, g, ms, hplace, rest, hundeclared⟩
          exact direct.of_inner hinner

end JsonMend
