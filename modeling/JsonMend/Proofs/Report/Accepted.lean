import JsonMend.Proofs.Draft7.Crossing
import JsonMend.Proofs.Repair.Fixpoint
import JsonMend.Proofs.Report.Findings
/-
  A value on which nothing is reported is left alone by a repair.

  The validator and the passes read a schema each in its own way, so this holds only of a value on which the
  two ways agree.

  1. **Read alike** (`ReadAlike`) — wherever the passes ask something of a part of the value, the validator
     judges that part by the schema that the passes have read, and finds its undeclared keys extra.
  2. **Every place** (`admitted_of_accepted`, `pruned_of_accepted`) — then a report without findings says
     that no part is of a wrong type or has a forbidden key.
  3. **At rest** (`mend_of_accepted`) — nothing is left to prune, to coerce or to replace.  That nothing is
     missing either, and that every key leads somewhere, is what a repair leaves behind.
-/
namespace JsonMend

open Shape

variable {s g : Shape} {schema v x : Json} {formats : Bool} {place : Position} {key : String}

/-! ## Read alike -/

/-- A shape that asks nothing of any value. -/
structure Shape.Idle (s : Shape) : Prop where
  types : s.types = []
  namesKeys : s.namesKeys = false
  items : s.items = none

/-- The passes and the validator read a schema alike, beside a value. -/
structure ReadAlike (schema v : Json) : Prop where
  /-- Where something is asked of a part, the way down to it does not go astray. -/
  followed : ∀ place g x, (ofSchema schema).Walk v place g x → ¬ g.Idle → ¬ Astray schema v place
  /-- Where no key of an object is extra by the joined patterns, none is undeclared. -/
  counted : ∀ place g ms, (ofSchema schema).Walk v place g (.obj ms) → g.closed = true →
    g.extraKeys ms = .ok [] → ∀ key ∈ ms.map Prod.fst, g.declares key ≠ .ok false

theorem idle_unconstrained : unconstrained.Idle := ⟨rfl, rfl, rfl⟩

theorem Shape.Idle.admits (h : s.Idle) (v : Json) : s.admits v = true := by
  rw [Shape.admits, h.types]
  rfl

/-- Where something is asked of a part, a schema judges it. -/
theorem ReadAlike.judged (alike : ReadAlike schema v) (hwalk : (ofSchema schema).Walk v place g x)
    (asks : ¬ g.Idle) : ∃ members last, schema = .obj members ∧ g = ofSchema (.obj last) ∧
      last.lookup "$ref" = none ∧ Judged members v place last x := by
  rcases judged_or_astray hwalk with hastray | hfree | hjudged
  · exact absurd hastray (alike.followed place g x hwalk asks)
  · rw [hfree] at asks
    exact absurd idle_unconstrained asks
  · exact hjudged

/-- A shape that does not lead an undeclared key of an object to its items. -/
def Shape.Straight (s : Shape) : Prop := s.isObject = true → s.items = none

instance (s : Shape) : Decidable s.Straight :=
  inferInstanceAs (Decidable (s.isObject = true → s.items = none))

/-- No way down goes astray without references, in one dialect and with straight shapes only. -/
theorem not_astray (unreferenced : Unreferenced schema)
    (home : ∀ s ∈ schema.innerParts, s.namesOtherDraft = false)
    (straight : (ofSchema schema).Everywhere Straight)
    (hwalk : (ofSchema schema).Walk v place g x) : ¬ Astray schema v place := by
  intro h
  induction h with
  | reference hreference => exact hreference unreferenced.noReference
  | crossed hundeclared =>
    obtain ⟨hproperty, hpattern⟩ := declares_eq_false.mp hundeclared
    cases hwalk with
    | down _ part _ =>
      cases part with
      | member hobject _ hchild =>
        rcases child_key_cases hchild with hlookup | ⟨-, hmatch⟩ | ⟨hitems, -⟩
        · exact Option.some_ne_none _ (hlookup.symm.trans hproperty)
        · rw [hpattern] at hmatch
          cases hmatch
        · exact Option.some_ne_none _ (hitems.symm.trans (straight.here hobject))
  | abroad habroad =>
    obtain ⟨s, hs, hforeign⟩ := habroad.foreign_inside
    exact Bool.false_ne_true ((home s hs).symm.trans hforeign)
  | down stands part hread rest ih =>
    cases hwalk with
    | down stands' part' rest' =>
      rw [stands] at stands'
      cases stands'
      have hsub := part.child.symm.trans part'.child
      cases Option.some.inj (Except.ok.inj hsub)
      have hhome := fun s hs => home s (Json.innerParts_trans hread.mem_innerParts (Json.mem_parts_of_inner hs))
      exact ih (unreferenced.of_inside hread) hhome (straight.child part.child) rest'

/-- A schema without references and patterns in which none names another draft is read alike beside every value, if
none of its shapes is one for objects and has items too. -/
theorem ReadAlike.of_straight (unreferenced : Unreferenced schema)
    (home : ∀ s ∈ schema.innerParts, s.namesOtherDraft = false)
    (straight : (ofSchema schema).Everywhere Straight)
    (noPattern : (ofSchema schema).Everywhere (·.patterns = [])) : ReadAlike schema v where
  followed _ _ _ hwalk _ := not_astray unreferenced home straight hwalk
  counted _ _ _ hwalk _ hnone _ hkey hundeclared :=
    extraKeys_ne_nil (noPattern.walk hwalk).here hkey hundeclared hnone

/-! ## Every place -/

/-- **Where nothing is reported, every part is of a right type.** -/
theorem admitted_of_accepted (alike : ReadAlike schema v)
    (accepted : (Validator.ofSchema formats schema).report v = .ok [])
    (hwalk : (ofSchema schema).Walk v place g x) : g.admits x = true := by
  cases hadmits : g.admits x with
  | true => rfl
  | false =>
    have hasks : ¬ g.Idle := fun hidle => Bool.false_ne_true (hadmits.symm.trans (hidle.admits x))
    obtain ⟨members, last, rfl, rfl, hlast, hjudged⟩ := alike.judged hwalk hasks
    obtain ⟨sound, hall⟩ := Validator.report_eq_ok accepted
    obtain ⟨f, hf, -, -⟩ := type_reported sound hall hjudged hlast hadmits
    exact absurd hf List.not_mem_nil

/-- Where a key leads somewhere, it is settled whether the key is forbidden. -/
theorem forbids_of_child (h : ∃ sub?, s.child (.key key) = .ok sub?) (object : s.isObject = true) :
    ∃ forbidden, Prune.forbids s key = .ok forbidden := by
  have hdeclares : ∃ declared, s.declares key = .ok declared := by
    rw [declares]
    cases hkey : hasKey s.properties key with
    | true => exact ⟨true, if_pos rfl⟩
    | false =>
      rw [if_neg Bool.false_ne_true]
      obtain ⟨sub?, hsub⟩ := h
      unfold child at hsub
      rw [object] at hsub
      have hlookup : s.properties.lookup key = none :=
        lookup_eq_none_iff.mpr (hasKey_eq_false_iff.mp hkey)
      simp only [hlookup] at hsub
      cases hmatch : firstMatching key s.patterns with
      | error fault =>
        rw [hmatch] at hsub
        cases hsub
      | ok found? => exact ⟨found?.isSome, rfl⟩
  obtain ⟨declared, hdeclares⟩ := hdeclares
  unfold Prune.forbids
  split
  · exact ⟨!declared, by rw [hdeclares]; rfl⟩
  · exact ⟨false, rfl⟩

/-- **Where nothing is reported, no key is forbidden.** -/
theorem pruned_of_accepted (alike : ReadAlike schema v)
    (accepted : (Validator.ofSchema formats schema).report v = .ok [])
    (hwalk : (ofSchema schema).Walk v place g x) (charted : Charted g x) : Pruned g x := by
  rintro ms rfl hobject key hkey
  obtain ⟨forbidden, hforbids⟩ := forbids_of_child (charted ms rfl hobject key hkey) hobject
  cases forbidden with
  | false => exact hforbids
  | true =>
    obtain ⟨hclosed, hnames, hundeclared⟩ := Prune.forbids_eq_true.mp hforbids
    have hasks : ¬ g.Idle := fun hidle => Bool.false_ne_true (hidle.namesKeys.symm.trans hnames)
    obtain ⟨members, last, rfl, rfl, hlast, hjudged⟩ := alike.judged hwalk hasks
    obtain ⟨sound, hall⟩ := Validator.report_eq_ok accepted
    obtain ⟨extras, hextras, hreported⟩ := undeclared_reported sound hall hjudged hlast hclosed
    cases extras with
    | nil => exact absurd hundeclared (alike.counted place _ ms hwalk hclosed hextras key hkey)
    | cons extra rest =>
      obtain ⟨f, hf, -⟩ := hreported (List.cons_ne_nil _ _) key hkey hundeclared
      exact absurd hf List.not_mem_nil

/-! ## At rest -/

/-- **A repair leaves alone a value on which nothing is reported**, if nothing is missing from it. -/
theorem mend_of_accepted (distinct : v.Distinct) (alike : ReadAlike schema v)
    (accepted : (Validator.ofSchema formats schema).report v = .ok [])
    (filled : Governed Unguarded Filled (ofSchema schema) v)
    (charted : Governed Unguarded Charted (ofSchema schema) v) :
    (mend (ofSchema schema) v).run = .ok (v, []) := by
  have hadmits : ∀ {place g x}, (ofSchema schema).Walk v place g x → g.admits x = true :=
    fun hwalk => admitted_of_accepted alike accepted hwalk
  refine mend_still ?_ ?_ ?_ filled charted
  · refine .of_walks distinct fun place g x hwalk => ?_
    exact pruned_of_accepted alike accepted hwalk (charted.of_walk_unguarded hwalk)
  · exact .of_walks distinct fun place g x hwalk => .inl (hadmits hwalk)
  · exact .of_walks distinct fun place g x hwalk => .inr (.inl (hadmits hwalk))

end JsonMend
