import Mathlib.Data.List.Perm.Subperm
import JsonMend.Proofs.Draft7.Kin
import JsonMend.Proofs.Draft7.Own
/-
  Judging does not depend on the order of members.

  Two kin schemas judge two akin values by the same keywords in another order.  A fault ends a judging where it
  occurs, and in another order it may occur earlier or later, so the two are compared where the judging of
  one side ends without a fault.

  1. **Within** — all that is found on the one side is found on the other, each violation by a kin violation of
     its own: at the same places, with a kin complaint about an akin value.
  2. **Outcomes** — what is put together from parts that lie within each other, in any order, lies within
     each other (`Within.concat`); where both sides end, both accept or neither does (`accepts_eq`).
  3. **Keywords** (`Keyword.judge_within`) — one by one.  Most ask something of one kind of value only, and akin
     values are of one kind (`within_objects`, `within_arrays`).
  4. **Schemas** (`judgeWith_within`) — by induction on the rounds, for both directions at once, since whether
     a schema accepts must be the same on both sides.
-/
namespace JsonMend

open Json

/-! ## Lists within each other -/

/-- Each element of a list has a related one of its own in another list. -/
def Within {α β : Type} (R : α → β → Prop) (xs : List α) (ys : List β) : Prop :=
  ∃ zs, List.Forall₂ R xs zs ∧ zs.Subperm ys

namespace Within

variable {α β : Type} {R : α → β → Prop} {xs xs' : List α} {ys ys' : List β}

theorem nil : Within R [] ys := ⟨[], .nil, List.nil_subperm⟩

theorem singleton {x : α} {y : β} (h : R x y) : Within R [x] [y] :=
  ⟨[y], .cons h .nil, List.Subperm.refl _⟩

theorem append (h : Within R xs ys) (h' : Within R xs' ys') : Within R (xs ++ xs') (ys ++ ys') := by
  obtain ⟨zs, hzs, hsub⟩ := h
  obtain ⟨zs', hzs', hsub'⟩ := h'
  exact ⟨zs ++ zs', List.rel_append hzs hzs', hsub.append hsub'⟩

theorem append_right (h : Within R xs ys) : Within R xs (ys ++ ys') := by
  have happend := h.append (nil : Within R [] ys')
  rwa [List.append_nil] at happend

theorem of_perm (h : Within R xs ys) (perm : ys.Perm ys') : Within R xs ys' := by
  obtain ⟨zs, hzs, hsub⟩ := h
  exact ⟨zs, hzs, hsub.trans perm.subperm⟩

theorem eq_nil (h : Within R xs []) : xs = [] := by
  obtain ⟨zs, hzs, hsub⟩ := h
  rw [List.subperm_nil.mp hsub] at hzs
  cases hzs
  rfl

theorem map {γ δ : Type} {S : γ → δ → Prop} {f : α → γ} {g : β → δ} (h : Within R xs ys)
    (rel : ∀ x y, R x y → S (f x) (g y)) : Within S (xs.map f) (ys.map g) := by
  obtain ⟨zs, hzs, hsub⟩ := h
  obtain ⟨ws, hperm, hsub⟩ := hsub
  refine ⟨zs.map g, ?_, ws.map g, hperm.map g, hsub.map g⟩
  rw [List.forall₂_map_left_iff, List.forall₂_map_right_iff]
  exact hzs.imp rel

end Within

/-! ## Kin violations -/

section
variable (V V' : Validator)

/-- Complaints of kin keywords.  What is not shown to anybody is left open. -/
inductive Complaint.Kin : Complaint → Complaint → Prop
  | same {c : Complaint} (single : ∀ branches accepting, c ≠ .severalOfOne branches accepting) :
      Complaint.Kin c c
  | notInEnum {values values' : List Json} (akin : List.Forall₂ Akin values values') :
      Complaint.Kin (.notInEnum values) (.notInEnum values')
  | notConst {value value' : Json} (akin : value.Akin value') :
      Complaint.Kin (.notConst value) (.notConst value')
  | missingDependency {property name : String} {asked asked' : List (String × List String)}
      (order : asked.Perm asked') :
      Complaint.Kin (.missingDependency property name asked) (.missingDependency property name asked')
  | undeclared {extras extras' declared declared' patterns : List String}
      (order : declared.Perm declared') :
      Complaint.Kin (.undeclared extras declared patterns) (.undeclared extras' declared' patterns)
  | surplusItems {items items' : List Json} : Complaint.Kin (.surplusItems items) (.surplusItems items')
  | severalOfOne {branches branches' accepting accepting' : List Json}
      (kin : List.Forall₂ (JsonMend.Kin V V' V.registry.rootUri V'.registry.rootUri) branches branches') :
      Complaint.Kin (.severalOfOne branches accepting) (.severalOfOne branches' accepting')
  | forbidden {s s' : Json} : Complaint.Kin (.forbidden s) (.forbidden s')

/-- Violations at the same places, with kin complaints about akin values. -/
structure Violation.Kin (z z' : Violation) : Prop where
  complaint : Complaint.Kin V V' z.complaint z'.complaint
  value : z.value.Akin z'.value
  place : z.place = z'.place
  schemaPlace : z.schemaPlace = z'.schemaPlace

end

variable {V V' : Validator} {base base' : String} {v v' s s' : Json} {c c' : Complaint}

theorem Violation.Kin.under {z z' : Violation} (steps schemaSteps : Position) (h : z.Kin V V' z') :
    (z.under steps schemaSteps).Kin V V' (z'.under steps schemaSteps) :=
  ⟨h.complaint, h.value, congrArg (steps ++ ·) h.place, congrArg (schemaSteps ++ ·) h.schemaPlace⟩

/-! ## Outcomes -/

namespace Outcome

/-- Where the second judging ends, all that the first finds lies within what the second finds. -/
def Within (V V' : Validator) (o o' : Outcome) : Prop :=
  o'.fault? = none → JsonMend.Within (Violation.Kin V V') o.violations o'.violations

variable {o o' : Outcome} {os os' mid : List Outcome}

theorem within_of_nil (h : o.violations = []) : o.Within V V' o' := by
  intro _
  rw [h]
  exact .nil

theorem within_complain (hc : c.Kin V V' c') (hv : v.Akin v') :
    (complain v c).Within V V' (complain v' c') :=
  fun _ => .singleton ⟨hc, hv, rfl, rfl⟩

theorem within_require {met met' : Bool} (hmet : met = met') (hc : c.Kin V V' c') (hv : v.Akin v') :
    (Keyword.require met v c).Within V V' (Keyword.require met' v' c') := by
  subst hmet
  cases met with
  | true => exact within_of_nil rfl
  | false => exact within_complain hc hv

namespace Within

theorem under (h : o.Within V V' o') (steps schemaSteps : Position) :
    (o.under steps schemaSteps).Within V V' (o'.under steps schemaSteps) :=
  fun sound => (h sound).map fun _ _ hz => hz.under steps schemaSteps

theorem ofExcept {α β : Type} {e : Except Fault α} {e' : Except Fault β} {f : α → Outcome}
    {f' : β → Outcome} (h : ∀ a b, e = .ok a → e' = .ok b → (f a).Within V V' (f' b)) :
    (ofExcept e f).Within V V' (ofExcept e' f') := by
  cases e with
  | error fault => exact within_of_nil rfl
  | ok a =>
    cases e' with
    | error fault => intro sound; cases sound
    | ok b => exact h a b rfl rfl

theorem append {p p' : Outcome} (h : o.Within V V' o') (hp : p.Within V V' p') :
    (o ++ p).Within V V' (o' ++ p') := by
  intro sound
  rw [append_fault?_eq_none] at sound
  rw [append_violations sound.1]
  cases hfault : o.fault? with
  | none =>
    rw [append_violations hfault]
    exact (h sound.1).append (hp sound.2)
  | some fault =>
    -- a fault on the left keeps the rest from being looked for
    have hleft : (o ++ p).violations = o.violations := by simp [append_def, hfault]
    rw [hleft]
    exact (h sound.1).append_right

theorem of_perm (h : o.Within V V' (Outcome.concat mid)) (order : mid.Perm os') :
    o.Within V V' (Outcome.concat os') := by
  intro sound
  have hos' := concat_fault?_eq_none.mp sound
  have hmid : ∀ p ∈ mid, p.fault? = none := fun p hp => hos' p (order.mem_iff.mp hp)
  have hfound := h (concat_fault?_eq_none.mpr hmid)
  rw [concat_violations hmid] at hfound
  rw [concat_violations hos']
  exact hfound.of_perm (order.flatMap_right _)

/-- Parts that lie within each other may be put together in any order. -/
theorem concat (h : List.Forall₂ (Outcome.Within V V') os mid) (order : mid.Perm os') :
    (Outcome.concat os).Within V V' (Outcome.concat os') := by
  have hside : (Outcome.concat os).Within V V' (Outcome.concat mid) := by
    clear order
    induction h with
    | nil => exact within_of_nil rfl
    | cons hfirst _ ih => exact hfirst.append ih
  exact hside.of_perm order

/-- Outcomes over related lists, in any order of the second. -/
theorem concat_map {α β : Type} {R : α → β → Prop} {as : List α} {bs cs : List β} {f : α → Outcome}
    {g : β → Outcome} (h : List.Forall₂ R as bs) (order : bs.Perm cs)
    (each : ∀ a b, R a b → (f a).Within V V' (g b)) :
    (Outcome.concat (as.map f)).Within V V' (Outcome.concat (cs.map g)) := by
  refine concat ?_ (order.map g)
  rw [List.forall₂_map_left_iff, List.forall₂_map_right_iff]
  exact h.imp each

end Within

/-- Where both of two outcomes say whether nothing is wrong, they say the same. -/
theorem accepts_eq {b b' : Bool} (h : o.Within V V' o') (h' : o'.Within V' V o)
    (ho : o.accepts = .ok b) (ho' : o'.accepts = .ok b') : b = b' := by
  obtain ⟨violations, fault?⟩ := o
  obtain ⟨violations', fault?'⟩ := o'
  cases violations with
  | nil =>
    cases fault? with
    | some fault => cases ho
    | none =>
      cases ho
      -- the first outcome is clean, so the second found nothing
      cases (h' rfl).eq_nil
      cases fault?' <;> cases ho'
      rfl
  | cons z zs =>
    cases ho
    cases violations' with
    | nil =>
      cases fault?' with
      | some fault => cases ho'
      | none => cases (h rfl).eq_nil
    | cons => cases ho'; rfl

theorem acceptsAfterAll_eq {b b' : Bool} (h : o.Within V V' o') (h' : o'.Within V' V o)
    (ho : o.acceptsAfterAll = .ok b) (ho' : o'.acceptsAfterAll = .ok b') : b = b' := by
  obtain ⟨violations, _ | fault⟩ := o
  · obtain ⟨violations', _ | fault⟩ := o'
    · cases ho
      cases ho'
      have hleft := h rfl
      have hright := h' rfl
      cases violations with
      | nil => rw [hright.eq_nil]
      | cons =>
        cases violations' with
        | nil => cases hleft.eq_nil
        | cons => rfl
    · cases ho'
  · cases ho

end Outcome

open Outcome

/-! ## Keywords -/

/-- Two judges that find the same under kin schemas in akin values, wherever one of them ends. -/
structure Judge.Alike (V V' : Validator) (sub sub' : Judge) : Prop where
  within : ∀ {base base' s s' x x'}, Kin V V' base base' s s' → x.Akin x' →
    (sub base s x).Within V V' (sub' base' s' x')
  within' : ∀ {base base' s s' x x'}, Kin V V' base base' s s' → x.Akin x' →
    (sub' base' s' x').Within V' V (sub base s x)

variable {sub sub' : Judge} {x x' : Json}

namespace Judge.Alike

theorem symm (h : Judge.Alike V V' sub sub') : Judge.Alike V' V sub' sub :=
  ⟨fun hkin hx => h.within' hkin.symm hx.symm, fun hkin hx => h.within hkin.symm hx.symm⟩

theorem descend (h : Judge.Alike V V' sub sub') (hkin : Kin V V' base base' s s') (hx : x.Akin x')
    (steps schemaSteps : Position) : (sub.descend base s steps schemaSteps x).Within V V'
      (sub'.descend base' s' steps schemaSteps x') := by
  have hinner := (h.within hkin.inside hx).under steps schemaSteps
  cases hkin.akin.view with
  | @flat s harr hobj =>
    cases s with
    | bool b =>
      cases b with
      | false => exact within_complain (.same (by simp)) hx
      | true => exact hinner
    | null | num | str | arr | obj => exact hinner
  | arr | obj => exact hinner

theorem accepts_eq (h : Judge.Alike V V' sub sub') (hkin : Kin V V' base base' s s') (hx : x.Akin x')
    {b b' : Bool} (hb : (sub base s x).accepts = .ok b) (hb' : (sub' base' s' x').accepts = .ok b') :
    b = b' :=
  Outcome.accepts_eq (h.within hkin hx) (h.within' hkin hx) hb hb'

end Judge.Alike

/-! ### Lists in turn -/

section
variable {α β γ δ : Type} {R : α → β → Prop} {S : γ → δ → Prop} {as : List α} {bs : List β}
  {cs : List γ} {ds : List δ}

theorem isEmpty_eq_of_forall₂ (h : List.Forall₂ R as bs) : as.isEmpty = bs.isEmpty := by
  cases h <;> rfl

theorem zipIdx_rel (n : Nat) (h : List.Forall₂ R as bs) :
    List.Forall₂ (fun p q => R p.1 q.1 ∧ p.2 = q.2) (as.zipIdx n) (bs.zipIdx n) := by
  induction h generalizing n with
  | nil => exact .nil
  | cons hfirst _ ih =>
    rw [List.zipIdx_cons, List.zipIdx_cons]
    exact .cons ⟨hfirst, rfl⟩ (ih (n + 1))

theorem zip_rel (h : List.Forall₂ R as bs) (h' : List.Forall₂ S cs ds) :
    List.Forall₂ (fun p q => R p.1 q.1 ∧ S p.2 q.2) (as.zip cs) (bs.zip ds) := by
  induction h generalizing cs ds with
  | nil => exact .nil
  | cons hfirst _ ih =>
    cases h' with
    | nil => exact .nil
    | cons hfirst' hrest' => exact .cons ⟨hfirst, hfirst'⟩ (ih hrest')

end

/-- Which properties list others does not depend on the order of the entries. -/
theorem listed_perm {es mid fs : List (String × Dependency)}
    (h : List.Forall₂ (fun e f => e.1 = f.1 ∧ Dependency.Kin V V' base base' e.2 f.2) es mid)
    (order : mid.Perm fs) : (Dependency.listed es).Perm (Dependency.listed fs) := by
  have hsame : Dependency.listed es = Dependency.listed mid := by
    clear order
    induction h with
    | nil => rfl
    | @cons e f _ _ hfirst _ ih =>
      obtain ⟨property, d⟩ := e
      obtain ⟨property', d'⟩ := f
      obtain ⟨rfl, hd⟩ := hfirst
      unfold Dependency.listed at ih ⊢
      rw [List.filterMap_cons, List.filterMap_cons, ih]
      cases hd <;> rfl
  rw [hsame]
  exact order.filterMap _

namespace Keyword

/-- The elements that akin tests select are related one by one. -/
theorem select_akin {α β : Type} {R : α → β → Prop} {test : α → Except Fault Bool}
    {test' : β → Except Fault Bool} {as chosen : List α} {bs chosen' : List β}
    (h : List.Forall₂ R as bs)
    (same : ∀ a b, R a b → ∀ c c', test a = .ok c → test' b = .ok c' → c = c')
    (hsel : select test as = .ok chosen) (hsel' : select test' bs = .ok chosen') :
    List.Forall₂ R chosen chosen' := by
  induction h generalizing chosen chosen' with
  | nil =>
    cases hsel
    cases hsel'
    exact .nil
  | cons hfirst _ ih =>
    obtain ⟨c, others, hc, hothers, rfl⟩ := select_cons hsel
    obtain ⟨c', others', hc', hothers', rfl⟩ := select_cons hsel'
    cases same _ _ hfirst c c' hc hc'
    cases c with
    | true => exact .cons hfirst (ih hothers hothers')
    | false => exact ih hothers hothers'

/-- Akin objects have the same keys. -/
theorem keys_perm {R : Json → Json → Prop} {ms mid ns : Members} (hmembers : Pairs R ms mid)
    (horder : mid.Perm ns) : (ms.map Prod.fst).Perm (ns.map Prod.fst) := by
  have hkeys : ms.map Prod.fst = mid.map Prod.fst := by
    clear horder
    induction hmembers with
    | nil => rfl
    | cons hfirst _ ih => rw [List.map_cons, List.map_cons, hfirst.1, ih]
  rw [hkeys]
  exact horder.map _

/-- Which keys are extra does not depend on the order of the keys. -/
theorem extraKeys_perm {declared declared' patterns extras extras' : List String} {ms ns : Members}
    (hdeclared : declared.Perm declared') (hkeys : (ms.map Prod.fst).Perm (ns.map Prod.fst))
    (h : extraKeys declared patterns ms = .ok extras)
    (h' : extraKeys declared' patterns ns = .ok extras') : extras.Perm extras' := by
  have hcontains : ∀ key, declared'.contains key = declared.contains key := by
    intro key
    rw [Bool.eq_iff_iff, List.contains_iff_mem, List.contains_iff_mem, hdeclared.mem_iff]
  unfold extraKeys at h h'
  simp only [hcontains] at h'
  rw [select_eq_filter h, select_eq_filter h']
  exact hkeys.filter _

theorem acceptsAny_eq {accepts accepts' : Json → Except Fault Bool} {xs ys : List Json} {b b' : Bool}
    (h : List.Forall₂ Akin xs ys)
    (same : ∀ x y, x.Akin y → ∀ c c', accepts x = .ok c → accepts' y = .ok c' → c = c')
    (hb : acceptsAny accepts xs = .ok b) (hb' : acceptsAny accepts' ys = .ok b') : b = b' := by
  induction h with
  | nil =>
    cases hb
    cases hb'
    rfl
  | cons hfirst _ ih =>
    rw [acceptsAny] at hb hb'
    obtain ⟨c, hc, hb⟩ := bind_eq_ok.mp hb
    obtain ⟨c', hc', hb'⟩ := bind_eq_ok.mp hb'
    cases same _ _ hfirst c c' hc hc'
    cases c with
    | true =>
      cases hb
      cases hb'
      rfl
    | false => exact ih hb hb'

/-! ### What is asked of one kind of value -/

/-- What is asked of objects only. -/
theorem within_objects {f f' : Members → Outcome}
    (each : ∀ {ms mid ns : Members}, (Json.obj ms).Akin (.obj ns) → Pairs Akin ms mid → mid.Perm ns →
      (f ms).Within V V' (f' ns)) : v.Akin v' →
    (match v with | .obj ms => f ms | _ => clean).Within V V' (match v' with | .obj ns => f' ns | _ => clean) := by
  intro hv
  cases hv.view with
  | @flat v _ hobj =>
    cases v with
    | obj ms => exact absurd rfl (hobj ms)
    | null | bool | num | str | arr => exact within_of_nil rfl
  | arr => exact within_of_nil rfl
  | obj hmembers horder _ => exact each hv hmembers horder

/-- What is asked of arrays only. -/
theorem within_arrays {f f' : List Json → Outcome}
    (each : ∀ {xs ys : List Json}, List.Forall₂ Akin xs ys → (f xs).Within V V' (f' ys)) : v.Akin v' →
    (match v with | .arr xs => f xs | _ => clean).Within V V' (match v' with | .arr ys => f' ys | _ => clean) := by
  intro hv
  cases hv.view with
  | @flat v harr _ =>
    cases v with
    | arr xs => exact absurd rfl (harr xs)
    | null | bool | num | str | obj => exact within_of_nil rfl
  | arr hitems => exact each hitems
  | obj => exact within_of_nil rfl

/-- What is asked of numbers only: akin numbers are equal. -/
theorem within_numbers {f f' : Number → Outcome} (each : ∀ n, (f n).Within V V' (f' n)) : v.Akin v' →
    (match v with | .num n => f n | _ => clean).Within V V' (match v' with | .num n => f' n | _ => clean) := by
  intro hv
  cases hv.view with
  | @flat v _ _ =>
    cases v with
    | num n => exact each n
    | null | bool | str | arr | obj => exact within_of_nil rfl
  | arr | obj => exact within_of_nil rfl

/-- What is asked of strings only: akin strings are equal. -/
theorem within_strings {f f' : String → Outcome} (each : ∀ s, (f s).Within V V' (f' s)) : v.Akin v' →
    (match v with | .str s => f s | _ => clean).Within V V' (match v' with | .str s => f' s | _ => clean) := by
  intro hv
  cases hv.view with
  | @flat v _ _ =>
    cases v with
    | str s => exact each s
    | null | bool | num | arr | obj => exact within_of_nil rfl
  | arr | obj => exact within_of_nil rfl

/-- What is asked of a member that may be absent. -/
theorem within_member {f f' : Json → Outcome} {x? y? : Option Json}
    (each : ∀ {x y}, x.Akin y → (f x).Within V V' (f' y)) : Option.Rel Akin x? y? →
    (match x? with | some x => f x | none => clean).Within V V' (match y? with | some y => f' y | none => clean) := by
  intro h
  cases h with
  | none => exact within_of_nil rfl
  | some hakin => exact each hakin

/-- What a schema says about what is left over: an object judges it, and `false` allows none of it. -/
theorem within_leftover {o o' r r' : Outcome} (judged : o.Within V V' o') (refused : r.Within V V' r') :
    s.Akin s' → (match s with | .obj _ => o | .bool false => r | _ => clean).Within V V'
      (match s' with | .obj _ => o' | .bool false => r' | _ => clean) := by
  intro hs
  cases hs.view with
  | @flat s _ hobj =>
    cases s with
    | obj ps => exact absurd rfl (hobj ps)
    | bool b =>
      cases b with
      | true => exact within_of_nil rfl
      | false => exact refused
    | null | num | str | arr => exact within_of_nil rfl
  | arr => exact within_of_nil rfl
  | obj => exact judged

/-! ### Branches and items, one after another -/

variable (alike : Judge.Alike V V' sub sub')

include alike

theorem firstAccepting_rel {bs bs' : List Json} {r r' : Option (Json × List Json)}
    (hbs : List.Forall₂ (JsonMend.Kin V V' base base') bs bs') (hv : v.Akin v')
    (hr : firstAccepting sub base v bs = .ok r) (hr' : firstAccepting sub' base' v' bs' = .ok r') :
    Option.Rel (fun p p' => List.Forall₂ (JsonMend.Kin V V' base base') p.2 p'.2) r r' := by
  induction hbs with
  | nil =>
    cases hr
    cases hr'
    exact .none
  | cons hfirst hrest ih =>
    rw [firstAccepting] at hr hr'
    obtain ⟨c, hc, hr⟩ := bind_eq_ok.mp hr
    obtain ⟨c', hc', hr'⟩ := bind_eq_ok.mp hr'
    cases acceptsAfterAll_eq (alike.descend hfirst hv [] []) (alike.symm.descend hfirst.symm hv.symm [] [])
      hc hc'
    cases c with
    | true =>
      cases hr
      cases hr'
      exact .some hrest
    | false => exact ih hr hr'

theorem overItems_within {xs ys : List Json} (start : Nat) (hxs : List.Forall₂ Akin xs ys)
    (hkin : JsonMend.Kin V V' base base' s s') :
    (overItems (fun i x => sub.descend base s [.index i] [] x) start xs).Within V V'
      (overItems (fun i x => sub'.descend base' s' [.index i] [] x) start ys) := by
  unfold overItems
  induction hxs generalizing start with
  | nil => exact within_of_nil rfl
  | cons hfirst _ ih =>
    rw [List.zipIdx_cons, List.zipIdx_cons, List.map_cons, List.map_cons]
    exact (alike.descend hkin hfirst _ _).append (ih (start + 1))

/-! ### Keywords of objects -/

theorem properties_within {ps mid qs : Members} (hps : Pairs (JsonMend.Kin V V' base base') ps mid)
    (horder : mid.Perm qs) (hv : v.Akin v') :
    ((Keyword.properties ps).judge V sub base v).Within V V' ((Keyword.properties qs).judge V' sub' base' v') := by
  refine within_objects (fun hobj _ _ => .concat_map hps horder fun p q hpq => ?_) hv
  obtain ⟨name, s⟩ := p
  obtain ⟨name', s'⟩ := q
  obtain ⟨rfl, hs⟩ := hpq
  exact within_member (alike.descend hs · _ _) (hobj.lookup name)

theorem patternProperties_within (hregistry : V.registry = V'.registry) (huri : base = base') (ps : Members)
    (hv : v.Akin v') : ((Keyword.patternProperties ps).judge V sub base v).Within V V'
      ((Keyword.patternProperties ps).judge V' sub' base' v') := by
  refine within_objects (fun _ hmembers horder => ?_) hv
  refine .concat_map (List.forall₂_same.mpr fun _ _ => rfl) (.refl ps) fun p _ heq => ?_
  subst heq
  refine .concat_map hmembers horder fun m n hmn => ?_
  dsimp only
  rw [← hmn.1]
  refine .ofExcept fun a b ha hb => ?_
  cases ha.symm.trans hb
  cases a with
  | true => exact alike.descend (.same hregistry huri) hmn.2 _ _
  | false => exact within_of_nil rfl

theorem additionalProperties_within {declared declared' patterns : List String} (hdeclared : declared.Perm declared')
    (hs : JsonMend.Kin V V' base base' s s') (hv : v.Akin v') :
    ((Keyword.additionalProperties declared patterns s).judge V sub base v).Within V V'
      ((Keyword.additionalProperties declared' patterns s').judge V' sub' base' v') := by
  refine within_objects (fun hobj hmembers horder => .ofExcept fun extras extras' hextras hextras' => ?_) hv
  have hperm := extraKeys_perm hdeclared (keys_perm hmembers horder) hextras hextras'
  refine within_leftover ?_ (within_require hperm.isEmpty_eq (.undeclared hdeclared) hv) hs.akin
  refine .concat_map (List.forall₂_same.mpr fun _ _ => rfl) hperm fun key _ heq => ?_
  subst heq
  exact within_member (alike.descend hs · _ _) (hobj.lookup key)

theorem dependencies_within {es mid fs : List (String × Dependency)}
    (hes : List.Forall₂ (fun e f => e.1 = f.1 ∧ Dependency.Kin V V' base base' e.2 f.2) es mid)
    (horder : mid.Perm fs) (hv : v.Akin v') : ((Keyword.dependencies es).judge V sub base v).Within V V'
      ((Keyword.dependencies fs).judge V' sub' base' v') := by
  refine within_objects (fun hobj _ _ => .concat_map hes horder fun e f hef => ?_) hv
  obtain ⟨property, d⟩ := e
  obtain ⟨property', d'⟩ := f
  obtain ⟨rfl, hd⟩ := hef
  dsimp only
  rw [hobj.hasKey_eq property]
  split
  · cases hd with
    | properties names =>
      refine .concat_map (List.forall₂_same.mpr fun _ _ => rfl) (.refl names) fun name _ heq => ?_
      subst heq
      exact within_require (hobj.hasKey_eq name) (.missingDependency (listed_perm hes horder)) hv
    | schema hs => exact alike.descend hs hv _ _
  · exact within_of_nil rfl

/-! ### Keywords of arrays -/

theorem itemsInTurn_within {ss ss' : List Json} (hss : List.Forall₂ (JsonMend.Kin V V' base base') ss ss')
    (hv : v.Akin v') : ((Keyword.itemsInTurn ss).judge V sub base v).Within V V'
      ((Keyword.itemsInTurn ss').judge V' sub' base' v') := by
  refine within_arrays (fun hxs => .concat_map (zipIdx_rel 0 (zip_rel hxs hss)) (.refl _) fun p q hpq => ?_) hv
  obtain ⟨⟨x, s⟩, i⟩ := p
  obtain ⟨⟨y, s'⟩, i'⟩ := q
  obtain ⟨⟨hx, hs⟩, rfl⟩ := hpq
  exact alike.descend hs hx _ _

theorem additionalItems_within (covered : Option Nat) (hs : JsonMend.Kin V V' base base' s s') (hv : v.Akin v') :
    ((Keyword.additionalItems covered s).judge V sub base v).Within V V'
      ((Keyword.additionalItems covered s').judge V' sub' base' v') := by
  cases covered with
  | none => exact within_of_nil (by cases v <;> rfl)
  | some n =>
    -- the value and the number are matched together, so this is not a case of `within_arrays`
    cases hv.view with
    | @flat v harr _ =>
      cases v with
      | arr xs => exact absurd rfl (harr xs)
      | null | bool | num | str | obj => exact within_of_nil rfl
    | arr hxs =>
      have hdrop := List.forall₂_drop n hxs
      exact within_leftover (overItems_within alike n hdrop hs)
        (within_require (isEmpty_eq_of_forall₂ hdrop) .surplusItems hv) hs.akin
    | obj => exact within_of_nil rfl

theorem contains_within (hs : JsonMend.Kin V V' base base' s s') (hv : v.Akin v') :
    ((Keyword.contains s).judge V sub base v).Within V V' ((Keyword.contains s').judge V' sub' base' v') := by
  refine within_arrays (fun hxs => .ofExcept fun b b' hb hb' => ?_) hv
  have heq := acceptsAny_eq hxs (fun x y hx _ _ hc hc' => alike.accepts_eq hs hx hc hc') hb hb'
  exact within_require heq (.same (by simp)) hv

/-! ### Keywords that combine schemas -/

theorem allOf_within {ss ss' : List Json} (hss : List.Forall₂ (JsonMend.Kin V V' base base') ss ss')
    (hv : v.Akin v') :
    ((Keyword.allOf ss).judge V sub base v).Within V V' ((Keyword.allOf ss').judge V' sub' base' v') := by
  refine .concat_map (zipIdx_rel 0 hss) (.refl _) fun p q hpq => ?_
  obtain ⟨s, i⟩ := p
  obtain ⟨s', i'⟩ := q
  obtain ⟨hs, rfl⟩ := hpq
  exact alike.descend hs hv _ _

theorem oneOf_within {ss ss' : List Json} (hss : List.Forall₂ (JsonMend.Kin V V' base base') ss ss')
    (hv : v.Akin v') :
    ((Keyword.oneOf ss).judge V sub base v).Within V V' ((Keyword.oneOf ss').judge V' sub' base' v') := by
  refine .ofExcept fun r r' hr hr' => ?_
  cases firstAccepting_rel alike hss hv hr hr' with
  | none =>
    rw [isEmpty_eq_of_forall₂ hss]
    exact within_complain (.same (by split <;> simp)) hv
  | some hrest =>
    refine .ofExcept fun more more' hmore hmore' => ?_
    have hselected := select_akin hrest
      (fun _ _ hs _ _ hc hc' => alike.accepts_eq hs hv hc hc') hmore hmore'
    exact within_require (isEmpty_eq_of_forall₂ hselected)
      (.severalOfOne (hss.imp fun _ _ hs => hs.atRoot)) hv

theorem conditional_within {test test' : Json} {met met' unmet unmet' : Option Json}
    (htest : JsonMend.Kin V V' base base' test test')
    (hmet : Option.Rel (JsonMend.Kin V V' base base') met met')
    (hunmet : Option.Rel (JsonMend.Kin V V' base base') unmet unmet') (hv : v.Akin v') :
    ((Keyword.conditional test met unmet).judge V sub base v).Within V V'
      ((Keyword.conditional test' met' unmet').judge V' sub' base' v') := by
  refine .ofExcept fun b b' hb hb' => ?_
  cases alike.accepts_eq htest hv hb hb'
  cases b with
  | true =>
    cases hmet with
    | none => exact within_of_nil (by cases hunmet <;> rfl)
    | some hs => cases hunmet <;> exact alike.descend hs hv _ _
  | false =>
    cases hunmet with
    | none => exact within_of_nil (by cases hmet <;> rfl)
    | some hs => cases hmet <;> exact alike.descend hs hv _ _

/-! ### All keywords -/

/-- **Kin keywords find the same in akin values.** -/
theorem judge_within {k k' : Keyword} (formats : V.checkFormats = V'.checkFormats)
    (kin : Keyword.Kin V V' base base' k k') (hv : v.Akin v') :
    (k.judge V sub base v).Within V V' (k'.judge V' sub' base' v') := by
  cases kin with
  | reference hregistry huri target =>
    subst huri
    simp only [judge, hregistry]
    refine .ofExcept fun a b ha hb => ?_
    cases ha.symm.trans hb
    exact alike.within (.same hregistry rfl) hv
  | type names =>
    exact within_require (by rw [hv.isOfTypeNamed_eq]) (.same (by simp)) hv
  | enum hvalues =>
    exact within_require (any_congr_of_forall₂ hvalues fun _ _ hx => same_congr hx hv)
      (.notInEnum hvalues) hv
  | const hvalue => exact within_require (same_congr hv hvalue) (.notConst hvalue) hv
  | bound side limit => exact within_numbers (fun n => within_require rfl (.same (by simp)) hv) hv
  | multipleOf divisor =>
    refine within_numbers (fun n => ?_) hv
    cases n.isMultipleOf divisor with
    | ok isMultiple => exact within_require rfl (.same (by simp)) hv
    | error fault => exact within_of_nil rfl
  | count side what limit =>
    simp only [judge, ← hv.count?_eq what]
    cases v.count? what with
    | none => exact within_of_nil rfl
    | some n => exact within_require rfl (.same (by simp)) hv
  | uniqueItems wanted =>
    refine within_arrays (fun hitems => ?_) hv
    exact within_require (by rw [Unique.holds_congr hitems]) (.same (by simp)) hv
  | pattern regex =>
    refine within_strings (fun s => .ofExcept fun a b ha hb => ?_) hv
    cases ha.symm.trans hb
    exact within_require rfl (.same (by simp)) hv
  | format name =>
    have hholds : Format.holds name v = Format.holds name v' := by
      cases hv.view <;> rfl
    simp only [judge, formats, hholds]
    split
    · cases Format.holds name v' with
      | ok met => exact within_require rfl (.same (by simp)) hv
      | error error => exact within_of_nil rfl
    · exact within_of_nil rfl
  | required names =>
    refine within_objects (fun hobj _ _ => ?_) hv
    refine .concat_map (List.forall₂_same.mpr fun _ _ => rfl) (.refl names) fun name _ heq => ?_
    subst heq
    exact within_require (hobj.hasKey_eq name) (.same (by simp)) hv
  | properties hps horder => exact properties_within alike hps horder hv
  | patternProperties hregistry huri ps => exact patternProperties_within alike hregistry huri ps hv
  | propertyNames hs =>
    refine within_objects (fun _ hmembers horder => .concat_map hmembers horder fun m n hmn => ?_) hv
    dsimp only
    rw [← hmn.1]
    exact alike.descend hs (.refl _) _ _
  | additionalProperties hdeclared hs => exact additionalProperties_within alike hdeclared hs hv
  | items hs => exact within_arrays (fun hxs => overItems_within alike 0 hxs hs) hv
  | itemsInTurn hss => exact itemsInTurn_within alike hss hv
  | @additionalItems covered _ _ hs => exact additionalItems_within alike covered hs hv
  | contains hs => exact contains_within alike hs hv
  | dependencies hes horder => exact dependencies_within alike hes horder hv
  | allOf hss => exact allOf_within alike hss hv
  | anyOf hss =>
    refine .ofExcept fun r r' hr hr' => ?_
    cases firstAccepting_rel alike hss hv hr hr' with
    | none => exact within_complain (.same (by simp)) hv
    | some => exact within_of_nil rfl
  | oneOf hss => exact oneOf_within alike hss hv
  | forbid hs =>
    refine .ofExcept fun b b' hb hb' => ?_
    exact within_require (by rw [alike.accepts_eq hs hv hb hb']) .forbidden hv
  | conditional htest hmet hunmet => exact conditional_within alike htest hmet hunmet hv

end Keyword

/-! ## Schemas -/

theorem Keyword.Kin.step_eq {k k' : Keyword} (h : Keyword.Kin V V' base base' k k') : k.step = k'.step := by
  cases h <;> rfl

theorem forall₂_mem {α β : Type} {R : α → β → Prop} {as : List α} {bs : List β}
    (h : List.Forall₂ R as bs) : List.Forall₂ (fun a b => a ∈ as ∧ R a b) as bs := by
  induction h with
  | nil => exact .nil
  | cons hfirst _ ih =>
    exact .cons ⟨List.mem_cons_self, hfirst⟩ (ih.imp fun _ _ h => ⟨List.mem_cons_of_mem _ h.1, h.2⟩)

namespace Validator

variable {ms ns : Members}

/-- What two members find, whose keywords are kin wherever both can be read. -/
theorem judgeMember_within {k?₁ k?₂ : Except Fault (Option Keyword)}
    (formats : V.checkFormats = V'.checkFormats) (alike : Judge.Alike V V' sub sub') (hv : v.Akin v')
    (kin : ∀ k k?', k?₁ = .ok (some k) → k?₂ = .ok k?' →
      ∃ k', k?' = some k' ∧ Keyword.Kin V V' base base' k k') :
    (Outcome.ofExcept k?₁ fun
      | some k => (k.judge V sub base v).under [] k.step
      | none => .clean).Within V V'
    (Outcome.ofExcept k?₂ fun
      | some k => (k.judge V' sub' base' v').under [] k.step
      | none => .clean) := by
  refine .ofExcept fun k? k?' hk hk' => ?_
  cases k? with
  | none => exact within_of_nil rfl
  | some k =>
    obtain ⟨k', rfl, hkin⟩ := kin k k?' hk hk'
    dsimp only
    rw [← hkin.step_eq]
    exact (Keyword.judge_within alike formats hkin hv).under [] k.step

/-- The members of one schema find the same on both sides. -/
theorem judgeKeywords_same (formats : V.checkFormats = V'.checkFormats)
    (alike : Judge.Alike V V' sub sub') (registry : V.registry = V'.registry) (uri : base = base')
    (hv : v.Akin v') (members : Members) : (V.judgeKeywords sub base ms v members).Within V V'
      (V'.judgeKeywords sub' base' ms v' members) := by
  refine .concat_map (List.forall₂_same.mpr fun _ _ => rfl) (.refl members) fun m _ heq => ?_
  subst heq
  refine judgeMember_within formats alike hv fun k k?' hk hk' => ⟨k, ?_, .refl registry uri k⟩
  cases hk.symm.trans hk'
  rfl

/-- Twins without references and patterns find the same, member by member. -/
theorem judgeKeywords_bare (formats : V.checkFormats = V'.checkFormats)
    (alike : Judge.Alike V V' sub sub') (twins : (Json.obj ms).Twins (.obj ns))
    (bare : Bare (.obj ms)) (hv : v.Akin v') :
    (V.judgeKeywords sub base ms v (Keyword.applicable ms)).Within V V'
      (V'.judgeKeywords sub' base' ns v' (Keyword.applicable ns)) := by
  rw [applicable_of_no_reference bare.reference,
    applicable_of_no_reference (bare.of_twins twins).reference]
  obtain ⟨_, mid, heq, hpairs, horder⟩ := twins.obj_left
  cases heq
  refine .concat_map (forall₂_mem hpairs) horder fun m n hmn => ?_
  obtain ⟨name, x⟩ := m
  obtain ⟨name', y⟩ := n
  obtain ⟨hm, rfl, hxy⟩ := hmn
  refine judgeMember_within formats alike hv fun k k?' hk hk' => ?_
  exact Keyword.kin_of_read twins bare hm hxy (Keyword.read?_of_ofMember hk)
    (Keyword.read?_of_ofMember hk')

/-- **Kin schemas find the same in akin values**, where no draft is known. -/
theorem judgeWith_within (native : V.drafts = []) (native' : V'.drafts = [])
    (formats : V.checkFormats = V'.checkFormats) (rounds : Nat) (kin : Kin V V' base base' s s') (hv : v.Akin v') :
    (V.judgeWith rounds base s v).Within V V' (V'.judgeWith rounds base' s' v') := by
  induction rounds generalizing V V' base base' s s' v v' with
  | zero => exact within_of_nil rfl
  | succ rounds ih =>
    have alike : Judge.Alike V V' (V.inner rounds) (V'.inner rounds) := by
      rw [inner_of_native native, inner_of_native native']
      exact ⟨fun hkin hx => ih native native' formats hkin hx,
        fun hkin hx => ih native' native formats.symm hkin.symm hx.symm⟩
    cases kin with
    | same hregistry huri =>
      cases s with
      | obj ms =>
        rw [judgeWith_obj, judgeWith_obj]
        exact judgeKeywords_same formats alike hregistry huri hv _
      | bool b =>
        cases b with
        | true => exact within_of_nil rfl
        | false => exact within_complain (.same (by simp)) hv
      | null | num | str | arr => exact within_of_nil rfl
    | bare htwins hbare =>
      cases s with
      | obj ms =>
        obtain ⟨ns, _, rfl, -, -⟩ := htwins.obj_left
        rw [judgeWith_obj, judgeWith_obj]
        exact judgeKeywords_bare formats alike htwins hbare hv
      | bool b =>
        cases htwins.eq_of_flat (by simp) (by simp)
        cases b with
        | true => exact within_of_nil rfl
        | false => exact within_complain (.same (by simp)) hv
      | null | num | str | arr => exact within_of_nil rfl

/-- Two validators made from kin schemas, to which no draft is known. -/
structure Like (V V' : Validator) : Prop where
  native : V.drafts = []
  native' : V'.drafts = []
  formats : V.checkFormats = V'.checkFormats
  root : Kin V V' V.registry.rootUri V'.registry.rootUri V.registry.root V'.registry.root
  size : V.registry.size = V'.registry.size

namespace Like

theorem symm (h : Like V V') : Like V' V := ⟨h.native', h.native, h.formats.symm, h.root.symm, h.size.symm⟩

theorem fuelFor_eq (h : Like V V') (hv : v.Akin v') : V.fuelFor v = V'.fuelFor v' := by
  unfold fuelFor
  rw [h.size, hv.reordered.depth_eq]

theorem judge_within (h : Like V V') (hv : v.Akin v') : (V.judge v).Within V V' (V'.judge v') := by
  unfold judge
  rw [h.fuelFor_eq hv]
  exact judgeWith_within h.native h.native' h.formats _ h.root hv

end Like

end Validator

end JsonMend
