import JsonMend.Proofs.Repair.Settled
import JsonMend.Proofs.Shape.Peers
/-
  A repair does not depend on the order of members.

  Two documents that are equal up to the order of members, under schemas that are so too, are repaired
  alike: the results are equal up to the order of members, and the ledgers hold the same changes in another order.
  A pass works through members in the order in which it finds them, and records as it goes, so this is a
  statement about two runs.

  1. **Two runs** (`Changed.Mirrors`) — the second run returns wherever the first one does, with a related result
     and alike changes.  Each way of putting steps together keeps this.  The crux is a visit of members in
     another order (`filterMapM_perm`): what it puts together and what it records are only permuted.
  2. **The passes** (`prune_regular`, `coerce_regular`, `fill_regular`) — a pass under a peer mirrors the pass
     (`Shape.Regular`), by induction on the shape.
  3. **Both ways** (`mend_unordered`) — being peers and being reordered are symmetric, so each run mirrors the
     other, and if one fails then so does the other.
-/
namespace JsonMend

/-! ## Alike changes -/

/-- The same is done, to values that are equal up to the order of members. -/
structure Edit.Alike (e f : Edit) : Prop where
  action : e.action = f.action
  before : Option.Rel Json.Reordered e.before? f.before?
  after : Option.Rel Json.Reordered e.after? f.after?

/-- The same is done at the same place for the same reason. -/
structure Change.Alike (c d : Change) : Prop where
  place : c.place = d.place
  edit : c.edit.Alike d.edit
  reason : c.reason = d.reason

theorem Change.Alike.under {c d : Change} (h : c.Alike d) (step : Segment) :
    (c.under step).Alike (d.under step) :=
  ⟨congrArg (step :: ·) h.place, h.edit, h.reason⟩

/-! ## Two runs -/

namespace Changed

variable {α β γ δ : Type}

/-- The second run returns wherever the first one does, with a related result and alike changes, up to their
order. -/
def Mirrors (R : α → β → Prop) (x : Changed α) (y : Changed β) : Prop :=
  ∀ a changes, x.run = .ok (a, changes) →
    ∃ b changes', y.run = .ok (b, changes') ∧ R a b ∧ Shuffled Change.Alike changes changes'

variable {R : α → β → Prop} {S : γ → δ → Prop} {x : Changed α} {y : Changed β}

theorem Mirrors.pure {a : α} {b : β} (h : R a b) : Mirrors R (Pure.pure a) (Pure.pure b) := by
  intro a' changes hrun
  obtain ⟨rfl, rfl⟩ := run_pure_eq_ok.mp hrun
  exact ⟨b, [], rfl, h, .nil⟩

theorem Mirrors.bind {f : α → Changed γ} {g : β → Changed δ} (h : Mirrors R x y)
    (step : ∀ a b, R a b → Mirrors S (f a) (g b)) : Mirrors S (x >>= f) (y >>= g) := by
  intro c changes hrun
  obtain ⟨a, earlier, later, hx, hf, rfl⟩ := run_bind_eq_ok.mp hrun
  obtain ⟨b, earlier', hy, hab, hearlier⟩ := h a earlier hx
  obtain ⟨d, later', hg, hcd, hlater⟩ := step a b hab c later hf
  exact ⟨d, earlier' ++ later', run_bind_eq_ok.mpr ⟨b, earlier', later', hy, hg, rfl⟩, hcd,
    hearlier.append hlater⟩

/-- Results that are only reshaped. -/
theorem Mirrors.reshape {f : α → γ} {g : β → δ} (h : Mirrors R x y)
    (step : ∀ a b, R a b → S (f a) (g b)) :
    Mirrors S (x >>= fun a => Pure.pure (f a)) (y >>= fun b => Pure.pure (g b)) :=
  h.bind fun a b hab => .pure (step a b hab)

theorem Mirrors.record {e f : Edit} {reason : String} (h : e.Alike f) :
    Mirrors (fun _ _ => True) (record e reason) (record f reason) := by
  rintro _ _ ⟨⟩
  exact ⟨(), _, rfl, trivial, .singleton ⟨rfl, h, rfl⟩⟩

/-- A change is recorded, and a value is put in. -/
theorem Mirrors.recorded {e f : Edit} {reason : String} {a : α} {b : β} (h : e.Alike f) (hab : R a b) :
    Mirrors R (Changed.record e reason >>= fun _ => Pure.pure a)
      (Changed.record f reason >>= fun _ => Pure.pure b) :=
  (Mirrors.record h).bind fun _ _ _ => .pure hab

theorem Mirrors.ofExcept {z : Except Fault α} {R : α → α → Prop} (refl : ∀ a, R a a) :
    Mirrors R (ofExcept z) (ofExcept z) := by
  intro a changes hrun
  obtain ⟨rfl, rfl⟩ := run_ofExcept_eq_ok.mp hrun
  exact ⟨a, [], rfl, refl a, .nil⟩

theorem Mirrors.under (h : Mirrors R x y) (step : Segment) : Mirrors R (under step x) (under step y) := by
  intro a changes hrun
  obtain ⟨inner, hx, rfl⟩ := run_under_eq_ok.mp hrun
  obtain ⟨b, inner', hy, hab, hinner⟩ := h a inner hx
  exact ⟨b, _, run_under_eq_ok.mpr ⟨inner', hy, rfl⟩, hab, hinner.map fun _ _ hcd => hcd.under step⟩

theorem Mirrors.items {P Q : Json → Json → Prop} {step step' : Json → Changed Json} {i : Nat}
    {xs ys : List Json} (h : List.Forall₂ P xs ys)
    (each : ∀ x y, P x y → Mirrors Q (step x) (step' y)) :
    Mirrors (List.Forall₂ Q) (items step i xs) (items step' i ys) := by
  induction h generalizing i with
  | nil => exact .pure .nil
  | cons hfirst _ ih =>
    refine ((each _ _ hfirst).under _).bind fun a b hab => ?_
    exact ih.reshape fun as bs hrest => .cons hab hrest

/-! ### In another order -/

theorem run_filterMapM_cons {f : α → Changed (Option β)} {x : α} {xs : List α} {ys : List β}
    {changes : List Change} :
    ((x :: xs).filterMapM f).run = .ok (ys, changes) ↔ ∃ y? own rest later,
      (f x).run = .ok (y?, own) ∧ (xs.filterMapM f).run = .ok (rest, later) ∧
        ys = y?.toList ++ rest ∧ changes = own ++ later := by
  rw [List.filterMapM_cons, run_bind_eq_ok]
  constructor
  · rintro ⟨y?, own, later, hx, hrest, rfl⟩
    cases y? with
    | none => exact ⟨none, own, ys, later, hx, hrest, rfl, rfl⟩
    | some y =>
      obtain ⟨rest, htail, rfl⟩ := run_bind_pure_eq_ok.mp hrest
      exact ⟨some y, own, rest, later, hx, htail, rfl, rfl⟩
  · rintro ⟨y?, own, rest, later, hx, hrest, rfl, rfl⟩
    refine ⟨y?, own, later, hx, ?_, rfl⟩
    cases y? with
    | none => exact hrest
    | some y => exact run_bind_pure_eq_ok.mpr ⟨rest, hrest, rfl⟩

/-- **Steps carried out in another order** give the same results and the same changes in another order. -/
theorem filterMapM_perm {f : α → Changed (Option β)} {xs xs' : List α} (h : xs.Perm xs') {ys : List β}
    {changes : List Change} (hrun : (xs.filterMapM f).run = .ok (ys, changes)) :
    ∃ ys' changes', (xs'.filterMapM f).run = .ok (ys', changes') ∧ ys.Perm ys' ∧
      changes.Perm changes' := by
  induction h generalizing ys changes with
  | nil => exact ⟨ys, changes, hrun, .refl _, .refl _⟩
  | cons x _ ih =>
    obtain ⟨y?, own, rest, later, hx, hrest, rfl, rfl⟩ := run_filterMapM_cons.mp hrun
    obtain ⟨rest', later', hrest', hys, hchanges⟩ := ih hrest
    exact ⟨_, _, run_filterMapM_cons.mpr ⟨y?, own, rest', later', hx, hrest', rfl, rfl⟩,
      hys.append_left _, hchanges.append_left _⟩
  | swap x x' _ =>
    obtain ⟨y'?, own', _, _, hx', htail, rfl, rfl⟩ := run_filterMapM_cons.mp hrun
    obtain ⟨y?, own, rest, later, hx, hrest, rfl, rfl⟩ := run_filterMapM_cons.mp htail
    have htail' := run_filterMapM_cons.mpr ⟨y'?, own', rest, later, hx', hrest, rfl, rfl⟩
    exact ⟨_, _, run_filterMapM_cons.mpr ⟨y?, own, _, _, hx, htail', rfl, rfl⟩,
      List.perm_append_comm_assoc .., List.perm_append_comm_assoc ..⟩
  | trans _ _ ih ih' =>
    obtain ⟨_, _, hmid, hys, hchanges⟩ := ih hrun
    obtain ⟨ys', changes', hrun', hys', hchanges'⟩ := ih' hmid
    exact ⟨ys', changes', hrun', hys.trans hys', hchanges.trans hchanges'⟩

theorem Mirrors.filterMapM {P : α → γ → Prop} {Q : β → δ → Prop} {f : α → Changed (Option β)}
    {g : γ → Changed (Option δ)} {xs : List α} {ys : List γ} (h : Shuffled P xs ys)
    (each : ∀ x y, P x y → Mirrors (Option.Rel Q) (f x) (g y)) :
    Mirrors (Shuffled Q) (xs.filterMapM f) (ys.filterMapM g) := by
  obtain ⟨mid, hpairs, hperm⟩ := h
  -- first in the same order, then in the other one
  have haligned : Mirrors (List.Forall₂ Q) (xs.filterMapM f) (mid.filterMapM g) := by
    clear hperm
    induction hpairs with
    | nil => exact .pure .nil
    | cons hfirst _ ih =>
      rw [List.filterMapM_cons, List.filterMapM_cons]
      refine (each _ _ hfirst).bind fun a? b? hab => ?_
      cases hab with
      | none => exact ih
      | some hab => exact ih.reshape fun as bs hrest => .cons hab hrest
  intro as changes hrun
  obtain ⟨bs, changes', hrun', hbs, hchanges, hcs, horder⟩ := haligned as changes hrun
  obtain ⟨bs', later, hlast, hbs', hlater⟩ := filterMapM_perm hperm hrun'
  exact ⟨bs', later, hlast, ⟨bs, hbs, hbs'⟩, hchanges, hcs, horder.trans hlater⟩

/-- A step on a member, with its key. -/
def keyed (step : String → Json → Changed (Option Json)) (m : String × Json) :
    Changed (Option (String × Json)) :=
  under (.key m.1) (step m.1 m.2 >>= fun y? => pure (y?.map fun y => (m.1, y)))

theorem under_bind_pure {step : Segment} {f : α → β} :
    under step (x >>= fun a => pure (f a)) = under step x >>= fun a => pure (f a) := by
  cases x with
  | error fault => rfl
  | ok result =>
    show Except.ok _ = Except.ok _
    simp

theorem members_eq_filterMapM (step : String → Json → Changed (Option Json)) (ms : Members) :
    members step ms = ms.filterMapM (keyed step) := by
  induction ms with
  | nil => rfl
  | cons m ms ih =>
    obtain ⟨key, x⟩ := m
    rw [members, List.filterMapM_cons, keyed, under_bind_pure, bind_assoc, ih]
    congr 1
    funext y?
    rw [pure_bind]
    cases y? with
    | none => exact bind_pure _
    | some y => rfl

theorem Mirrors.members {step step' : String → Json → Changed (Option Json)} {ms ns : Members}
    (h : Shuffled Json.SameMember ms ns)
    (each : ∀ key x y, x.Reordered y → Mirrors (Option.Rel Json.Reordered) (step key x) (step' key y)) :
    Mirrors (Shuffled Json.SameMember) (members step ms) (members step' ns) := by
  rw [members_eq_filterMapM, members_eq_filterMapM]
  refine Mirrors.filterMapM h ?_
  rintro ⟨key, x⟩ ⟨key', y⟩ ⟨rfl, hxy⟩
  refine ((each key x y hxy).reshape ?_).under _
  intro a? b? hab
  cases hab with
  | none => exact .none
  | some hab => exact .some ⟨rfl, hab⟩

end Changed

open Changed Shape Json

variable {s t : Shape} {v w : Json}

/-! ## The passes -/

/-- A pass does alike under all peers of a shape. -/
def Shape.Regular (pass : Shape → Json → Changed Json) (s : Shape) : Prop :=
  ∀ t v w, Peers s t → v.Reordered w → Mirrors Reordered (pass s v) (pass t w)

namespace Shape.Peers

variable {pass : Shape → Json → Changed Json} {member member' : String → Json → Changed (Option Json)}

theorem admits_eq (h : Peers s t) (hv : v.Reordered w) : s.admits v = t.admits w := by
  rw [admits_congr hv.isOfType_eq, admits, admits, h.view.types]

/-- A pass that does alike under the shapes one step below does so on each member. -/
theorem visit_mirrors {key : String} {x y : Json} (h : Peers s t) (noPattern : s.patterns = [])
    (below : ∀ step sub, s.child step = .ok (some sub) → sub.Regular pass) (hxy : x.Reordered y) :
    Mirrors Reordered (s.visit pass key x) (t.visit pass key y) := by
  obtain ⟨sub?, sub?', hs, ht, hrel⟩ := h.child noPattern (.key key)
  unfold visit
  simp only [ht]
  split
  · rename_i hchild
    rw [hs] at hchild
    cases hchild
  · rename_i hchild
    rw [hs] at hchild
    cases hchild
    cases hrel
    exact .pure hxy
  · rename_i sub hchild
    rw [hs] at hchild
    cases hchild
    cases hrel with
    | some hpeers => exact below _ sub hs _ _ _ hpeers hxy

theorem visitKept_mirrors {key : String} {x y : Json} (h : Peers s t) (noPattern : s.patterns = [])
    (below : ∀ step sub, s.child step = .ok (some sub) → sub.Regular pass) (hxy : x.Reordered y) :
    Mirrors (Option.Rel Reordered) (s.visitKept pass key x) (t.visitKept pass key y) :=
  (h.visit_mirrors noPattern below hxy).reshape fun _ _ => .some

/-- A pass that does alike on each part does so on all of them. -/
theorem visitParts_mirrors (h : Peers s t)
    (each : ∀ key x y, x.Reordered y → Mirrors (Option.Rel Reordered) (member key x) (member' key y))
    (below : ∀ step sub, s.child step = .ok (some sub) → sub.Regular pass) (hv : v.Reordered w) :
    Mirrors Reordered (s.visitParts member pass v) (t.visitParts member' pass w) := by
  cases hv.view with
  | flat harr hobj =>
    cases v with
    | arr xs => exact absurd rfl (harr xs)
    | obj ms => exact absurd rfl (hobj ms)
    | null | bool | num | str => exact .pure hv
  | obj hmembers =>
    rw [visitParts, visitParts, h.isObject_eq]
    split
    · exact (Mirrors.members hmembers each).reshape fun _ _ => .obj_of_shuffled
    · exact .pure hv
  | arr hitems =>
    rw [visitParts, visitParts]
    have hrel := h.view.items
    have hregular : ∀ sub, s.items = some sub → sub.Regular pass :=
      fun sub hsub => below _ sub (child_of_items hsub 0)
    generalize s.items = x?, t.items = y? at hrel hregular
    cases hrel with
    | none => exact .pure hv
    | some hpeers =>
      refine (Mirrors.items hitems fun x y hxy => ?_).reshape fun _ _ => .items
      exact hregular _ rfl _ _ _ hpeers hxy

end Shape.Peers

/-! ### Pruning -/

theorem Shape.Peers.forbids_eq (h : Peers s t) (noPattern : s.patterns = []) (key : String) :
    Prune.forbids s key = Prune.forbids t key := by
  have hlookup := h.view.lookup key
  unfold Prune.forbids Prune.isStrict declares
  rw [h.view.closed, h.namesKeys_eq, noPattern, h.noPattern noPattern, hasKey, hasKey]
  generalize s.properties.lookup key = x?, t.properties.lookup key = y? at hlookup
  cases hlookup <;> rfl

theorem prune_regular (noPattern : s.Everywhere (·.patterns = [])) : s.Regular prune := by
  induction s using Shape.parts_induction with
  | parts s hchild hproperty =>
    intro t v w hpeers hv
    have below : ∀ step sub, s.child step = .ok (some sub) → sub.Regular prune :=
      fun step sub hsub => hchild step sub hsub (noPattern.child hsub)
    rw [prune_eq, prune_eq]
    refine hpeers.visitParts_mirrors (fun key x y hxy => ?_) below hv
    show Mirrors _ (ofExcept (Prune.forbids s key) >>= _) (ofExcept (Prune.forbids t key) >>= _)
    rw [hpeers.forbids_eq noPattern.here]
    refine (Mirrors.ofExcept (R := Eq) fun _ => rfl).bind ?_
    rintro forbidden _ rfl
    cases forbidden with
    | true =>
      exact .recorded ⟨rfl, .some hxy, .none⟩ .none
    | false => exact (hpeers.visit_mirrors noPattern.here below hxy).reshape fun _ _ => .some

/-! ### Coercing -/

namespace Coerce

theorem firstSuccess_congr (h : v.Reordered w) (names : List String) :
    firstSuccess v names = firstSuccess w names := by
  cases hscalar : v.isScalar with
  | true => rw [h.eq_of_scalar hscalar]
  | false =>
    rw [firstSuccess_of_not_scalar hscalar, firstSuccess_of_not_scalar]
    rw [← h.isScalar_eq, hscalar]

theorem ownType?_mirrors (h : Peers s t) (hv : v.Reordered w) :
    Mirrors (Option.Rel Reordered) (ownType? s v) (ownType? t w) := by
  unfold ownType?
  rw [h.admits_eq hv, h.view.types, firstSuccess_congr hv]
  split
  · exact .pure (.some hv)
  · refine (Mirrors.ofExcept (R := Eq) fun _ => rfl).bind ?_
    rintro found? _ rfl
    cases found? with
    | none => exact .pure .none
    | some found =>
      obtain ⟨target, own⟩ := found
      dsimp only
      rw [reason, reason, hv.kindName_eq]
      exact .recorded ⟨rfl, .some hv, .some (.refl own)⟩ (.some (.refl own))

end Coerce

theorem coerce_regular (noPattern : s.Everywhere (·.patterns = [])) : s.Regular coerce := by
  induction s using Shape.parts_induction with
  | parts s hchild hproperty =>
    intro t v w hpeers hv
    have below : ∀ step sub, s.child step = .ok (some sub) → sub.Regular coerce :=
      fun step sub hsub => hchild step sub hsub (noPattern.child hsub)
    rw [coerce_eq, coerce_eq]
    refine (Coerce.ownType?_mirrors hpeers hv).bind fun own? own?' hown => ?_
    cases hown with
    | none => exact .pure hv
    | some hown =>
      exact hpeers.visitParts_mirrors
        (fun key x y hxy => hpeers.visitKept_mirrors noPattern.here below hxy) below hown

/-! ### Filling in defaults -/

namespace Defaults

theorem enters_eq (h : Peers s t) (hv : v.Reordered w) : enters s v = enters t w := by
  cases hv.view with
  | flat harr hobj =>
    cases v with
    | arr xs => exact absurd rfl (harr xs)
    | obj ms => exact absurd rfl (hobj ms)
    | null | bool | num | str => rfl
  | arr => exact h.isArray_eq
  | obj => exact h.isObject_eq

theorem settle_mirrors (h : Peers s t) (hv : v.Reordered w) :
    Mirrors Reordered (settle s v) (settle t w) := by
  have hfallback := h.view.fallback
  unfold settle
  rw [enters_eq h hv, h.admits_eq hv, h.isObject_eq, h.isArray_eq, h.namesKeys_eq]
  generalize s.fallback = d?, t.fallback = e? at hfallback
  split
  · exact .pure hv
  · split
    · cases hfallback with
      | none =>
        dsimp only
        split
        · exact .recorded ⟨rfl, .some hv, .some (.refl _)⟩ (.refl _)
        · exact .pure hv
      | some hde =>
        exact .recorded ⟨rfl, .some hv, .some hde⟩ hde
    · split
      · cases hfallback with
        | none => exact .pure hv
        | some hde =>
          exact .recorded ⟨rfl, .some hv, .some hde⟩ hde
      · exact .pure hv

theorem gapFiller?_mirrors (h : Peers s t) (isRequired : Bool) :
    Mirrors (Option.Rel Reordered) (gapFiller? isRequired s) (gapFiller? isRequired t) := by
  have hfallback := h.view.fallback
  unfold gapFiller? supply?
  rw [h.view.types]
  generalize s.fallback = d?, t.fallback = e? at hfallback
  cases hfallback with
  | some hde => exact .recorded ⟨rfl, .none, .some hde⟩ (.some hde)
  | none =>
    simp only [Option.isSome_none, Bool.false_eq_true, if_false]
    have hempty : ∀ v : Json, Option.Rel Reordered (some v) (some v) := fun v => .some (.refl v)
    split
    · exact .pure .none
    · split
      · exact .recorded ⟨rfl, .none, .some (.refl _)⟩ (hempty _)
      · split
        · exact .recorded ⟨rfl, .none, .some (.refl _)⟩ (hempty _)
        · exact .pure .none

/-- The missing properties of an object are those of a reordered one, up to their order. -/
theorem missing_shuffled {ms ns : Members} (h : Peers s t) (hms : Shuffled SameMember ms ns) :
    Shuffled PeersNamed (missing s ms) (missing t ns) := by
  refine h.view.properties.filter ?_
  rintro ⟨name, sub⟩ ⟨name', sub'⟩ ⟨rfl, -⟩
  dsimp only
  rw [hasKey_eq_of_shuffled hms]

theorem fillGap_mirrors {p q : String × Shape} (h : Peers s t) (hpq : PeersNamed p q)
    (below : p.2.Regular fill) : Mirrors (Option.Rel SameMember) (fillGap s p) (fillGap t q) := by
  obtain ⟨name, sub⟩ := p
  obtain ⟨name', sub'⟩ := q
  obtain ⟨rfl, hpeers⟩ := hpq
  unfold fillGap
  rw [h.view.required]
  refine Mirrors.under ?_ _
  refine (gapFiller?_mirrors hpeers _).bind fun own? own?' hown => ?_
  cases hown with
  | none => exact .pure .none
  | some hown => exact (below _ _ _ hpeers hown).reshape fun _ _ hxy => .some ⟨rfl, hxy⟩

end Defaults

theorem applyDefaults_regular (h : s.Regular fill) : s.Regular applyDefaults := by
  intro t v w hpeers hv
  exact (Defaults.settle_mirrors hpeers hv).bind fun own own' hown => h t own own' hpeers hown

theorem fill_regular (noPattern : s.Everywhere (·.patterns = [])) : s.Regular fill := by
  induction s using Shape.parts_induction with
  | parts s hchild hproperty =>
    intro t v w hpeers hv
    have below : ∀ step sub, s.child step = .ok (some sub) → sub.Regular applyDefaults :=
      fun step sub hsub => applyDefaults_regular (hchild step sub hsub (noPattern.child hsub))
    have each : ∀ key x y, x.Reordered y →
        Mirrors (Option.Rel Reordered) (s.visitKept applyDefaults key x) (t.visitKept applyDefaults key y) :=
      fun key x y hxy => hpeers.visitKept_mirrors noPattern.here below hxy
    cases hv.view with
    | flat harr hobj =>
      rw [fill_flat harr hobj, fill_flat harr hobj]
      exact .pure hv
    | arr hitems =>
      rw [fill_arr, fill_arr]
      exact hpeers.visitParts_mirrors each below hv
    | @obj ms ns hmembers =>
      have hgaps : Mirrors (Shuffled SameMember) ((Defaults.missing s ms).filterMapM (Defaults.fillGap s))
          ((Defaults.missing t ns).filterMapM (Defaults.fillGap t)) := by
        refine Mirrors.filterMapM (Defaults.missing_shuffled hpeers hmembers).and_mem ?_
        rintro p q ⟨hp, hpq⟩
        have hp := (List.mem_filter.mp hp).1
        exact Defaults.fillGap_mirrors hpeers hpq (hproperty p hp (noPattern.property hp))
      rw [fill_obj, fill_obj, hpeers.isObject_eq]
      split
      · refine (Mirrors.members hmembers each).bind fun ms' ns' hmembers' => ?_
        exact hgaps.reshape fun _ _ hadded => .obj_of_shuffled (hmembers'.append hadded)
      · exact .pure hv

/-! ## Both ways -/

theorem mend_regular (noPattern : s.Everywhere (·.patterns = [])) : s.Regular mend := by
  intro t v w hpeers hv
  refine (prune_regular noPattern t v w hpeers hv).bind fun pruned pruned' hpruned => ?_
  refine (coerce_regular noPattern t _ _ hpeers hpruned).bind fun coerced coerced' hcoerced => ?_
  exact applyDefaults_regular (fill_regular noPattern) t _ _ hpeers hcoerced

/-- **A repair does not depend on the order of members.**  Under two schemas without patterns that are equal up
to the order of members, two documents that are so too are repaired alike: both repairs fail, or both return,
with results that are equal up to the order of members, and with ledgers that hold the same changes up to
their order and to the order of members in the values that they show. -/
theorem mend_unordered {a b v w : Json} (distinct : a.Distinct) (schemas : a.Reordered b)
    (documents : v.Reordered w) (noPattern : (Shape.ofSchema a).Everywhere (·.patterns = [])) :
    (∃ fault fault', (mend (.ofSchema a) v).run = .error fault ∧
      (mend (.ofSchema b) w).run = .error fault') ∨
    ∃ x y changes changes', (mend (.ofSchema a) v).run = .ok (x, changes) ∧
      (mend (.ofSchema b) w).run = .ok (y, changes') ∧ x.Reordered y ∧
      Shuffled Change.Alike changes changes' := by
  have htwins : a.Twins b := ⟨distinct, schemas.distinct distinct, schemas.sorted distinct⟩
  have hpeers : Peers (.ofSchema a) (.ofSchema b) := ⟨a, b, .inr htwins, rfl, rfl⟩
  cases hfirst : (mend (.ofSchema a) v).run with
  | ok result =>
    obtain ⟨x, changes⟩ := result
    obtain ⟨y, changes', hsecond, hxy, hchanges⟩ :=
      mend_regular noPattern _ v w hpeers documents x changes hfirst
    exact .inr ⟨x, y, changes, changes', rfl, hsecond, hxy, hchanges⟩
  | error fault =>
    cases hsecond : (mend (.ofSchema b) w).run with
    | error fault' => exact .inl ⟨fault, fault', rfl, rfl⟩
    | ok result =>
      -- the first repair mirrors the second one as well
      obtain ⟨y, changes'⟩ := result
      obtain ⟨x, changes, hback, -⟩ := mend_regular (hpeers.everywhere_noPattern noPattern) _ w v
        hpeers.symm documents.symm y changes' hsecond
      rw [hfirst] at hback
      cases hback

/-- Two members are removed, one is coerced and two are put in, in two orders. -/
theorem mend_unordered_of_five :
    let number : Json := .obj [("type", .str "integer")]
    let one : Json := .num (.int 1)
    let pair : Json := .obj [("default", .obj [("x", .null), ("y", one)])]
    let pair' : Json := .obj [("default", .obj [("y", one), ("x", .null)])]
    let filler : Json := .obj [("default", one)]
    let schema : Json := .obj [("additionalProperties", .bool false),
      ("properties", .obj [("a", number), ("b", pair), ("c", filler)])]
    let schema' : Json := .obj [("properties", .obj [("c", filler), ("b", pair'), ("a", number)]),
      ("additionalProperties", .bool false)]
    let document : Json := .obj [("z", .null), ("a", .str "1"), ("q", .null)]
    let document' : Json := .obj [("q", .null), ("a", .str "1"), ("z", .null)]
    ∃ x y changes changes', (mend (.ofSchema schema) document).run = .ok (x, changes) ∧
      (mend (.ofSchema schema') document').run = .ok (y, changes') ∧ x.Reordered y ∧ x ≠ y ∧
      Shuffled Change.Alike changes changes' ∧ changes.length = 5 ∧
      changes.map Change.place ≠ changes'.map Change.place := by
  intro number one pair pair' filler schema schema' document document'
  have hruns : ((mend (.ofSchema schema) document).run.toOption.bind fun first =>
      (mend (.ofSchema schema') document').run.toOption.map fun second =>
        decide (first.1 ≠ second.1 ∧ first.2.length = 5 ∧
          first.2.map Change.place ≠ second.2.map Change.place)) = some true := by decide +kernel
  have hdistinct : schema.Distinct := by decide +kernel
  have hpair : pair.Reordered pair' :=
    .obj_of_shuffled (.of_forall₂ (.cons ⟨rfl, .order (.swap _ _ _)⟩ .nil))
  have hproperties : (Json.obj [("a", number), ("b", pair), ("c", filler)]).Reordered
      (.obj [("c", filler), ("b", pair'), ("a", number)]) :=
    .obj_of_shuffled ⟨[("a", number), ("b", pair'), ("c", filler)],
      .cons (.refl _) (.cons ⟨rfl, hpair⟩ (.cons (.refl _) .nil)), by decide +kernel⟩
  have hschemas : schema.Reordered schema' := by
    refine (Reordered.order (.swap _ _ _)).trans (.obj_of_shuffled (.of_forall₂ ?_))
    exact .cons ⟨rfl, hproperties⟩ (.cons (.refl _) .nil)
  have hdocuments : document.Reordered document' := .order (by decide +kernel)
  have hnoPattern : (Shape.ofSchema schema).Everywhere (·.patterns = []) := by decide +kernel
  rcases mend_unordered hdistinct hschemas hdocuments hnoPattern with
    ⟨fault, fault', hfirst, -⟩ | ⟨x, y, changes, changes', hfirst, hsecond, hxy, hchanges⟩
  · rw [hfirst] at hruns
    cases hruns
  · rw [hfirst, hsecond] at hruns
    have hfacts := of_decide_eq_true (Option.some.inj hruns)
    exact ⟨x, y, changes, changes', hfirst, hsecond, hxy, hfacts.1, hchanges, hfacts.2.1, hfacts.2.2⟩

end JsonMend
