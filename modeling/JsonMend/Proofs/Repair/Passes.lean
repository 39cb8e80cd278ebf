import JsonMend.Proofs.Repair.Parts
import JsonMend.Repair.Mend
/-
  What the passes of a repair have done.

  For each pass, every way in which it can have returned, guards included: `prune_cases`, `coerce_cases`,
  `settle_cases`, `fill_cases`, and `mend_cases` for all of them in turn.  Later proofs split a run by
  these and never open the body of a pass.

  All three visit the parts of a value alike (`Shape.PartsRun`).  But pruning does not keep every member
  (`Prune.member`), coercing may first turn the value into another one, and filling puts members in, one for
  each declared property that is missing (`Defaults.GapsRun`).
-/
namespace JsonMend

open Changed

/-! ## Pruning -/

/-- A key is forbidden where the shape is closed, names keys and does not declare it. -/
theorem Prune.forbids_eq_true {s : Shape} {key : String} :
    Prune.forbids s key = .ok true ↔
      s.closed = true ∧ s.namesKeys = true ∧ s.declares key = .ok false := by
  unfold Prune.forbids Prune.isStrict
  cases hclosed : s.closed with
  | false => simp
  | true =>
    cases hnames : s.namesKeys with
    | false => simp
    | true =>
      cases hdeclares : s.declares key with
      | error fault => simp [Except.map]
      | ok declared => simp [Except.map]

/-- What pruning does to a member. -/
def Prune.member (s : Shape) (key : String) (x : Json) : Changed (Option Json) := do
  if ← Prune.forbids s key then
    record (.removed x) Prune.reason
    return none
  return some (← s.visit prune key x)

theorem prune_eq (s : Shape) (v : Json) : prune s v = s.visitParts (Prune.member s) prune v := by
  cases v with
  | obj ms =>
    rw [prune, Shape.visitParts]
    cases s.isObject with
    | false => rfl
    | true =>
      simp only [Bool.not_true, Bool.false_eq_true, if_false, if_true]
      congr 2
      funext key x
      unfold Prune.member Shape.visit
      congr 1
      funext forbidden
      -- a member whose key is not forbidden is visited, and kept whatever comes of it
      cases forbidden with
      | true => rfl
      | false =>
        simp only [Bool.false_eq_true, if_false]
        split <;> rename_i h <;> simp only [h] <;> rfl
  | arr xs =>
    rw [prune, Shape.visitParts]
    split <;> rename_i h <;> simp only [h]
  | null | bool | num | str =>
    rw [prune]
    · rfl
    · intro _ h; cases h
    · intro _ h; cases h

theorem prune_cases {s : Shape} {v w : Json} {changes : List Change} :
    (prune s v).run = .ok (w, changes) ↔ s.PartsRun (Prune.member s) prune v w changes := by
  rw [prune_eq, Shape.visitParts_run]

/-- A member is removed where its key is forbidden, and pruned where it is not. -/
theorem Prune.member_run {s : Shape} {key : String} {x : Json} {y? : Option Json}
    {changes : List Change} :
    (Prune.member s key x).run = .ok (y?, changes) ↔
      (Prune.forbids s key = .ok true ∧ y? = none ∧ changes = [.here (.removed x) Prune.reason]) ∨
        (Prune.forbids s key = .ok false ∧
          ∃ y, (s.visit prune key x).run = .ok (y, changes) ∧ y? = some y) := by
  unfold Prune.member
  show (ofExcept (Prune.forbids s key) >>= _).run = _ ↔ _
  rw [run_bind_eq_ok]
  cases hforbids : Prune.forbids s key with
  | error fault => simp [run_ofExcept_eq_ok]
  | ok forbidden =>
    constructor
    · rintro ⟨_, _, later, hx, hrest, rfl⟩
      obtain ⟨hx, rfl⟩ := run_ofExcept_eq_ok.mp hx
      cases hx
      cases forbidden with
      | true =>
        obtain ⟨_, hnone, rfl⟩ := run_record_bind_eq_ok.mp hrest
        obtain ⟨rfl, rfl⟩ := run_pure_eq_ok.mp hnone
        exact .inl ⟨rfl, rfl, rfl⟩
      | false =>
        obtain ⟨y, hy, rfl⟩ := run_bind_pure_eq_ok.mp hrest
        exact .inr ⟨rfl, y, hy, rfl⟩
    · rintro (⟨hx, rfl, rfl⟩ | ⟨hx, y, hy, rfl⟩)
      · cases hx
        exact ⟨true, [], _, rfl, run_record_bind_eq_ok.mpr ⟨[], rfl, rfl⟩, rfl⟩
      · cases hx
        exact ⟨false, [], changes, rfl, run_bind_pure_eq_ok.mpr ⟨y, hy, rfl⟩, rfl⟩

theorem Prune.visit_of_kept {s : Shape} {key : String} {x y : Json} {changes : List Change}
    (h : (Prune.member s key x).run = .ok (some y, changes)) :
    (s.visit prune key x).run = .ok (y, changes) := by
  rcases Prune.member_run.mp h with ⟨-, hnone, -⟩ | ⟨-, y', hvisit, hy⟩
  · cases hnone
  · cases hy
    exact hvisit

/-- A change that pruning makes removes a member whose key is forbidden, or is made to a part. -/
theorem Prune.change_cases {s : Shape} {v w : Json} {changes : List Change} {c : Change}
    (h : (prune s v).run = .ok (w, changes)) (hc : c ∈ changes) :
    (∃ ms key x, v = .obj ms ∧ (key, x) ∈ ms ∧ Prune.forbids s key = .ok true ∧
      c = (Change.here (.removed x) Prune.reason).under (.key key)) ∨
    ∃ step sub x y own inner, s.Part v step sub x ∧ (prune sub x).run = .ok (y, own) ∧
      inner ∈ own ∧ c = inner.under step := by
  cases prune_cases.mp h with
  | @members ms ns _ hobject hrun =>
    obtain ⟨key, x, y?, own, inner, hx, hstep, hinner, rfl⟩ := hrun.member_of_change hc
    rcases Prune.member_run.mp hstep with ⟨hforbids, -, rfl⟩ | ⟨-, y, hvisit, -⟩
    · rw [List.mem_singleton.mp hinner]
      exact .inl ⟨ms, key, x, rfl, hx, hforbids, rfl⟩
    · rcases Shape.visit_run.mp hvisit with ⟨-, -, rfl⟩ | ⟨sub, hsub, hrun⟩
      · cases hinner
      · exact .inr ⟨.key key, sub, x, y, own, inner, .member hobject hx hsub, hrun, hinner, rfl⟩
  | items hfound hrun => exact .inr (hrun.part_of_change hfound hc)
  | whole => cases hc

/-! ## Coercing -/

namespace Coerce

theorem firstSuccess_eq_none {v : Json} {names : List String} :
    firstSuccess v names = .ok none ↔ ∀ name ∈ names, toTypeNamed name v = .ok none := by
  induction names with
  | nil => simp [firstSuccess]
  | cons name rest ih =>
    rw [firstSuccess, List.forall_mem_cons, ← ih]
    cases toTypeNamed name v with
    | error fault => simp [bind, Except.bind]
    | ok result? => cases result? <;> simp [bind, Except.bind, pure, Except.pure]

/-- The type that wins is the first in order that the value can be turned into. -/
theorem firstSuccess_cases {v result : Json} {target : String} {names : List String}
    (h : firstSuccess v names = .ok (some (target, result))) :
    ∃ earlier later, names = earlier ++ target :: later ∧
      (∀ name ∈ earlier, toTypeNamed name v = .ok none) ∧
      toTypeNamed target v = .ok (some result) := by
  induction names with
  | nil => cases h
  | cons name rest ih =>
    rw [firstSuccess] at h
    cases hname : toTypeNamed name v with
    | error fault =>
      rw [hname] at h
      cases h
    | ok result? =>
      rw [hname] at h
      cases result? with
      | some other =>
        cases h
        exact ⟨[], rest, rfl, fun _ hmem => absurd hmem List.not_mem_nil, hname⟩
      | none =>
        obtain ⟨earlier, later, rfl, hearlier, htarget⟩ := ih h
        exact ⟨name :: earlier, later, rfl, List.forall_mem_cons.mpr ⟨hname, hearlier⟩, htarget⟩

theorem toTypeNamed_of_firstSuccess {v result : Json} {target : String} {names : List String}
    (h : firstSuccess v names = .ok (some (target, result))) :
    toTypeNamed target v = .ok (some result) := by
  obtain ⟨earlier, later, -, -, hnamed⟩ := firstSuccess_cases h
  exact hnamed

end Coerce

theorem coerce_eq (s : Shape) (v : Json) :
    coerce s v = Coerce.ownType? s v >>= fun
      | none => pure v
      | some own => s.visitParts (s.visitKept coerce) coerce own := by
  rw [coerce]
  congr 1
  funext own?
  cases own? with
  | none => rfl
  | some own =>
    cases own with
    | obj ms =>
      show (if (!s.isObject) = true then _ else _) = Shape.visitParts s _ _ _
      rw [Shape.visitParts]
      cases s.isObject with
      | false => rfl
      | true =>
        simp only [Bool.not_true, Bool.false_eq_true, if_false, if_true]
        congr 2
        funext key x
        unfold Shape.visitKept Shape.visit
        split <;> rename_i h <;> simp only [h] <;> rfl
    | arr xs =>
      simp only [Shape.visitParts]
      split <;> rename_i h <;> simp only [h]
    | null | bool | num | str => rfl

/-- What coercing did: a value of a right type keeps its place and its parts are coerced; one of a wrong
type stays as it is, or gives way to the first of the listed types that it can be turned into. -/
inductive CoerceRun (s : Shape) (v w : Json) : List Change → Prop
  | kept {changes} (admitted : s.admits v = true)
      (parts : s.PartsRun (s.visitKept coerce) coerce v w changes) : CoerceRun s v w changes
  | stuck (mismatch : s.admits v = false) (failed : Coerce.firstSuccess v s.types = .ok none)
      (same : w = v) : CoerceRun s v w []
  | coerced {target own changes} (mismatch : s.admits v = false)
      (first : Coerce.firstSuccess v s.types = .ok (some (target, own)))
      (parts : s.PartsRun (s.visitKept coerce) coerce own w changes) :
      CoerceRun s v w (.here (.coerced v own) (Coerce.reason v target) :: changes)

theorem coerce_cases {s : Shape} {v w : Json} {changes : List Change} :
    (coerce s v).run = .ok (w, changes) ↔ CoerceRun s v w changes := by
  rw [coerce_eq, Coerce.ownType?]
  cases hadmits : s.admits v with
  | true =>
    simp only [if_true, pure_bind]
    rw [Shape.visitParts_run]
    constructor
    · intro h
      exact .kept hadmits h
    · rintro (⟨-, h⟩ | ⟨h, -, -⟩ | ⟨h, -, -⟩)
      · exact h
      · rw [hadmits] at h; cases h
      · rw [hadmits] at h; cases h
  | false =>
    simp only [Bool.false_eq_true, if_false, bind_assoc]
    rw [run_bind_eq_ok]
    constructor
    · rintro ⟨found?, earlier, later, hlifted, hrest, rfl⟩
      obtain ⟨hfirst, rfl⟩ := run_ofExcept_eq_ok.mp hlifted
      cases found? with
      | none =>
        obtain ⟨rfl, rfl⟩ := run_pure_eq_ok.mp hrest
        exact .stuck hadmits hfirst rfl
      | some found =>
        obtain ⟨target, own⟩ := found
        simp only [bind_assoc, pure_bind] at hrest
        obtain ⟨inner, hparts, rfl⟩ := run_record_bind_eq_ok.mp hrest
        exact .coerced hadmits hfirst (Shape.visitParts_run.mp hparts)
    · rintro (⟨h, -⟩ | ⟨-, hfirst, rfl⟩ | ⟨-, hfirst, hparts⟩)
      · rw [hadmits] at h; cases h
      · exact ⟨none, [], [], run_ofExcept_eq_ok.mpr ⟨hfirst, rfl⟩, rfl, rfl⟩
      · refine ⟨some (_, _), [], _, run_ofExcept_eq_ok.mpr ⟨hfirst, rfl⟩, ?_, rfl⟩
        simp only [bind_assoc, pure_bind]
        exact run_record_bind_eq_ok.mpr ⟨_, Shape.visitParts_run.mpr hparts, rfl⟩

/-! ## Filling in defaults -/

namespace Defaults

/-- How the place of a value was settled. -/
inductive SettleRun (s : Shape) (v : Json) : Json → List Change → Prop
  | kept (stays : enters s v = true ∨ s.admits v = true ∨ s.fallback = none) : SettleRun s v v []
  | loose (unexpected : s.isObject = false) (unexpected' : s.isArray = false) : SettleRun s v v []
  | defaulted {d reason} (outside : enters s v = false) (mismatch : s.admits v = false)
      (default : s.fallback = some d) : SettleRun s v d [.here (.defaulted d (some v)) reason]
  | emptied (outside : enters s v = false) (mismatch : s.admits v = false)
      (object : s.isObject = true) (noDefault : s.fallback = none) (shaped : s.namesKeys = true) :
      SettleRun s v (.obj []) [.here (.added (.obj []) (some v)) reasonEmptied]

theorem settle_cases {s : Shape} {v own : Json} {changes : List Change}
    (h : (settle s v).run = .ok (own, changes)) : SettleRun s v own changes := by
  unfold settle at h
  split at h
  · rename_i hstays
    obtain ⟨rfl, rfl⟩ := run_pure_eq_ok.mp h
    rw [Bool.or_eq_true] at hstays
    exact .kept (hstays.elim .inl fun hadmits => .inr (.inl hadmits))
  · rename_i hgoes
    rw [Bool.or_eq_true, not_or, Bool.not_eq_true, Bool.not_eq_true] at hgoes
    obtain ⟨houtside, hmismatch⟩ := hgoes
    split at h
    · rename_i hobject
      split at h
      · rename_i d hdefault
        obtain ⟨_, hpure, rfl⟩ := run_record_bind_eq_ok.mp h
        obtain ⟨rfl, rfl⟩ := run_pure_eq_ok.mp hpure
        exact .defaulted houtside hmismatch hdefault
      · rename_i hnone
        split at h
        · rename_i hshaped
          obtain ⟨_, hpure, rfl⟩ := run_record_bind_eq_ok.mp h
          obtain ⟨rfl, rfl⟩ := run_pure_eq_ok.mp hpure
          exact .emptied houtside hmismatch hobject hnone hshaped
        · obtain ⟨rfl, rfl⟩ := run_pure_eq_ok.mp h
          exact .kept (.inr (.inr hnone))
    · rename_i hobject
      split at h
      · split at h
        · rename_i d hdefault
          obtain ⟨_, hpure, rfl⟩ := run_record_bind_eq_ok.mp h
          obtain ⟨rfl, rfl⟩ := run_pure_eq_ok.mp hpure
          exact .defaulted houtside hmismatch hdefault
        · rename_i hnone
          obtain ⟨rfl, rfl⟩ := run_pure_eq_ok.mp h
          exact .kept (.inr (.inr hnone))
      · rename_i harray
        obtain ⟨rfl, rfl⟩ := run_pure_eq_ok.mp h
        exact .loose (eq_false_of_ne_true hobject) (eq_false_of_ne_true harray)

/-- What was put where a property was missing. -/
inductive GapRun (isRequired : Bool) (s : Shape) : Option Json → List Change → Prop
  | default {d} (found : s.fallback = some d) :
      GapRun isRequired s (some d) [.here (.defaulted d none) reason]
  | object (noDefault : s.fallback = none) (required : isRequired = true)
      (listed : s.types.contains "object" = true) :
      GapRun isRequired s (some (.obj [])) [.here (.added (.obj []) none) reasonRequiredObject]
  | array (noDefault : s.fallback = none) (required : isRequired = true)
      (unlisted : s.types.contains "object" = false) (listed : s.types.contains "array" = true) :
      GapRun isRequired s (some (.arr [])) [.here (.added (.arr []) none) reasonRequiredArray]
  | left (noDefault : s.fallback = none)
      (unlicensed : isRequired = true →
        s.types.contains "object" = false ∧ s.types.contains "array" = false) :
      GapRun isRequired s none []

/-- What is put in is recorded as put where nothing was. -/
theorem GapRun.put {isRequired : Bool} {s : Shape} {own : Json} {changes : List Change}
    (h : GapRun isRequired s (some own) changes) :
    ∃ edit reason, changes = [.here edit reason] ∧ edit.before? = none ∧ edit.after? = some own := by
  cases h with
  | default hdefault => exact ⟨_, _, rfl, rfl, rfl⟩
  | object hnone hrequired hlisted => exact ⟨_, _, rfl, rfl, rfl⟩
  | array hnone hrequired hunlisted hlisted => exact ⟨_, _, rfl, rfl, rfl⟩

theorem gapFiller?_cases {isRequired : Bool} {s : Shape} {own? : Option Json}
    {changes : List Change} (h : (gapFiller? isRequired s).run = .ok (own?, changes)) :
    GapRun isRequired s own? changes := by
  unfold gapFiller? supply? at h
  cases hdefault : s.fallback with
  | some d =>
    simp only [hdefault, Option.isSome_some, if_true] at h
    obtain ⟨_, hpure, rfl⟩ := run_record_bind_eq_ok.mp h
    obtain ⟨rfl, rfl⟩ := run_pure_eq_ok.mp hpure
    exact .default hdefault
  | none =>
    simp only [hdefault, Option.isSome_none, Bool.false_eq_true, if_false] at h
    split at h
    · rename_i hrequired
      obtain ⟨rfl, rfl⟩ := run_pure_eq_ok.mp h
      refine .left hdefault fun htrue => ?_
      rw [htrue] at hrequired
      exact absurd hrequired (by decide)
    · rename_i hrequired
      have hrequired : isRequired = true := by simpa using hrequired
      split at h
      · rename_i hobject
        obtain ⟨_, hpure, rfl⟩ := run_record_bind_eq_ok.mp h
        obtain ⟨rfl, rfl⟩ := run_pure_eq_ok.mp hpure
        exact .object hdefault hrequired hobject
      · rename_i hobject
        have hobject := eq_false_of_ne_true hobject
        split at h
        · rename_i harray
          obtain ⟨_, hpure, rfl⟩ := run_record_bind_eq_ok.mp h
          obtain ⟨rfl, rfl⟩ := run_pure_eq_ok.mp hpure
          exact .array hdefault hrequired hobject harray
        · rename_i harray
          obtain ⟨rfl, rfl⟩ := run_pure_eq_ok.mp h
          exact .left hdefault fun _ => ⟨hobject, eq_false_of_ne_true harray⟩

/-- What filling puts in the place of a missing property. -/
def fillGap (s : Shape) (entry : String × Shape) : Changed (Option (String × Json)) :=
  under (.key entry.1) do
    match ← gapFiller? (s.required.contains entry.1) entry.2 with
    | none => return none
    | some own => return some (entry.1, ← fill entry.2 own)

/-- What filling made of the missing properties of an object, in order: the members that were added. -/
inductive GapsRun (s : Shape) : List (String × Shape) → Members → List Change → Prop
  | nil : GapsRun s [] [] []
  | left {name sub rest ns later}
      (gap : GapRun (s.required.contains name) sub none []) (tail : GapsRun s rest ns later) :
      GapsRun s ((name, sub) :: rest) ns later
  | filled {name sub own y rest ns put inner later}
      (gap : GapRun (s.required.contains name) sub (some own) put)
      (run : (fill sub own).run = .ok (y, inner)) (tail : GapsRun s rest ns later) :
      GapsRun s ((name, sub) :: rest) ((name, y) :: ns)
        ((put ++ inner).map (·.under (.key name)) ++ later)

namespace GapsRun

variable {s : Shape} {entries : List (String × Shape)} {ns : Members} {changes : List Change}

theorem entry_of_mem (h : GapsRun s entries ns changes) {name : String} {y : Json}
    (hmem : (name, y) ∈ ns) :
    ∃ sub own put inner, (name, sub) ∈ entries ∧
      GapRun (s.required.contains name) sub (some own) put ∧ (fill sub own).run = .ok (y, inner) := by
  induction h with
  | nil => cases hmem
  | left gap tail ih =>
    obtain ⟨sub, own, put, inner, hentry, hgap, hrun⟩ := ih hmem
    exact ⟨sub, own, put, inner, List.mem_cons_of_mem _ hentry, hgap, hrun⟩
  | filled gap run tail ih =>
    rcases List.mem_cons.mp hmem with heq | htail
    · cases heq
      exact ⟨_, _, _, _, List.mem_cons_self, gap, run⟩
    · obtain ⟨sub, own, put, inner, hentry, hgap, hrun⟩ := ih htail
      exact ⟨sub, own, put, inner, List.mem_cons_of_mem _ hentry, hgap, hrun⟩

/-- A missing property was added, unless nothing licenses a value for it. -/
theorem added_or_left (h : GapsRun s entries ns changes) {name : String} {sub : Shape}
    (hmem : (name, sub) ∈ entries) :
    name ∈ ns.map Prod.fst ∨ GapRun (s.required.contains name) sub none [] := by
  induction h with
  | nil => cases hmem
  | left gap tail ih =>
    rcases List.mem_cons.mp hmem with heq | htail
    · cases heq
      exact .inr gap
    · exact ih htail
  | filled gap run tail ih =>
    rcases List.mem_cons.mp hmem with heq | htail
    · cases heq
      exact .inl List.mem_cons_self
    · rcases ih htail with hadded | hleft
      · exact .inl (List.mem_cons_of_mem _ hadded)
      · exact .inr hleft

theorem entry_of_change (h : GapsRun s entries ns changes) {c : Change} (hmem : c ∈ changes) :
    ∃ name sub own y put inner c', (name, sub) ∈ entries ∧
      GapRun (s.required.contains name) sub (some own) put ∧ (fill sub own).run = .ok (y, inner) ∧
      c' ∈ put ++ inner ∧ c = c'.under (.key name) := by
  induction h with
  | nil => cases hmem
  | left gap tail ih =>
    obtain ⟨name, sub, own, y, put, inner, c', hentry, hrest⟩ := ih hmem
    exact ⟨name, sub, own, y, put, inner, c', List.mem_cons_of_mem _ hentry, hrest⟩
  | @filled name sub own y _ _ put inner _ gap run tail ih =>
    rcases List.mem_append.mp hmem with hhead | htail
    · obtain ⟨c', hc', rfl⟩ := List.mem_map.mp hhead
      exact ⟨name, sub, own, y, put, inner, c', List.mem_cons_self, gap, run, hc', rfl⟩
    · obtain ⟨name, sub, own, y, put, inner, c', hentry, hrest⟩ := ih htail
      exact ⟨name, sub, own, y, put, inner, c', List.mem_cons_of_mem _ hentry, hrest⟩

theorem keys_sublist (h : GapsRun s entries ns changes) :
    (ns.map Prod.fst).Sublist (entries.map Prod.fst) := by
  induction h with
  | nil => exact .slnil
  | left gap tail ih => exact ih.cons _
  | filled gap run tail ih => exact ih.cons_cons _

end GapsRun

theorem fillGaps_cases {s : Shape} {entries : List (String × Shape)} {ns : Members}
    {changes : List Change} (h : (entries.filterMapM (fillGap s)).run = .ok (ns, changes)) :
    GapsRun s entries ns changes := by
  induction entries generalizing ns changes with
  | nil =>
    rw [List.filterMapM_nil] at h
    obtain ⟨rfl, rfl⟩ := run_pure_eq_ok.mp h
    exact .nil
  | cons entry rest ih =>
    obtain ⟨name, sub⟩ := entry
    rw [List.filterMapM_cons] at h
    obtain ⟨filled?, earlier, later, hunder, hrest, rfl⟩ := run_bind_eq_ok.mp h
    obtain ⟨inner, hgap, rfl⟩ := run_under_eq_ok.mp hunder
    obtain ⟨own?, put, after, hput, hafter, rfl⟩ := run_bind_eq_ok.mp hgap
    have hput := gapFiller?_cases hput
    cases own? with
    | none =>
      -- nothing was put in, so nothing is recorded
      obtain ⟨rfl, rfl⟩ := run_pure_eq_ok.mp hafter
      cases hput with
      | left hnone hunlicensed => exact .left (.left hnone hunlicensed) (ih hrest)
    | some own =>
      obtain ⟨y, hfill, rfl⟩ := run_bind_pure_eq_ok.mp hafter
      obtain ⟨more, hmore, rfl⟩ := run_bind_pure_eq_ok.mp hrest
      exact .filled hput hfill (ih hmore)

end Defaults

theorem fill_obj (s : Shape) (ms : Members) :
    fill s (.obj ms) =
      if s.isObject then do
        let ns ← Changed.members (s.visitKept applyDefaults) ms
        let added ← (Defaults.missing s ms).filterMapM (Defaults.fillGap s)
        return .obj (ns ++ added)
      else pure (.obj ms) := by
  rw [fill]
  cases s.isObject with
  | false => rfl
  | true =>
    simp only [Bool.not_true, Bool.false_eq_true, if_false, if_true]
    -- the recursion passes through the missing properties with their proofs of being missing
    have hgaps : ∀ f : { e // e ∈ Defaults.missing s ms } → Changed (Option (String × Json)),
        (∀ e h, f ⟨e, h⟩ = Defaults.fillGap s e) →
        (Defaults.missing s ms).attach.filterMapM f =
          (Defaults.missing s ms).filterMapM (Defaults.fillGap s) := by
      intro f hf
      rw [List.filterMapM_subtype hf, List.unattach_attach]
    rw [hgaps _ fun e h => rfl]
    congr 2
    funext key x
    unfold Shape.visitKept Shape.visit applyDefaults
    split <;> rename_i h <;> simp only [h, bind_assoc] <;> rfl

theorem fill_flat {s : Shape} {v : Json} (arr : ∀ xs, v ≠ .arr xs) (obj : ∀ ms, v ≠ .obj ms) :
    fill s v = pure v := by
  rw [fill]
  · intro ms h
    exact obj ms h
  · intro xs h
    exact arr xs h

theorem fill_arr (s : Shape) (xs : List Json) :
    fill s (.arr xs) = s.visitParts (s.visitKept applyDefaults) applyDefaults (.arr xs) := by
  rw [fill, Shape.visitParts]
  cases hitems : s.items with
  | none =>
    cases s.isArray with
    | true => rfl
    | false => rfl
  | some sub =>
    rw [Shape.isArray_of_items hitems]
    rfl

/-- What filling did: the members of an object were filled and what is missing was put behind them, the
items of an array were filled, or the shape reaches no part. -/
inductive FillRun (s : Shape) : Json → Json → List Change → Prop
  | members {ms ns added changes later} (object : s.isObject = true)
      (run : MembersRun (s.visitKept applyDefaults) ms ns changes)
      (gaps : Defaults.GapsRun s (Defaults.missing s ms) added later) :
      FillRun s (.obj ms) (.obj (ns ++ added)) (changes ++ later)
  | items {sub xs ys changes} (found : s.items = some sub)
      (run : ItemsRun (applyDefaults sub) 0 xs ys changes) : FillRun s (.arr xs) (.arr ys) changes
  | whole {v} (noMember : ∀ ms, v = .obj ms → s.isObject = false)
      (noItem : ∀ xs, v = .arr xs → s.items = none) : FillRun s v v []

theorem fill_cases {s : Shape} {v w : Json} {changes : List Change}
    (h : (fill s v).run = .ok (w, changes)) : FillRun s v w changes := by
  cases v with
  | obj ms =>
    rw [fill_obj] at h
    cases hobject : s.isObject with
    | true =>
      rw [hobject, if_pos rfl] at h
      obtain ⟨ns, earlier, later, hns, hrest, rfl⟩ := run_bind_eq_ok.mp h
      obtain ⟨added, hadded, rfl⟩ := run_bind_pure_eq_ok.mp hrest
      exact .members hobject (members_run.mp hns) (Defaults.fillGaps_cases hadded)
    | false =>
      rw [hobject, if_neg Bool.false_ne_true] at h
      obtain ⟨rfl, rfl⟩ := run_pure_eq_ok.mp h
      refine .whole (fun _ _ => hobject) ?_
      rintro _ ⟨⟩
  | arr xs =>
    rw [fill_arr, Shape.visitParts_run] at h
    cases h with
    | items hitems hrun => exact .items hitems hrun
    | whole hmember hitem => exact .whole hmember hitem
  | null | bool | num | str =>
    rw [fill_flat (by simp) (by simp)] at h
    obtain ⟨rfl, rfl⟩ := run_pure_eq_ok.mp h
    refine .whole ?_ ?_ <;> rintro _ ⟨⟩

theorem applyDefaults_cases {s : Shape} {v w : Json} {changes : List Change}
    (h : (applyDefaults s v).run = .ok (w, changes)) :
    ∃ own put inner, Defaults.SettleRun s v own put ∧ (fill s own).run = .ok (w, inner) ∧
      changes = put ++ inner := by
  obtain ⟨own, put, inner, hsettle, hfill, rfl⟩ := run_bind_eq_ok.mp h
  exact ⟨own, put, inner, Defaults.settle_cases hsettle, hfill, rfl⟩

/-! ## The whole repair -/

theorem mend_cases {s : Shape} {v w : Json} {changes : List Change}
    (h : (mend s v).run = .ok (w, changes)) :
    ∃ pruned dropped coerced turned filled,
      (prune s v).run = .ok (pruned, dropped) ∧ (coerce s pruned).run = .ok (coerced, turned) ∧
        (applyDefaults s coerced).run = .ok (w, filled) ∧
        changes = dropped ++ (turned ++ filled) := by
  obtain ⟨pruned, dropped, rest, hprune, hrest, rfl⟩ := run_bind_eq_ok.mp h
  obtain ⟨coerced, turned, filled, hcoerce, hfill, rfl⟩ := run_bind_eq_ok.mp hrest
  exact ⟨pruned, dropped, coerced, turned, filled, hprune, hcoerce, hfill, rfl⟩

end JsonMend
