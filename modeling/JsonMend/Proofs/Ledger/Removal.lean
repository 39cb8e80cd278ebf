import JsonMend.Proofs.Ledger.Script
import JsonMend.Proofs.Pointer.Place
import JsonMend.Proofs.Repair.Origin
/-
  A removed key stays removed, and no other entry of the ledger is about it or about anything below it.

  1. **Avoiding a place** — an entry avoids a place if its steps do not begin with those of the place.  Only
     the texts of steps are compared, as a ledger shows no more of them.  Parts of one value whose steps
     read alike are one part (`Shape.Part.eq_of_text`), so a question about a place is passed on to the
     part through which it leads.
  2. **Pruning** — a place that was pruned is gone (`Gone`): it leads to an object that lacks a key which its
     shape forbids.  No two removals are at or below each other (`prune_apart`).
  3. **The later passes** (`coerce_gone`, `applyDefaults_gone`) — what is gone stays gone, and every entry
     avoids it.  The containers above it are neither coerced nor replaced, as each is of the kind that its
     shape expects; and the key itself is not filled in, as a forbidden key is no declared one.
  4. **From places to text** (`removed_stays_removed`) — where no pointer begins with an empty step, pointers
     extend each other only where the steps do.
-/
namespace JsonMend

open Changed Shape

variable {s sub : Shape} {v w x : Json} {changes : List Change} {c : Change} {place : Position}
  {step : Segment}

/-! ## Avoiding a place -/

/-- A change is neither at a place nor below it, as far as the texts of the steps tell. -/
def Change.Avoids (c : Change) (place : Position) : Prop := ¬ place.map Segment.text <+: c.steps

theorem Change.avoids_under : (c.under step).Avoids (step :: place) ↔ c.Avoids place := by
  show ¬ step.text :: _ <+: step.text :: c.steps ↔ _
  rw [List.cons_prefix_cons, and_iff_right rfl]
  rfl

theorem Change.avoids_of_ne {other : Segment} (h : step.text ≠ other.text) :
    (c.under other).Avoids (step :: place) := by
  show ¬ step.text :: _ <+: other.text :: c.steps
  rw [List.cons_prefix_cons]
  exact fun hprefix => h hprefix.1

/-- Parts of one value whose steps read alike are one part. -/
theorem Shape.Part.eq_of_text {step' : Segment} {sub' : Shape} {x' : Json}
    (h : s.Part v step sub x) (h' : s.Part v step' sub' x') (hv : v.Distinct)
    (htext : step.text = step'.text) : step = step' ∧ sub = sub' ∧ x = x' := by
  have hstands := h.stands hv
  have hstands' := h'.stands hv
  obtain rfl : step = step' := Json.step_eq_of_text hstands hstands' htext
  refine ⟨rfl, ?_, ?_⟩
  · exact Option.some.inj (Except.ok.inj (h.child.symm.trans h'.child))
  · exact Option.some.inj (hstands.symm.trans hstands')

/-- A change that a pass makes to a part avoids a place in another part, and a place in the same part if all
changes that the pass makes there do. -/
theorem Shape.Part.avoids {pass : Shape → Json → Changed Json} {y : Json} {own : List Change}
    (hpart : s.Part v step sub x) (hv : v.Distinct) (hrun : (pass sub x).run = .ok (y, own))
    (hbelow : ∀ c ∈ own, c.Avoids place)
    (hchange : ∃ step' sub' x' y' own' inner, s.Part v step' sub' x' ∧
      (pass sub' x').run = .ok (y', own') ∧ inner ∈ own' ∧ c = inner.under step') :
    c.Avoids (step :: place) := by
  obtain ⟨step', sub', x', y', own', inner, hpart', hrun', hinner, rfl⟩ := hchange
  by_cases htext : step.text = step'.text
  · obtain ⟨rfl, rfl, rfl⟩ := hpart.eq_of_text hpart' hv htext
    rw [hrun] at hrun'
    cases hrun'
    exact Change.avoids_under.mpr (hbelow inner hinner)
  · exact Change.avoids_of_ne htext

/-! ## Pruning -/

/-- A place leads to an object that lacks a key which the shape of the object forbids. -/
inductive Gone : Shape → Json → Position → Prop
  | here {s : Shape} {ms : Members} {key : String} (forbidden : Prune.forbids s key = .ok true)
      (free : key ∉ ms.map Prod.fst) : Gone s (.obj ms) [.key key]
  | down {s sub : Shape} {v x : Json} {step : Segment} {place : Position}
      (stands : v.step? step = some x) (part : s.Part v step sub x) (rest : Gone sub x place) :
      Gone s v (step :: place)

theorem isObject_of_forbids {key : String} (h : Prune.forbids s key = .ok true) : s.isObject = true := by
  obtain ⟨-, hnames, -⟩ := Prune.forbids_eq_true.mp h
  rw [isObject, hnames, Bool.or_true]

namespace Gone

/-- What stands above a gone place is of the kind that its shape expects. -/
theorem enters (h : Gone s v place) : Defaults.enters s v = true := by
  cases h with
  | here forbidden free => exact isObject_of_forbids forbidden
  | down stands part rest =>
    cases part with
    | member object mem child => exact object
    | item get found => exact isArray_of_items found

theorem not_scalar (h : Gone s v place) : v.isScalar ≠ true := by
  intro hscalar
  cases h with
  | here => cases hscalar
  | down stands part rest => cases part <;> cases hscalar

/-- Nothing stands at a gone place. -/
theorem atSteps?_eq_none (h : Gone s v place) : v.atSteps? (place.map Segment.text) = none := by
  induction h with
  | @here s ms key forbidden free =>
    show (ms.lookup key).bind _ = none
    rw [lookup_eq_none_iff.mpr free]
    rfl
  | down stands part rest ih =>
    cases part with
    | @member ms key =>
      show (ms.lookup key).bind _ = none
      rw [show ms.lookup key = some _ from stands]
      exact ih
    | @item xs i =>
      rw [List.map_cons, Json.atSteps?, indexOf?_text, Option.bind_some,
        show xs[i]? = some _ from stands]
      exact ih

end Gone

theorem prune_gone (h : (prune s v).run = .ok (w, changes)) (hv : v.Distinct) :
    ∀ c ∈ changes, Gone s w c.place := by
  induction s using Shape.parts_induction generalizing v w changes with
  | parts s hchild hproperty =>
    intro c hc
    cases prune_cases.mp h with
    | @members ms ns _ hobject hrun =>
      obtain ⟨key, x, y?, own, inner, hx, hstep, hinner, rfl⟩ := hrun.member_of_change hc
      rcases Prune.member_run.mp hstep with ⟨hforbids, -, rfl⟩ | ⟨-, y, hvisit, rfl⟩
      · rw [List.mem_singleton.mp hinner]
        refine .here hforbids fun hkey => ?_
        -- a member of the result was kept, so its key is not forbidden
        obtain ⟨⟨_, z⟩, hz, rfl⟩ := List.mem_map.mp hkey
        obtain ⟨x', own', -, hkept⟩ := hrun.member_of_mem hz
        rcases Prune.member_run.mp hkept with ⟨-, hnone, -⟩ | ⟨hallows, -⟩
        · cases hnone
        · rw [hforbids] at hallows
          cases hallows
      · rcases Shape.visit_run.mp hvisit with ⟨-, -, rfl⟩ | ⟨sub, hsub, hprune⟩
        · cases hinner
        · obtain ⟨y?, own', hstep', hkept⟩ := hrun.result_of_mem hx
          rw [hstep] at hstep'
          cases hstep'
          have hy : (key, y) ∈ ns := hkept y rfl
          have hbelow := hchild _ sub hsub hprune (hv.mem hx) inner hinner
          have hstands := lookup_of_mem (hv.keys.sublist hrun.keys_sublist) hy
          exact .down hstands (.member hobject hy hsub) hbelow
    | items hfound hrun =>
      obtain ⟨step, sub, x, y, own, inner, hpart, hprune, hinner, rfl⟩ :=
        hrun.part_of_change hfound hc
      obtain ⟨y', own', hprune', hpart'⟩ := hrun.result_of_part hfound hpart
      rw [hprune] at hprune'
      cases hprune'
      have hbelow := hchild step sub hpart.child hprune (hpart.distinct hv) inner hinner
      refine .down ?_ hpart' hbelow
      exact hpart'.stands (prune_distinct h hv)
    | whole => cases hc

/-- Neither of two changes is at the place of the other or below it. -/
def Change.Apart (c c' : Change) : Prop := c'.Avoids c.place ∧ c.Avoids c'.place

theorem Change.apart_map_under (hown : changes.Pairwise Change.Apart) (step : Segment) :
    (changes.map (·.under step)).Pairwise Change.Apart := by
  refine List.pairwise_map.mpr (hown.imp fun h => ?_)
  exact ⟨Change.avoids_under.mpr h.1, Change.avoids_under.mpr h.2⟩

theorem Change.apart_of_ne {other : Segment} {c' : Change} (h : step.text ≠ other.text) :
    (c.under step).Apart (c'.under other) :=
  ⟨Change.avoids_of_ne h, Change.avoids_of_ne h.symm⟩

theorem Changed.MembersRun.apart {member : String → Json → Changed (Option Json)} {ms ns : Members}
    (h : MembersRun member ms ns changes) (distinct : (ms.map Prod.fst).Nodup)
    (hown : ∀ key x y? own, (key, x) ∈ ms → (member key x).run = .ok (y?, own) →
      own.Pairwise Change.Apart) : changes.Pairwise Change.Apart := by
  induction h with
  | nil => exact .nil
  | @kept key x y ms ns own later head tail ih | @dropped key x ms ns own later head tail ih =>
    obtain ⟨hkey, hrest⟩ := List.nodup_cons.mp distinct
    refine List.pairwise_append.mpr ⟨?_, ?_, ?_⟩
    · exact Change.apart_map_under (hown _ _ _ _ List.mem_cons_self head) _
    · exact ih hrest fun key' x' y? own' hx' => hown key' x' y? own' (List.mem_cons_of_mem _ hx')
    · -- the changes behind are about other keys
      intro c hc c' hc'
      obtain ⟨inner, -, rfl⟩ := List.mem_map.mp hc
      obtain ⟨key', x', _, _, inner', hx', -, -, rfl⟩ := tail.member_of_change hc'
      refine Change.apart_of_ne fun heq => hkey ?_
      exact List.mem_map.mpr ⟨_, hx', heq.symm⟩

theorem Changed.ItemsRun.apart {item : Json → Changed Json} {i : Nat} {xs ys : List Json}
    (h : ItemsRun item i xs ys changes)
    (hown : ∀ x y own, x ∈ xs → (item x).run = .ok (y, own) → own.Pairwise Change.Apart) :
    changes.Pairwise Change.Apart := by
  induction h with
  | nil => exact .nil
  | @cons i x y xs ys own later head tail ih =>
    refine List.pairwise_append.mpr ⟨?_, ?_, ?_⟩
    · exact Change.apart_map_under (hown _ _ _ List.mem_cons_self head) _
    · exact ih fun x' y' own' hx' => hown x' y' own' (List.mem_cons_of_mem _ hx')
    · intro c hc c' hc'
      obtain ⟨inner, -, rfl⟩ := List.mem_map.mp hc
      obtain ⟨j, _, _, _, inner', -, -, -, rfl⟩ := tail.item_of_change hc'
      refine Change.apart_of_ne fun heq => ?_
      have := index_eq_of_text heq
      omega

theorem prune_apart (h : (prune s v).run = .ok (w, changes)) (hv : v.Distinct) :
    changes.Pairwise Change.Apart := by
  induction s using Shape.parts_induction generalizing v w changes with
  | parts s hchild hproperty =>
    cases prune_cases.mp h with
    | members hobject hrun =>
      refine hrun.apart hv.keys fun key x y? own hx hstep => ?_
      rcases Prune.member_run.mp hstep with ⟨-, -, rfl⟩ | ⟨-, y, hvisit, -⟩
      · exact List.pairwise_singleton _ _
      · rcases Shape.visit_run.mp hvisit with ⟨-, -, rfl⟩ | ⟨sub, hsub, hprune⟩
        · exact .nil
        · exact hchild _ sub hsub hprune (hv.mem hx)
    | items hfound hrun =>
      refine hrun.apart fun x y own hx hprune => ?_
      exact hchild _ _ (child_of_items hfound 0) hprune (Json.eachObject_arr.mp hv x hx)
    | whole => exact .nil

/-! ## The later passes -/

theorem coerce_gone (hgone : Gone s v place) (h : (coerce s v).run = .ok (w, changes))
    (hv : v.Distinct) : Gone s w place ∧ ∀ c ∈ changes, c.Avoids place := by
  induction hgone generalizing w changes with
  | @here s ms key forbidden free =>
    cases coerce_cases.mp h with
    | kept _ hrun =>
      have hparts : ∀ c ∈ changes, c.Avoids [.key key] := by
        intro c hc
        obtain ⟨step, sub, x, _, _, inner, hpart, -, -, rfl⟩ := hrun.part_of_change visit_of_run hc
        cases hpart with
        | member _ hmem _ =>
          refine Change.avoids_of_ne fun heq => free ?_
          exact List.mem_map.mpr ⟨_, hmem, heq.symm⟩
      refine ⟨?_, hparts⟩
      cases hrun with
      | members hobject hrun =>
        refine .here forbidden ?_
        rwa [hrun.keys_eq fun _ _ _ _ hstep => visitKept_ne_none hstep]
      | whole => exact .here forbidden free
    | stuck _ _ hsame =>
      rw [hsame]
      exact ⟨.here forbidden free, fun c hc => nomatch hc⟩
    | coerced _ hfirst _ =>
      exact nomatch Coerce.isScalar_of_toTypeNamed (Coerce.toTypeNamed_of_firstSuccess hfirst)
  | @down s sub v x step place stands part rest ih =>
    have hgone : Gone s v (step :: place) := .down stands part rest
    cases coerce_cases.mp h with
    | kept _ hrun =>
      obtain ⟨y, own, hcoerce, hpart⟩ := hrun.result_of_part visitKept_run.mp part
      obtain ⟨hy, hown⟩ := ih hcoerce (part.distinct hv)
      refine ⟨.down (hpart.stands (coerce_distinct h hv)) hpart hy, fun c hc => ?_⟩
      exact part.avoids hv hcoerce hown (hrun.part_of_change visit_of_run hc)
    | stuck _ _ hsame =>
      rw [hsame]
      exact ⟨hgone, fun c hc => nomatch hc⟩
    | coerced _ hfirst _ =>
      have hnamed := Coerce.toTypeNamed_of_firstSuccess hfirst
      exact absurd (Coerce.isScalar_of_toTypeNamed hnamed) hgone.not_scalar

/-- A value of the kind that its shape expects is left where it is. -/
theorem settle_of_enters {own : Json} (henters : Defaults.enters s v = true)
    (h : Defaults.SettleRun s v own changes) : own = v ∧ changes = [] := by
  cases h with
  | kept => exact ⟨rfl, rfl⟩
  | loose => exact ⟨rfl, rfl⟩
  | defaulted houtside => exact nomatch henters.symm.trans houtside
  | emptied houtside => exact nomatch henters.symm.trans houtside

/-- What is put in for missing properties is put at their names. -/
theorem avoids_of_gap {missing : List (String × Shape)} {added : Members}
    (hgaps : Defaults.GapsRun s missing added changes) (hc : c ∈ changes)
    (hfree : ∀ e ∈ missing, e.1 ≠ step.text) : c.Avoids (step :: place) := by
  obtain ⟨name, sub, _, _, _, _, inner, hentry, -, -, -, rfl⟩ := hgaps.entry_of_change hc
  exact Change.avoids_of_ne (hfree _ hentry).symm

/-- A forbidden key is undeclared, so it is not missing. -/
theorem missing_ne_of_forbids {key : String} {ms : Members} (forbidden : Prune.forbids s key = .ok true) :
    ∀ e ∈ Defaults.missing s ms, e.1 ≠ key := by
  rintro e he rfl
  obtain ⟨-, -, hundeclared⟩ := Prune.forbids_eq_true.mp forbidden
  have hproperty := (List.mem_filter.mp he).1
  have hnone := lookup_eq_none_iff.mp (declares_eq_false.mp hundeclared).1
  exact hnone (List.mem_map_of_mem hproperty)

/-- A key that stands is not missing. -/
theorem missing_ne_of_stands {key : String} {x : Json} {ms : Members} (stands : ms.lookup key = some x) :
    ∀ e ∈ Defaults.missing s ms, e.1 ≠ key := by
  rintro e he rfl
  have hmissing := (List.mem_filter.mp he).2
  rw [Bool.not_eq_true', hasKey_eq_false_iff] at hmissing
  exact hmissing (List.mem_map_of_mem (mem_keys_of_lookup stands))

theorem applyDefaults_gone (hgone : Gone s v place)
    (h : (applyDefaults s v).run = .ok (w, changes)) (hv : v.Distinct) :
    Gone s w place ∧ ∀ c ∈ changes, c.Avoids place := by
  induction hgone generalizing w changes with
  | @here s ms key forbidden free =>
    obtain ⟨own, put, inner, hsettle, hfill, rfl⟩ := applyDefaults_cases h
    obtain ⟨rfl, rfl⟩ := settle_of_enters (Gone.here forbidden free).enters hsettle
    rw [List.nil_append]
    cases fill_cases hfill with
    | @members _ ns added earlier later hobject hrun hgaps =>
      have hdeclared : ∀ e ∈ Defaults.missing s ms, e.1 ≠ key := missing_ne_of_forbids forbidden
      constructor
      · refine .here forbidden ?_
        rw [List.map_append, List.mem_append, not_or]
        constructor
        · rwa [hrun.keys_eq fun _ _ _ _ hstep => visitKept_ne_none hstep]
        · intro hadded
          obtain ⟨e, he, heq⟩ := List.mem_map.mp (hgaps.keys_sublist.subset hadded)
          exact hdeclared e he heq
      · intro c hc
        rcases List.mem_append.mp hc with hc | hc
        · obtain ⟨other, x, _, _, inner, hx, -, -, rfl⟩ := hrun.member_of_change hc
          refine Change.avoids_of_ne fun heq => free ?_
          exact List.mem_map.mpr ⟨_, hx, heq.symm⟩
        · exact avoids_of_gap hgaps hc hdeclared
    | whole => exact ⟨.here forbidden free, fun c hc => nomatch hc⟩
  | @down s sub v x step place stands part rest ih =>
    have hgone : Gone s v (step :: place) := .down stands part rest
    obtain ⟨own, put, inner, hsettle, hfill, rfl⟩ := applyDefaults_cases h
    obtain ⟨rfl, rfl⟩ := settle_of_enters hgone.enters hsettle
    rw [List.nil_append]
    cases fill_cases hfill with
    | @members ms ns added earlier later hobject hrun hgaps =>
      obtain ⟨y, own, hdefaults, hpart⟩ := hrun.result_of_part visitKept_run.mp part
      obtain ⟨hy, hown⟩ := ih hdefaults (part.distinct hv)
      cases hpart with
      | @member _ key _ _ _ hmem hchild =>
        constructor
        · -- the key is one of the present members, which stand before what is added
          have hkeys := hrun.keys_eq fun _ _ _ _ hstep => visitKept_ne_none hstep
          have hstands : ns.lookup key = some y := lookup_of_mem (hkeys ▸ hv.keys) hmem
          refine .down ?_ (.member hobject (List.mem_append_left _ hmem) hchild) hy
          show (ns ++ added).lookup key = some y
          rw [List.lookup_append, hstands]
          rfl
        · intro c hc
          rcases List.mem_append.mp hc with hc | hc
          · exact part.avoids hv hdefaults hown (hrun.part_of_change hobject visit_of_run hc)
          · exact avoids_of_gap hgaps hc (missing_ne_of_stands stands)
    | items hfound hrun =>
      obtain ⟨y, own, hdefaults, hpart⟩ := hrun.result_of_part hfound part
      obtain ⟨hy, hown⟩ := ih hdefaults (part.distinct hv)
      constructor
      · cases hpart with
        | item get found => exact .down get (.item get found) hy
      · intro c hc
        exact part.avoids hv hdefaults hown (hrun.part_of_change hfound hc)
    | whole => exact ⟨hgone, fun c hc => nomatch hc⟩

/-! ## The whole repair -/

/-- Neither of two changes removes the place at which the other is, or one above it. -/
def Change.Separate (c c' : Change) : Prop :=
  (c.edit.after? = none → c'.Avoids c.place) ∧ (c'.edit.after? = none → c.Avoids c'.place)

theorem mend_separate (h : (mend s v).run = .ok (w, changes)) (hv : v.Distinct) :
    changes.Pairwise Change.Separate ∧ ∀ c ∈ changes, c.edit.after? = none → Gone s w c.place := by
  obtain ⟨pruned, dropped, coerced, turned, filled, hprune, hcoerce, hfill, rfl⟩ := mend_cases h
  have hpruned := prune_distinct hprune hv
  have hputs : ∀ c ∈ turned ++ filled, c.edit.after? ≠ none := by
    intro c hc
    rcases List.mem_append.mp hc with hc | hc
    · exact coerce_puts hcoerce c hc
    · exact settled_puts hfill fill_puts c hc
  -- what pruning removed stays gone through both passes behind it
  have hgone : ∀ c ∈ dropped, Gone s w c.place ∧ ∀ c' ∈ turned ++ filled, c'.Avoids c.place := by
    intro c hc
    obtain ⟨hcoerced, hturned⟩ := coerce_gone (prune_gone hprune hv c hc) hcoerce hpruned
    obtain ⟨hfilled, hadded⟩ :=
      applyDefaults_gone hcoerced hfill (coerce_distinct hcoerce hpruned)
    exact ⟨hfilled, List.forall_mem_append.mpr ⟨hturned, hadded⟩⟩
  constructor
  · refine List.pairwise_append.mpr ⟨?_, ?_, ?_⟩
    · exact (prune_apart hprune hv).imp fun hapart => ⟨fun _ => hapart.1, fun _ => hapart.2⟩
    · refine List.pairwise_of_forall_mem_list fun c hc c' hc' => ?_
      exact ⟨fun hremoves => absurd hremoves (hputs c hc), fun hremoves => absurd hremoves (hputs c' hc')⟩
    · intro c hc c' hc'
      exact ⟨fun _ => (hgone c hc).2 c' hc', fun hremoves => absurd hremoves (hputs c' hc')⟩
  · intro c hc hremoves
    rcases List.mem_append.mp hc with hc | hc
    · exact (hgone c hc).1
    · exact absurd hremoves (hputs c hc)

/-! ## From places to text -/

namespace Pointer

/-- A pointer is another one, or goes on behind it with further steps. -/
def Extends (path above : String) : Prop := path = above ∨ ∃ rest, path = above ++ "/" ++ rest

theorem splitSlashes_ne_nil (cs : List Char) : splitSlashes cs ≠ [] := by
  fun_cases splitSlashes cs <;> simp_all

/-- A text is cut at a slash wherever the slash stands. -/
theorem splitSlashes_at_slash (front rest : List Char) :
    splitSlashes (front ++ '/' :: rest) = splitSlashes front ++ splitSlashes rest := by
  induction front with
  | nil => rfl
  | cons c front ih =>
    by_cases hslash : c = '/'
    · rw [hslash, List.cons_append, splitSlashes, splitSlashes, ih, List.cons_append]
    · obtain ⟨part, parts, hparts⟩ := List.exists_cons_of_ne_nil (splitSlashes_ne_nil front)
      rw [List.cons_append, splitSlashes, ih, hparts, splitSlashes, hparts]
      · rfl
      · exact hslash
      · exact hslash

theorem prefix_of_concatChars {segments others : List String} {rest : List Char}
    (h : concatChars others = concatChars segments ++ '/' :: rest) : segments <+: others := by
  have hsplit := congrArg splitSlashes h
  rw [splitSlashes_at_slash, splitSlashes_concat, splitSlashes_concat, List.cons_append,
    List.cons.injEq] at hsplit
  -- the escaped steps begin with those of the shorter pointer, so the steps do
  have hescaped : segments.map (fun s => escapeChars s.toList) <+:
      others.map fun s => escapeChars s.toList := ⟨_, hsplit.2.symm⟩
  have hsteps := hescaped.map fun part => String.ofList (unescapeChars part)
  rwa [map_unescapeChars, map_unescapeChars] at hsteps

end Pointer

theorem Change.path_eq (h : c.Named) : c.path = Pointer.ofSegments c.steps :=
  Pointer.shown_eq_ofPosition h

/-- The pointer of one change extends that of another only if its steps do. -/
theorem Change.prefix_of_extends {c' : Change} (hc : c.Named) (hc' : c'.Named) (hne : c.place ≠ [])
    (h : Pointer.Extends c'.path c.path) : c.steps <+: c'.steps := by
  rcases h with heq | ⟨rest, heq⟩
  · have hsteps : c.steps = c'.steps := by rw [← hc.split_path, ← hc'.split_path, heq]
    exact hsteps ▸ List.prefix_rfl
  · have hpath : c.path.toList = Pointer.concatChars c.steps := by
      rw [Change.path_eq hc, Pointer.ofSegments, if_neg (by simpa [Change.steps] using hne),
        Pointer.toList_concat]
    have hlist := congrArg String.toList heq
    rw [String.toList_append, String.toList_append, hpath, List.append_assoc] at hlist
    by_cases hroot : c'.steps = []
    · -- the root is a lone slash, and the pointer of a removed key is longer
      rw [Change.path_eq hc', hroot] at hlist
      obtain ⟨step, steps, hsteps⟩ : ∃ step steps, c.steps = step :: steps :=
        List.exists_cons_of_ne_nil (by simpa [Change.steps] using hne)
      rw [hsteps, Pointer.concatChars] at hlist
      simp [Pointer.ofSegments] at hlist
    · rw [Change.path_eq hc', Pointer.ofSegments, if_neg (by simpa using hroot),
        Pointer.toList_concat] at hlist
      exact Pointer.prefix_of_concatChars hlist

theorem Gone.ne_nil (h : Gone s v place) : place ≠ [] := by
  cases h <;> exact List.cons_ne_nil _ _

/-- The shape of a schema without empty keys is named. -/
theorem Shape.named_ofSchema {schema : Json} (h : schema.NoEmptyKey) : (ofSchema schema).Named := by
  have hkeys := keyLists_ofSchema (P := ("" ∉ ·)) List.not_mem_nil h
  exact ⟨hkeys.properties, hkeys.fallback⟩

/-- **A removed key stays removed and leaves no other trace.**  No other entry of the ledger has the
pointer of the removed key or one that extends it, and the repaired value has nothing there. -/
theorem removed_stays_removed {schema v w : Json} {ledger earlier later : List Change} {c : Change}
    (distinct : v.Distinct) (schemaNamed : schema.NoEmptyKey) (named : v.NoEmptyKey)
    (h : (mend (Shape.ofSchema schema) v).run = .ok (w, ledger))
    (entry : ledger = earlier ++ c :: later) (removed : c.edit.action = "removed") :
    (∀ c' ∈ earlier ++ later, ¬ Pointer.Extends c'.path c.path) ∧
      w.atSteps? (Pointer.split c.path) = none := by
  subst entry
  have hnamed : ∀ c' ∈ earlier ++ c :: later, c'.Named := mend_named (named_ofSchema schemaNamed) h named
  have hremoves : c.edit.after? = none := by
    cases hedit : c.edit with
    | removed => rfl
    | added | coerced | defaulted =>
      rw [hedit, Edit.action] at removed
      exact absurd removed (by decide)
  obtain ⟨hseparate, hgone⟩ := mend_separate h distinct
  have hmem : c ∈ earlier ++ c :: later := List.mem_append_right _ List.mem_cons_self
  have hplace := hgone c hmem hremoves
  -- the entries before and behind the removal avoid its place
  have havoids : ∀ c' ∈ earlier ++ later, c'.Avoids c.place := by
    obtain ⟨-, hlater, hearlier⟩ := List.pairwise_append.mp hseparate
    refine List.forall_mem_append.mpr ⟨fun c' hc' => ?_, fun c' hc' => ?_⟩
    · exact (hearlier c' hc' c List.mem_cons_self).2 hremoves
    · exact ((List.pairwise_cons.mp hlater).1 c' hc').1 hremoves
  constructor
  · intro c' hc' hextends
    have hother : c' ∈ earlier ++ c :: later := by
      refine List.mem_append.mpr ((List.mem_append.mp hc').imp_right ?_)
      exact List.mem_cons_of_mem _
    exact havoids c' hc'
      (Change.prefix_of_extends (hnamed c hmem) (hnamed c' hother) hplace.ne_nil hextends)
  · rw [(hnamed c hmem).split_path]
    exact hplace.atSteps?_eq_none

/-- A key of an array item is removed; the item is coerced and a default with that key is put in elsewhere. -/
theorem removed_stays_removed_of_item :
    let schema : Json := .obj [("properties", .obj [
        ("a", .obj [("items", .obj [("properties", .obj [("b", .obj [("type", .str "integer")])]),
          ("additionalProperties", .bool false)])]),
        ("z", .obj [("default", .obj [("z", .null)])])])]
    let v : Json := .obj [("a", .arr [.obj [("z", .null), ("b", .str "7")]])]
    let removal : Change := ⟨[.key "a", .index 0, .key "z"], .removed .null, Prune.reason⟩
    let later : List Change :=
      [⟨[.key "a", .index 0, .key "b"], .coerced (.str "7") (.num (.int 7)), "Coerced string to integer"⟩,
       ⟨[.key "z"], .defaulted (.obj [("z", .null)]) none, Defaults.reason⟩]
    let w : Json := .obj [("a", .arr [.obj [("b", .num (.int 7))]]), ("z", .obj [("z", .null)])]
    (mend (Shape.ofSchema schema) v).run = .ok (w, removal :: later) ∧
      (∀ c ∈ later, ¬ Pointer.Extends c.path removal.path) ∧
      w.atSteps? (Pointer.split removal.path) = none := by
  intro schema v removal later w
  have hrun : (mend (Shape.ofSchema schema) v).run = .ok (w, [] ++ removal :: later) :=
    Changed.run_eq_ok_of_toOption (by decide +kernel)
  exact ⟨hrun, removed_stays_removed (by decide +kernel) (by decide +kernel) (by decide +kernel) hrun
    rfl rfl⟩

end JsonMend
