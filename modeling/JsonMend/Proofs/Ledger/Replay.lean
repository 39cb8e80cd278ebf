import JsonMend.Proofs.Pointer.Place
import JsonMend.Proofs.Repair.Passes
import JsonMend.Proofs.Shape.Walk
/-
  A ledger is an edit script: replayed on the value that was repaired, it gives the repaired value.

  1. **Putting at a pointer** — `placeAt?` replaces what `atSteps?` finds at the end of the steps of a pointer,
     each step taken as a key in an object and as an index in an array.  Both see only the text that a ledger
     shows; whether a step was a key or an index is forgotten there.
  2. **Replaying** — `Change.replay?` carries out one entry by its pointer and the value it puts there;
     `Change.Fits` says that what the entry tells about the value before it is true.
  3. **The crux** (`Replays`) — an entry sequence that leads from one value to another, each entry fitting
     the value it meets.  Such sequences compose, and one about a part is one about the whole
     (`under_key`, `under_index`), because a member with a key of its own and an item with an index can
     be exchanged without touching the others.  By these, each visitor and then each pass replays.
  4. **From places to text** — the pointer of an entry splits into the steps of its place, as no step from
     the root is empty.
-/
namespace JsonMend

/-! ## Putting at a pointer -/

/-- What stands at a place after something was put there (`put?`) or, where that is nothing, taken away.
The place is named by the steps that lead to it from a place above, of which is given what stands
there: nothing, where a member is missing.  A new member comes last. -/
def placeAt? (put? : Option Json) : List String → Option Json → Option (Option Json)
  | [], _ => some put?
  | step :: rest, some (.obj ms) =>
    (placeAt? put? rest (ms.lookup step)).map fun
      | some y => some (.obj (assign step y ms))
      | none => some (.obj (eraseKey step ms))
  | step :: rest, some (.arr xs) => do
    let i ← indexOf? step
    let x ← xs[i]?
    let y ← (placeAt? put? rest (some x)).join
    return some (.arr (xs.set i y))
  | _ :: _, _ => none

/-- Whether what is told of a place is so: the value before stands there or, where there was none, an
object stands above and lacks the key. -/
def Tells (before? : Option Json) (steps : List String) (v : Json) : Prop :=
  match before? with
  | some before => v.atSteps? steps = some before
  | none => ∃ above key ms, steps = above ++ [key] ∧ v.atSteps? above = some (.obj ms) ∧
      hasKey ms key = false

/-! ## Replaying -/

namespace Change

/-- The pointer of a change, as a ledger shows it. -/
def path (c : Change) : String := Pointer.display (Pointer.below "" c.place)

/-- Carries out a change by its pointer. -/
def replay? (v : Json) (c : Change) : Option Json :=
  (placeAt? c.edit.after? (Pointer.split c.path) (some v)).join

/-- Whether a change tells the truth about the value it is carried out on. -/
def Fits (v : Json) (c : Change) : Prop := Tells c.edit.before? (Pointer.split c.path) v

end Change

/-- Carries out the changes of a ledger in order. -/
def replay? (v : Json) (ledger : List Change) : Option Json := ledger.foldlM Change.replay? v

/-! ## One entry -/

/-- The texts of the steps of a change's place. -/
def Change.steps (c : Change) : List String := c.place.map Segment.text

/-- An entry, by the steps of its place, leads from one value to another: what it tells of the first is
so, and carrying it out gives the second. -/
structure Entry (v : Json) (c : Change) (w : Json) : Prop where
  fits : Tells c.edit.before? c.steps v
  places : placeAt? c.edit.after? c.steps (some v) = some (some w)

/-- What is told of a part is told of the whole, one step further down. -/
theorem Tells.above {before? : Option Json} {step : String} {steps : List String} {v x : Json}
    (hstep : ∀ rest, v.atSteps? (step :: rest) = x.atSteps? rest) (h : Tells before? steps x) :
    Tells before? (step :: steps) v := by
  cases before? with
  | some before => exact (hstep steps).trans h
  | none =>
    obtain ⟨above, key, ms, rfl, habove, hfree⟩ := h
    exact ⟨step :: above, key, ms, rfl, (hstep above).trans habove, hfree⟩

namespace Entry

variable {x y : Json} {c : Change} {edit : Edit} {reason key : String} {before after : Members}

/-- What is put in the place of a whole value. -/
theorem whole (hbefore : edit.before? = some x) (hafter : edit.after? = some y) :
    Entry x (.here edit reason) y := by
  constructor
  · show Tells edit.before? [] x
    rw [hbefore]
    rfl
  · show placeAt? edit.after? [] (some x) = _
    rw [hafter]
    rfl

theorem lookup_between (hkey : key ∉ before.map Prod.fst) :
    (before ++ (key, x) :: after).lookup key = some x := by
  rw [lookup_append_of_not_mem hkey, lookup_cons_if, if_pos rfl]

/-- An entry about a member is one about the object. -/
theorem under_key (hkey : key ∉ before.map Prod.fst) (h : Entry x c y) :
    Entry (.obj (before ++ (key, x) :: after)) (c.under (.key key))
      (.obj (before ++ (key, y) :: after)) := by
  constructor
  · refine h.fits.above fun rest => ?_
    show ((before ++ (key, x) :: after).lookup key).bind _ = _
    rw [lookup_between hkey]
    rfl
  · show placeAt? c.edit.after? (key :: c.steps) _ = _
    rw [placeAt?, lookup_between hkey, h.places]
    show some (some (Json.obj (assign key y _))) = _
    rw [assign_append_of_not_mem hkey, assign, if_pos rfl]

/-- An entry about an item is one about the array. -/
theorem under_index {before after : List Json} (h : Entry x c y) :
    Entry (.arr (before ++ x :: after)) (c.under (.index before.length))
      (.arr (before ++ y :: after)) := by
  have hitem : (before ++ x :: after)[before.length]? = some x := by simp
  constructor
  · refine h.fits.above fun rest => ?_
    rw [Json.atSteps?, indexOf?_text, Option.bind_some, hitem]
    rfl
  · show placeAt? c.edit.after? ((Segment.index before.length).text :: c.steps) _ = _
    rw [placeAt?, indexOf?_text]
    simp [h.places]

/-- Taking a member away. -/
theorem remove (distinct : ((before ++ (key, x) :: after).map Prod.fst).Nodup) :
    Entry (.obj (before ++ (key, x) :: after)) ((Change.here (.removed x) reason).under (.key key))
      (.obj (before ++ after)) := by
  rw [List.map_append, List.map_cons, List.nodup_append] at distinct
  obtain ⟨-, hafter, hapart⟩ := distinct
  have hbefore : key ∉ before.map Prod.fst := fun hmem => hapart _ hmem _ List.mem_cons_self rfl
  constructor
  · show Json.atSteps? [key] _ = some x
    rw [Json.atSteps?, lookup_between hbefore]
    rfl
  · show placeAt? none [key] _ = _
    have herase : eraseKey key (before ++ (key, x) :: after) = before ++ after := by
      rw [eraseKey, List.filter_append, List.filter_cons_of_neg (by simp)]
      show eraseKey key before ++ eraseKey key after = _
      rw [eraseKey_of_not_mem hbefore, eraseKey_of_not_mem (List.nodup_cons.mp hafter).1]
    rw [placeAt?, placeAt?, Option.map_some, herase]

/-- Adding a member, which comes last. -/
theorem add {ms : Members} (hkey : key ∉ ms.map Prod.fst) (hbefore : edit.before? = none)
    (hafter : edit.after? = some y) :
    Entry (.obj ms) ((Change.here edit reason).under (.key key)) (.obj (ms ++ [(key, y)])) := by
  constructor
  · show Tells edit.before? [key] _
    rw [hbefore]
    exact ⟨[], key, ms, rfl, rfl, hasKey_eq_false_iff.mpr hkey⟩
  · show placeAt? edit.after? [key] _ = _
    have hassign : assign key y ms = ms ++ [(key, y)] := by
      have hend : assign key y (ms ++ []) = ms ++ assign key y [] := assign_append_of_not_mem hkey
      rw [List.append_nil] at hend
      exact hend
    rw [hafter]
    show some (some (Json.obj (assign key y ms))) = _
    rw [hassign]

end Entry

/-! ## Sequences of entries -/

/-- Entries that lead from one value to another. -/
inductive Replays : Json → List Change → Json → Prop
  | nil {v} : Replays v [] v
  | cons {v u w c changes} (entry : Entry v c u) (rest : Replays u changes w) :
      Replays v (c :: changes) w

namespace Replays

variable {u v w x y : Json} {changes earlier later : List Change}

theorem append (h : Replays v earlier u) (h' : Replays u later w) :
    Replays v (earlier ++ later) w := by
  induction h with
  | nil => exact h'
  | cons entry _ ih => exact .cons entry (ih h')

theorem under_key {key : String} {before after : Members} (hkey : key ∉ before.map Prod.fst)
    (h : Replays x changes y) :
    Replays (.obj (before ++ (key, x) :: after)) (changes.map (·.under (.key key)))
      (.obj (before ++ (key, y) :: after)) := by
  induction h with
  | nil => exact .nil
  | cons entry _ ih => exact .cons (entry.under_key hkey) ih

theorem under_index {before after : List Json} (h : Replays x changes y) :
    Replays (.arr (before ++ x :: after)) (changes.map (·.under (.index before.length)))
      (.arr (before ++ y :: after)) := by
  induction h with
  | nil => exact .nil
  | cons entry _ ih => exact .cons entry.under_index ih

/-! ### The visitors

Each induction is over the parts still to be visited, `before` being what was made of the others. -/

theorem of_items {step : Json → Changed Json} (before : List Json) {xs ys : List Json}
    (hrun : Changed.ItemsRun step before.length xs ys changes)
    (hstep : ∀ x ∈ xs, ∀ y own, (step x).run = .ok (y, own) → Replays x own y) :
    Replays (.arr (before ++ xs)) changes (.arr (before ++ ys)) := by
  generalize hlength : before.length = i at hrun
  induction hrun generalizing before with
  | nil => exact .nil
  | @cons i x y xs ys own later head tail ih =>
    subst hlength
    -- the entries about this item, and those about the items behind it
    have hx : Replays (.arr (before ++ x :: xs)) (own.map (·.under (.index before.length)))
        (.arr (before ++ y :: xs)) := (hstep x List.mem_cons_self y own head).under_index
    have hrest : Replays (.arr (before ++ [y] ++ xs)) later (.arr (before ++ [y] ++ ys)) := by
      refine ih _ (fun x' hx' => hstep x' (List.mem_cons_of_mem _ hx')) ?_
      rw [List.length_append]
      rfl
    rw [List.append_assoc, List.append_assoc] at hrest
    exact hx.append hrest

theorem of_members {step : String → Json → Changed (Option Json)} (before : Members)
    {ms ns : Members}
    (hrun : Changed.MembersRun step ms ns changes)
    (distinct : ((before ++ ms).map Prod.fst).Nodup)
    (hkept : ∀ key x, (key, x) ∈ ms → ∀ y own, (step key x).run = .ok (some y, own) →
      Replays x own y)
    (hdropped : ∀ key x, (key, x) ∈ ms → ∀ own, (step key x).run = .ok (none, own) →
      ∃ reason, own = [.here (.removed x) reason]) :
    Replays (.obj (before ++ ms)) changes (.obj (before ++ ns)) := by
  induction hrun generalizing before with
  | nil => exact .nil
  | @kept key x y ms ns own later head tail ih =>
    -- the key stands nowhere before the member, so its pointer finds the member and nothing else
    have hkey : key ∉ before.map Prod.fst := by
      rw [List.map_append, List.nodup_append] at distinct
      exact fun hmem => distinct.2.2 _ hmem _ List.mem_cons_self rfl
    have hx : Replays (.obj (before ++ (key, x) :: ms)) (own.map (·.under (.key key)))
        (.obj (before ++ (key, y) :: ms)) := (hkept key x List.mem_cons_self y own head).under_key hkey
    have hrest : Replays (.obj (before ++ [(key, y)] ++ ms)) later
        (.obj (before ++ [(key, y)] ++ ns)) := by
      refine ih _ ?_ (fun key' x' h' => hkept key' x' (List.mem_cons_of_mem _ h'))
        (fun key' x' h' => hdropped key' x' (List.mem_cons_of_mem _ h'))
      rw [List.append_assoc, List.map_append] at *
      exact distinct
    rw [List.append_assoc, List.append_assoc] at hrest
    exact hx.append hrest
  | @dropped key x ms ns own later head tail ih =>
    obtain ⟨reason, rfl⟩ := hdropped key x List.mem_cons_self own head
    refine .cons (Entry.remove distinct) (ih before ?_
      (fun key' x' h' => hkept key' x' (List.mem_cons_of_mem _ h'))
      (fun key' x' h' => hdropped key' x' (List.mem_cons_of_mem _ h')))
    refine List.Nodup.sublist ?_ distinct
    exact ((List.sublist_cons_self _ _).append_left before).map Prod.fst

theorem of_gaps {s : Shape} {entries : List (String × Shape)} {ms ns : Members}
    (hrun : Defaults.GapsRun s entries ns changes)
    (distinct : (ms.map Prod.fst ++ entries.map Prod.fst).Nodup)
    (hfill : ∀ e ∈ entries, ∀ isRequired own put y inner,
      Defaults.GapRun isRequired e.2 (some own) put → (fill e.2 own).run = .ok (y, inner) →
      Replays own inner y) :
    Replays (.obj ms) changes (.obj (ms ++ ns)) := by
  induction hrun generalizing ms with
  | nil =>
    rw [List.append_nil]
    exact .nil
  | left gap tail ih =>
    refine ih ?_ (fun e he => hfill e (List.mem_cons_of_mem _ he))
    exact distinct.sublist ((List.sublist_cons_self _ _).append_left _)
  | @filled name sub own y rest ns put inner later gap run tail ih =>
    have hname : name ∉ ms.map Prod.fst := by
      rw [List.nodup_append] at distinct
      exact fun hmem => distinct.2.2 _ hmem _ List.mem_cons_self rfl
    obtain ⟨edit, reason, rfl, hbefore, hafter⟩ := gap.put
    -- the value is put in as it is declared, filled where it then stands, and the other gaps follow
    have hadd : Replays (.obj ms) [(Change.here edit reason).under (.key name)]
        (.obj (ms ++ [(name, own)])) := .cons (Entry.add hname hbefore hafter) .nil
    have hinner : Replays (.obj (ms ++ [(name, own)])) (inner.map (·.under (.key name)))
        (.obj (ms ++ [(name, y)])) :=
      (hfill _ List.mem_cons_self _ own _ y inner gap run).under_key hname
    have hrest : Replays (.obj (ms ++ [(name, y)])) later (.obj (ms ++ [(name, y)] ++ ns)) := by
      refine ih ?_ (fun e he => hfill e (List.mem_cons_of_mem _ he))
      rw [List.map_append, List.append_assoc]
      exact distinct
    rw [List.append_assoc] at hrest
    rw [List.map_append, List.append_assoc]
    exact hadd.append (hinner.append hrest)

end Replays

end JsonMend
