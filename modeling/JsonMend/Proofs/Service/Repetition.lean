import JsonMend.Proofs.Draft7.Tracing
import JsonMend.Proofs.Report.Parameters
import JsonMend.Proofs.Service.History
/-
  Which repeated items an error shows.

  That an array has repeated items is found by equality as JSON.  Which items are shown is searched for anew, by a
  coarser likeness: a boolean item is only like a boolean, but inside an item a boolean counts as a number.

  1. **The first repetition** (`FirstRepetition`) — the first position at which an item repeats an earlier one, and
     the first that it repeats, for whatever counts as repeating.  The search finds it
     (`Unique.duplicate?_eq_some`).
  2. **Two ways of repeating** (`FirstRepetition.same_iff`) — equality is the finer of the two, so a first repetition
     by likeness is one by equality exactly if the two items are equal.  Where booleans are items themselves or do
     not occur, likeness is equality (`Unique.same_of_repeats`).
  3. **The array** (`Violation.repeated_array`) — the way of a violation about repeated items leads to an array of
     the value, and never to a key.
  4. **The result** (`Engine.validate_repetition`).
-/
namespace JsonMend

/-! ## The first repetition -/

/-- The item at a position is repeated at another one. -/
def RepeatedAt (eq : Json → Json → Bool) (items : List Json) (j i : Nat) : Prop :=
  ∃ a b, items[j]? = some a ∧ items[i]? = some b ∧ eq a b = true

/-- The first position at which an item repeats an earlier one, and the first position that it repeats. -/
structure FirstRepetition (eq : Json → Json → Bool) (items : List Json) (i j : Nat) : Prop where
  earlier : j < i
  repeated : RepeatedAt eq items j i
  least : ∀ i' < i, ∀ j' < i', ¬ RepeatedAt eq items j' i'
  first : ∀ j' < j, ¬ RepeatedAt eq items j' i

namespace Unique

open Json

variable {items earlier rest : List Json} {a b x : Json} {i j : Nat}

/-- Behind items none of which repeats an earlier one, an item that repeats none of them is one more. -/
theorem none_repeated_append (behind : ∀ i' < earlier.length, ∀ j' < i', ¬ RepeatedAt repeats earlier j' i')
    (fresh : ∀ y ∈ earlier, repeats y x = false) :
    ∀ i' < (earlier ++ [x]).length, ∀ j' < i', ¬ RepeatedAt repeats (earlier ++ [x]) j' i' := by
  rw [List.length_append, List.length_singleton]
  rintro i' hi j' hj ⟨a, b, ha, hb, hab⟩
  rw [List.getElem?_append_left (by omega)] at ha
  rcases Nat.lt_succ_iff_lt_or_eq.mp hi with hi | rfl
  · rw [List.getElem?_append_left hi] at hb
    exact behind i' hi j' hj ⟨a, b, ha, hb, hab⟩
  · rw [List.getElem?_concat_length] at hb
    cases hb
    exact Bool.noConfusion ((fresh a (List.mem_of_getElem? ha)).symm.trans hab)

/-- The search goes on behind items none of which repeats an earlier one, and ends at the first repetition. -/
theorem duplicateFrom?_eq_some
    (behind : ∀ i' < earlier.length, ∀ j' < i', ¬ RepeatedAt repeats earlier j' i')
    (h : duplicateFrom? earlier rest = some (i, j)) : FirstRepetition repeats (earlier ++ rest) i j := by
  induction rest generalizing earlier with
  | nil => cases h
  | cons x rest ih =>
    rw [duplicateFrom?] at h
    cases hfirst : firstRepeated? earlier x with
    | none =>
      rw [hfirst] at h
      have hrest := ih (none_repeated_append behind (firstRepeated?_eq_none.mp hfirst)) h
      rwa [List.append_assoc] at hrest
    | some first =>
      rw [hfirst] at h
      cases h
      obtain ⟨hbound, hrepeats, hnone⟩ := List.findIdx?_eq_some_iff_getElem.mp hfirst
      have hx : (earlier ++ x :: rest)[earlier.length]? = some x := by
        rw [List.getElem?_append_right (Nat.le_refl _), Nat.sub_self, List.getElem?_cons_zero]
      refine ⟨hbound, ⟨earlier[j], x, ?_, hx, hrepeats⟩, ?_, ?_⟩
      · rw [List.getElem?_append_left hbound, List.getElem?_eq_getElem hbound]
      · rintro i' hi j' hj ⟨a, b, ha, hb, hab⟩
        rw [List.getElem?_append_left (hj.trans hi)] at ha
        rw [List.getElem?_append_left hi] at hb
        exact behind i' hi j' hj ⟨a, b, ha, hb, hab⟩
      · rintro j' hj ⟨a, b, ha, hb, hab⟩
        cases hx.symm.trans hb
        rw [List.getElem?_append_left (hj.trans hbound), List.getElem?_eq_getElem (hj.trans hbound)] at ha
        cases ha
        exact hnone j' hj hab

/-- **The pair that is shown is the first repetition**, by likeness. -/
theorem duplicate?_eq_some (h : duplicate? items = some (i, j)) : FirstRepetition repeats items i j :=
  duplicateFrom?_eq_some (fun _ hi => absurd hi (Nat.not_lt_zero _)) h

end Unique

/-! ## Two ways of repeating -/

namespace Json

mutual
/-- Whether a boolean stands anywhere in a value. -/
def holdsBool : Json → Bool
  | .bool _ => true
  | .arr xs => itemsHoldBool xs
  | .obj ms => membersHoldBool ms
  | _ => false
def itemsHoldBool : List Json → Bool
  | [] => false
  | x :: xs => holdsBool x || itemsHoldBool xs
def membersHoldBool : List (String × Json) → Bool
  | [] => false
  | (_, x) :: ms => holdsBool x || membersHoldBool ms
end

variable {a b : Json} {xs : List Json} {ms : Members}

theorem holdsBool_arr : (arr xs).holdsBool = false ↔ ∀ x ∈ xs, x.holdsBool = false := by
  rw [holdsBool]
  induction xs with
  | nil => simp [itemsHoldBool]
  | cons x xs ih => rw [itemsHoldBool, Bool.or_eq_false_iff, ih, List.forall_mem_cons]

theorem holdsBool_obj : (obj ms).holdsBool = false ↔ ∀ m ∈ ms, m.2.holdsBool = false := by
  rw [holdsBool]
  induction ms with
  | nil => simp [membersHoldBool]
  | cons m ms ih => rw [membersHoldBool, Bool.or_eq_false_iff, ih, List.forall_mem_cons]

theorem sameLeaf_of_alikeLeaf (ha : a.holdsBool = false) (hb : b.holdsBool = false)
    (h : alikeLeaf a b = true) : sameLeaf a b = true := by
  cases a with
  | bool => cases ha
  | null | num | str | arr | obj =>
    cases b with
    | bool => cases hb
    | null | num | str | arr | obj => exact h

/-- **Where no booleans occur, what is alike is the same.** -/
theorem same_of_alike (ha : a.holdsBool = false) (hb : b.holdsBool = false) (h : a.alike b = true) :
    a.same b = true := by
  induction a using induction_on_parts generalizing b with
  | null | bool | num | str =>
    cases (agree_iff flatLeaf_alike).mp h with
    | flat hcompare => exact (agree_iff flatLeaf_same).mpr (.flat (sameLeaf_of_alikeLeaf ha hb hcompare))
  | arr xs ih =>
    refine (agree_iff flatLeaf_same).mpr ?_
    cases (agree_iff flatLeaf_alike).mp h with
    | flat hcompare => exact .flat (sameLeaf_of_alikeLeaf ha hb hcompare)
    | arr hitems =>
      rw [holdsBool_arr] at ha hb
      exact .arr (forall₂_imp_of_mem hitems fun x hx y hy => ih x hx (ha x hx) (hb y hy))
  | obj ms ih =>
    refine (agree_iff flatLeaf_same).mpr ?_
    cases (agree_iff flatLeaf_alike).mp h with
    | flat hcompare => exact .flat (sameLeaf_of_alikeLeaf ha hb hcompare)
    | obj hlength hpartner =>
      rw [holdsBool_obj] at ha hb
      refine .obj hlength fun m hm => ?_
      obtain ⟨w, hw, hagree⟩ := hpartner m hm
      exact ⟨w, hw, ih m hm (ha m hm) (hb _ (mem_keys_of_lookup hw)) hagree⟩

/-- A value that is a boolean or holds none. -/
def Unmixed (v : Json) : Prop := v.isBool = true ∨ v.holdsBool = false

instance (v : Json) : Decidable v.Unmixed := inferInstanceAs (Decidable (_ ∨ _))

end Json

open Json in
/-- Among booleans and values without booleans, what is taken to be one is the same. -/
theorem Unique.same_of_repeats {a b : Json} (ha : a.Unmixed) (hb : b.Unmixed) (h : repeats a b = true) :
    a.same b = true := by
  rw [repeats, Bool.and_eq_true, beq_iff_eq] at h
  obtain ⟨hkind, halike⟩ := h
  cases a with
  | bool x =>
    cases b with
    | bool y =>
      -- two booleans count as the same number only if they are one
      cases x <;> cases y <;> first | rfl | cases halike
    | null | num | str | arr | obj => cases hkind
  | null | num | str | arr | obj =>
    cases b with
    | bool y => cases hkind
    | null | num | str | arr | obj =>
      exact same_of_alike (ha.resolve_left Bool.noConfusion) (hb.resolve_left Bool.noConfusion) halike

namespace FirstRepetition

variable {items : List Json} {i j : Nat}

/-- **A first repetition by likeness is one by equality exactly if the two items are equal.** -/
theorem same_iff (h : FirstRepetition Unique.repeats items i j) :
    FirstRepetition Json.same items i j ↔ RepeatedAt Json.same items j i := by
  have hcoarse : ∀ {j' i'}, RepeatedAt Json.same items j' i' → RepeatedAt Unique.repeats items j' i' :=
    fun ⟨a, b, ha, hb, hab⟩ => ⟨a, b, ha, hb, Unique.repeats_of_same hab⟩
  constructor
  · exact FirstRepetition.repeated
  · intro hrepeated
    exact ⟨h.earlier, hrepeated, fun i' hi j' hj hab => h.least i' hi j' hj (hcoarse hab),
      fun j' hj hab => h.first j' hj (hcoarse hab)⟩

/-- Among booleans and values without booleans, the first repetition is one by equality. -/
theorem same_of_unmixed (h : FirstRepetition Unique.repeats items i j) (unmixed : ∀ x ∈ items, x.Unmixed) :
    FirstRepetition Json.same items i j := by
  obtain ⟨a, b, ha, hb, hab⟩ := h.repeated
  exact h.same_iff.mpr ⟨a, b, ha, hb, Unique.same_of_repeats (unmixed a (List.mem_of_getElem? ha))
    (unmixed b (List.mem_of_getElem? hb)) hab⟩

end FirstRepetition

/-! ## The array -/

variable {validator : Validator} {schema v : Json} {y : Violation} {f : Finding} {found own : List Finding}

/-- Only one complaint is that of repeated items. -/
theorem Complaint.eq_repeatedItems {c : Complaint} (h : c.keyword = "uniqueItems") : c = .repeatedItems := by
  have htemplate := c.ofKeyword?_keyword
  rw [h] at htemplate
  cases c with
  | repeatedItems => rfl
  | nothingAllowed | wrongType | notInEnum | notConst | outOfBounds | notMultiple | wrongCount
  | patternUnmatched | formatUnmet | missingProperty | missingDependency | undeclared | surplusItems
  | nothingContained | noneOfAny | noneOfOne | noBranches | severalOfOne | forbidden
  | notBeyond | notDivisible | disallowed => cases htemplate

/-- **A violation about repeated items stands at an array of the value**, which has a pair to show. -/
theorem Violation.repeated_array (distinct : v.Distinct) (sound : (validator.judge v).fault? = none)
    (hy : y ∈ (validator.judge v).violations) (repeated : y.complaint = .repeatedItems) :
    ∃ items i j, y.value = .arr items ∧ v.at? y.place = some (.arr items) ∧
      Unique.duplicate? items = some (i, j) := by
  obtain ⟨items, ⟨i, j⟩, hvalue, hpair⟩ := Validator.pair_of_repeated distinct sound hy repeated
  refine ⟨items, i, j, hvalue, ?_, hpair⟩
  obtain ⟨way, -⟩ := (located_of_found sound hy).foundAt (by simp [repeated]) (by rw [repeated]; rfl)
  -- the way ends at the array, which is no key
  rcases way.leads distinct with hstands | ⟨ms, key, -, -, hkey⟩
  · rw [← hvalue]
    exact hstands
  · cases hvalue.symm.trans hkey

/-! ## The result -/

namespace Engine

variable {e : Engine}

/-- **Which repeated items an error shows.**  An error about repeated items shows the first repetition of the array
at its path, where items that are alike count as repeated.  By equality as JSON it is the first repetition exactly if
the two items shown are equal, and so wherever the items of the array are booleans or hold none. -/
theorem validate_repetition (distinct : v.Distinct) (validated : (e.validate schema v).1 = .ok found)
    (hf : f ∈ found) (keyword : f.keyword = "uniqueItems") :
    ∃ (place : Position) (items : List Json) (i j : Nat), v.at? place = some (.arr items) ∧
      f.path = Pointer.ofPosition place ∧ f.params = [("i", .num (.int i)), ("j", .num (.int j))] ∧
      FirstRepetition Unique.repeats items i j ∧
      (FirstRepetition Json.same items i j ↔ RepeatedAt Json.same items j i) ∧
      ((∀ x ∈ items, x.Unmixed) → FirstRepetition Json.same items i j) := by
  obtain ⟨validator, -, hreport⟩ := report_of_validate validated
  obtain ⟨hsound, hall⟩ := Validator.report_eq_ok hreport
  obtain ⟨y, hy, next, own, hown, hfown⟩ := Report.mem_allFindings hall hf
  have hshows := Report.shows_of_findings hown hfown
  have hcomplaint : y.complaint = .repeatedItems :=
    Complaint.eq_repeatedItems (hshows.keyword.symm.trans keyword)
  obtain ⟨items, i, j, hvalue, hstands, hpair⟩ := Violation.repeated_array distinct hsound hy hcomplaint
  have hrepetition := Unique.duplicate?_eq_some hpair
  refine ⟨y.place, items, i, j, hstands, hshows.path, ?_, hrepetition, hrepetition.same_iff,
    hrepetition.same_of_unmixed⟩
  rw [Report.findings_of_other (by simp [hcomplaint])] at hown
  obtain ⟨ps, hps, rfl⟩ := map_eq_ok.mp hown
  rw [hcomplaint, hvalue, Report.params, hpair] at hps
  cases hps
  rw [List.mem_singleton.mp hfown]
  rfl

/-- Two arrays with repeated items.  In the first, the item that the error shows is only like the earlier one, and
the items that are equal come behind; in the second, equal objects have their members in another order. -/
theorem validate_repetition_of_two :
    let ones : List Json := [.null, .arr [.num (.int 1)], .arr [.bool true], .arr [.bool true]]
    let points : List Json := [.obj [("x", .num (.int 1)), ("y", .null)], .bool true, .num (.int 1),
      .obj [("y", .null), ("x", .num (.real (.ofRat 1)))]]
    let schema : Json := .obj [("additionalProperties", .obj [("uniqueItems", .bool true)])]
    let v : Json := .obj [("ones", .arr ones), ("points", .arr points)]
    ∃ found, ((fresh .standard).validate schema v).1 = .ok found ∧
      found.map (fun f => (f.path, f.params)) = [
        ("/ones", [("i", .num (.int 2)), ("j", .num (.int 1))]),
        ("/points", [("i", .num (.int 3)), ("j", .num (.int 0))])] ∧
      (∀ f ∈ found, ∃ (place : Position) (items : List Json) (i j : Nat), v.at? place = some (.arr items) ∧
        f.path = Pointer.ofPosition place ∧ f.params = [("i", .num (.int i)), ("j", .num (.int j))] ∧
        FirstRepetition Unique.repeats items i j ∧
        (FirstRepetition Json.same items i j ↔ RepeatedAt Json.same items j i) ∧
        ((∀ x ∈ items, x.Unmixed) → FirstRepetition Json.same items i j)) ∧
      ¬ RepeatedAt Json.same ones 1 2 ∧ RepeatedAt Json.same ones 2 3 ∧ ∀ x ∈ points, x.Unmixed := by
  intro ones points schema v
  have hserves : (fresh .standard).Serves schema (.ofSchema true schema) :=
    fresh_serves rfl (by decide +kernel)
  have hreport : ((Validator.ofSchema true schema).report v).toOption.map
      (List.map fun f => (f.keyword, f.path, f.params)) = some [
        ("uniqueItems", "/ones", [("i", .num (.int 2)), ("j", .num (.int 1))]),
        ("uniqueItems", "/points", [("i", .num (.int 3)), ("j", .num (.int 0))])] := by decide +kernel
  obtain ⟨found, hfound, hparams⟩ := ok_of_toOption_map hreport
  have hvalidate := (validate_eq_ok hserves).mpr hfound
  have hkeyword : ∀ f ∈ found, f.keyword = "uniqueItems" := by
    have hshown : ∀ p ∈ found.map fun f => (f.keyword, f.path, f.params), p.1 = "uniqueItems" := by
      rw [hparams]
      simp
    exact List.forall_mem_map.mp hshown
  refine ⟨found, hvalidate, ?_, fun f hf => ?_, ?_, ⟨_, _, rfl, rfl, by decide +kernel⟩, by decide +kernel⟩
  · have hpairs := congrArg (List.map Prod.snd) hparams
    rwa [List.map_map] at hpairs
  · exact validate_repetition (by decide +kernel) hvalidate hf (hkeyword f hf)
  · rintro ⟨a, b, ha, hb, hab⟩
    cases ha
    cases hb
    exact absurd hab (by decide +kernel)

end Engine

end JsonMend
