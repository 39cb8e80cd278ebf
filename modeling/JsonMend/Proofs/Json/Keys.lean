import JsonMend.Pointer
/-
  The keys of a value, and the parts it has by them.

  `EachObject P` says that the key list of every object inside a value, at any depth, has the property
  `P`.  Two such properties matter: that no key occurs twice (`Distinct`), which holds of every value
  that is read, and that no key is empty (`NoEmptyKey`), without which a pointer written as text may
  be read as another one.

  The rest of the file is about one member: where a key occurs once, looking it up, assigning to it and
  erasing it act on one place of the list and leave the others alone.
-/
namespace JsonMend

namespace Json

/-! ## Properties of all key lists -/

/-- The key list of every object inside the value has the property. -/
inductive EachObject (P : List String → Prop) : Json → Prop
  | null : EachObject P .null
  | bool (b : Bool) : EachObject P (.bool b)
  | num (n : Number) : EachObject P (.num n)
  | str (s : String) : EachObject P (.str s)
  | arr {xs : List Json} (items : ∀ x ∈ xs, EachObject P x) : EachObject P (.arr xs)
  | obj {ms : Members} (keys : P (ms.map Prod.fst)) (members : ∀ m ∈ ms, EachObject P m.2) :
      EachObject P (.obj ms)

/-- No object inside the value has a key twice. -/
def Distinct (v : Json) : Prop := v.EachObject List.Nodup

/-- No object inside the value has the empty key. -/
def NoEmptyKey (v : Json) : Prop := v.EachObject ("" ∉ ·)

variable {P Q : List String → Prop}

@[simp] theorem eachObject_arr {xs : List Json} :
    (Json.arr xs).EachObject P ↔ ∀ x ∈ xs, x.EachObject P :=
  ⟨fun | .arr items => items, .arr⟩

@[simp] theorem eachObject_obj {ms : Members} :
    (Json.obj ms).EachObject P ↔ P (ms.map Prod.fst) ∧ ∀ m ∈ ms, m.2.EachObject P :=
  ⟨fun | .obj keys members => ⟨keys, members⟩, fun h => .obj h.1 h.2⟩

theorem eachObject_of_isScalar {v : Json} (h : v.isScalar = true) : v.EachObject P := by
  cases v with
  | bool b => exact .bool b
  | num n => exact .num n
  | str s => exact .str s
  | null => exact .null
  | arr xs => exact absurd h Bool.false_ne_true
  | obj ms => exact absurd h Bool.false_ne_true

theorem EachObject.imp {v : Json} (h : v.EachObject P) (weaken : ∀ keys, P keys → Q keys) :
    v.EachObject Q := by
  induction h with
  | null => exact .null
  | bool b => exact .bool b
  | num n => exact .num n
  | str s => exact .str s
  | arr _ ih => exact .arr ih
  | obj hkeys _ ih => exact .obj (weaken _ hkeys) ih

/-! ### Deciding it -/

mutual
/-- Whether the key list of every object inside a value passes a test. -/
def everyObject (test : List String → Bool) : Json → Bool
  | .arr xs => everyObjectItems test xs
  | .obj ms => test (ms.map Prod.fst) && everyObjectMembers test ms
  | _ => true
def everyObjectItems (test : List String → Bool) : List Json → Bool
  | [] => true
  | x :: xs => everyObject test x && everyObjectItems test xs
def everyObjectMembers (test : List String → Bool) : List (String × Json) → Bool
  | [] => true
  | (_, x) :: ms => everyObject test x && everyObjectMembers test ms
end

mutual
theorem everyObject_iff {test : List String → Bool} :
    ∀ {v : Json}, everyObject test v = true ↔ v.EachObject (test ·)
  | .null => ⟨fun _ => .null, fun _ => rfl⟩
  | .bool b => ⟨fun _ => .bool b, fun _ => rfl⟩
  | .num n => ⟨fun _ => .num n, fun _ => rfl⟩
  | .str s => ⟨fun _ => .str s, fun _ => rfl⟩
  | .arr xs => by rw [everyObject, everyObjectItems_iff, eachObject_arr]
  | .obj ms => by rw [everyObject, Bool.and_eq_true, everyObjectMembers_iff, eachObject_obj]
theorem everyObjectItems_iff {test : List String → Bool} :
    ∀ {xs : List Json}, everyObjectItems test xs = true ↔ ∀ x ∈ xs, x.EachObject (test ·)
  | [] => ⟨fun _ _ h => absurd h List.not_mem_nil, fun _ => rfl⟩
  | _ :: _ => by
    rw [everyObjectItems, Bool.and_eq_true, everyObject_iff, everyObjectItems_iff,
      List.forall_mem_cons]
theorem everyObjectMembers_iff {test : List String → Bool} :
    ∀ {ms : List (String × Json)}, everyObjectMembers test ms = true ↔
      ∀ m ∈ ms, m.2.EachObject (test ·)
  | [] => ⟨fun _ _ h => absurd h List.not_mem_nil, fun _ => rfl⟩
  | (_, _) :: _ => by
    rw [everyObjectMembers, Bool.and_eq_true, everyObject_iff, everyObjectMembers_iff,
      List.forall_mem_cons]
end

instance [DecidablePred P] (v : Json) : Decidable (v.EachObject P) :=
  decidable_of_iff (everyObject (fun keys => decide (P keys)) v = true) <| by
    rw [everyObject_iff]
    exact ⟨fun h => h.imp fun _ => of_decide_eq_true, fun h => h.imp fun _ => decide_eq_true⟩

instance (v : Json) : Decidable v.Distinct := inferInstanceAs (Decidable (v.EachObject List.Nodup))

instance (v : Json) : Decidable v.NoEmptyKey := inferInstanceAs (Decidable (v.EachObject ("" ∉ ·)))

/-! ## Places -/

@[simp] theorem at?_cons (v : Json) (step : Segment) (place : Position) :
    v.at? (step :: place) = (v.step? step).bind (·.at? place) := rfl

theorem at?_append (v : Json) (above below : Position) :
    v.at? (above ++ below) = (v.at? above).bind (·.at? below) := by
  induction above generalizing v with
  | nil => rfl
  | cons step rest ih =>
    rw [List.cons_append, at?_cons, at?_cons]
    cases v.step? step with
    | none => rfl
    | some x => exact ih x

end Json

/-! ## Members with distinct keys -/

/-- The members without those of a key. -/
def eraseKey {α : Type} (key : String) (members : List (String × α)) : List (String × α) :=
  members.filter fun m => m.1 ≠ key

theorem mem_keys_of_lookup {κ α : Type} [BEq κ] [LawfulBEq κ] {key : κ} {x : α} {ms : List (κ × α)}
    (h : ms.lookup key = some x) : (key, x) ∈ ms := by
  obtain ⟨before, after, rfl, -⟩ := List.lookup_eq_some_iff.mp h
  exact List.mem_append_right _ List.mem_cons_self

theorem lookup_eq_none_iff {α : Type} {key : String} {ms : List (String × α)} :
    ms.lookup key = none ↔ key ∉ ms.map Prod.fst := by
  induction ms with
  | nil => exact ⟨fun _ => List.not_mem_nil, fun _ => rfl⟩
  | cons m ms ih =>
    obtain ⟨k, y⟩ := m
    rw [lookup_cons_if, List.map_cons, List.mem_cons, not_or, ← ih]
    by_cases hkey : key = k
    · rw [if_pos hkey]
      exact ⟨(nomatch ·), fun h => absurd hkey h.1⟩
    · rw [if_neg hkey]
      exact ⟨fun h => ⟨hkey, h⟩, fun h => h.2⟩

theorem hasKey_eq_false_iff {α : Type} {key : String} {ms : List (String × α)} :
    hasKey ms key = false ↔ key ∉ ms.map Prod.fst := by
  rw [hasKey, Option.isSome_eq_false_iff, Option.isNone_iff_eq_none, lookup_eq_none_iff]

theorem hasKey_iff {α : Type} {key : String} {ms : List (String × α)} :
    hasKey ms key = true ↔ key ∈ ms.map Prod.fst := by
  rw [← Bool.not_eq_false, hasKey_eq_false_iff, Decidable.not_not]

/-- Where a key occurs once, looking it up finds the member that is there. -/
theorem lookup_of_mem {α : Type} {key : String} {x : α} {ms : List (String × α)}
    (distinct : (ms.map Prod.fst).Nodup) (h : (key, x) ∈ ms) : ms.lookup key = some x := by
  induction ms with
  | nil => cases h
  | cons m ms ih =>
    obtain ⟨k, y⟩ := m
    rw [List.map_cons, List.nodup_cons] at distinct
    rw [lookup_cons_if]
    rcases List.mem_cons.mp h with heq | h
    · cases heq
      exact if_pos rfl
    · -- the first member has another key, or this one would occur twice
      have hne : key ≠ k := by
        intro hkey
        exact distinct.1 (List.mem_map.mpr ⟨_, h, hkey⟩)
      rw [if_neg hne]
      exact ih distinct.2 h

/-- Where keys occur once, looking one up does not depend on the order. -/
theorem lookup_of_perm {α : Type} {key : String} {ms ns : List (String × α)} (perm : ms.Perm ns)
    (distinct : (ns.map Prod.fst).Nodup) : ms.lookup key = ns.lookup key := by
  cases hms : ms.lookup key with
  | some x => exact (lookup_of_mem distinct (perm.mem_iff.mp (mem_keys_of_lookup hms))).symm
  | none =>
    rw [lookup_eq_none_iff] at hms
    refine (lookup_eq_none_iff.mpr fun hkey => hms ?_).symm
    exact (perm.map Prod.fst).mem_iff.mpr hkey

theorem lookup_append_of_not_mem {α : Type} {key : String} {before after : List (String × α)}
    (h : key ∉ before.map Prod.fst) : (before ++ after).lookup key = after.lookup key := by
  induction before with
  | nil => rfl
  | cons m before ih =>
    obtain ⟨k, y⟩ := m
    rw [List.map_cons, List.mem_cons, not_or] at h
    rw [List.cons_append, lookup_cons_if, if_neg h.1]
    exact ih h.2

theorem assign_append_of_not_mem {α : Type} {key : String} {x : α}
    {before after : List (String × α)} (h : key ∉ before.map Prod.fst) :
    assign key x (before ++ after) = before ++ assign key x after := by
  induction before with
  | nil => rfl
  | cons m before ih =>
    obtain ⟨k, y⟩ := m
    rw [List.map_cons, List.mem_cons, not_or] at h
    rw [List.cons_append, assign, if_neg (Ne.symm h.1), ih h.2, List.cons_append]

theorem eraseKey_of_not_mem {α : Type} {key : String} {ms : List (String × α)}
    (h : key ∉ ms.map Prod.fst) : eraseKey key ms = ms := by
  rw [eraseKey, List.filter_eq_self]
  intro m hm
  rw [decide_eq_true_eq]
  rintro rfl
  exact h (List.mem_map.mpr ⟨m, hm, rfl⟩)

/-! ## Parts of a value with distinct keys -/

namespace Json.Distinct

variable {ms : Members} {xs : List Json} {key : String} {x : Json}

theorem keys (h : (Json.obj ms).Distinct) : (ms.map Prod.fst).Nodup := (eachObject_obj.mp h).1

theorem mem (h : (Json.obj ms).Distinct) (hmem : (key, x) ∈ ms) : x.Distinct :=
  (eachObject_obj.mp h).2 _ hmem

theorem lookup (h : (Json.obj ms).Distinct) (hlookup : ms.lookup key = some x) : x.Distinct :=
  h.mem (mem_keys_of_lookup hlookup)

theorem item {i : Nat} (h : (Json.arr xs).Distinct) (hget : xs[i]? = some x) : x.Distinct :=
  eachObject_arr.mp h x (List.mem_of_getElem? hget)

theorem step {v : Json} {step : Segment} (h : v.Distinct) (hx : v.step? step = some x) : x.Distinct := by
  cases v with
  | obj ms =>
    cases step with
    | key key => exact h.lookup hx
    | index i => cases hx
  | arr xs =>
    cases step with
    | key key => cases hx
    | index i => exact h.item hx
  | null | bool | num | str => cases step <;> cases hx

theorem at? {v : Json} {place : Position} (h : v.Distinct) (hx : v.at? place = some x) : x.Distinct := by
  induction place generalizing v with
  | nil =>
    cases hx
    exact h
  | cons step rest ih =>
    obtain ⟨part, hpart, hrest⟩ := Option.bind_eq_some_iff.mp hx
    exact ih (h.step hpart) hrest

end Json.Distinct

/-! ## Parts are smaller -/

namespace Json

theorem sizeOf_lt_of_mem {ms : Members} {key : String} {x : Json} (h : (key, x) ∈ ms) :
    sizeOf x < sizeOf (Json.obj ms) := by
  have hmember := List.sizeOf_lt_of_mem h
  simp only [Prod.mk.sizeOf_spec] at hmember
  simp only [obj.sizeOf_spec]
  omega

theorem sizeOf_lt_of_lookup {ms : Members} {key : String} {x : Json} (h : ms.lookup key = some x) :
    sizeOf x < sizeOf (Json.obj ms) := sizeOf_lt_of_mem (mem_keys_of_lookup h)

theorem sizeOf_lt_of_item {xs : List Json} {x : Json} (h : x ∈ xs) : sizeOf x < sizeOf (Json.arr xs) := by
  have hitem := List.sizeOf_lt_of_mem h
  simp only [arr.sizeOf_spec]
  omega

/-- What holds of a value whenever it holds of all its items or of the values of all its members, holds of
every value. -/
theorem induction_on_parts {P : Json → Prop} (null : P .null) (bool : ∀ b, P (.bool b))
    (num : ∀ n, P (.num n)) (str : ∀ s, P (.str s))
    (arr : ∀ xs, (∀ x ∈ xs, P x) → P (.arr xs)) (obj : ∀ ms, (∀ m ∈ ms, P m.2) → P (.obj ms)) :
    ∀ v : Json, P v
  | .null => null
  | .bool b => bool b
  | .num n => num n
  | .str s => str s
  | .arr xs => arr xs fun x _ => induction_on_parts null bool num str arr obj x
  | .obj ms => obj ms fun m _ => induction_on_parts null bool num str arr obj m.2
termination_by v => sizeOf v
decreasing_by
  · exact sizeOf_lt_of_item ‹_›
  · exact sizeOf_lt_of_mem (show (m.1, m.2) ∈ ms from ‹_›)

end Json

end JsonMend
