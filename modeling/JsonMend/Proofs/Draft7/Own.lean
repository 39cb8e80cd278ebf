import JsonMend.Proofs.Draft7.Judging
import JsonMend.Proofs.Shape.Schema
/-
  What a schema finds about the value itself, as its shape tells it.

  1. **Lists of strings** — where a keyword's value is what the keyword asks for, the shape has read the same
     strings from it (`stringsIn_of_strings?`).
  2. **Types** (`mismatch_found`) — a value that the shape does not admit is complained about.
  3. **Undeclared keys** (`mem_select`, `undeclared_found`) — a closed schema complains about an object in
     which it finds extra keys.
-/
namespace JsonMend

/-! ## Lists of strings -/

theorem mapM_str? {items : List Json} {names : List String} (h : items.mapM Json.str? = some names) :
    items = names.map .str := by
  induction items generalizing names with
  | nil =>
    rw [List.mapM_nil] at h
    cases h
    rfl
  | cons v rest ih =>
    rw [List.mapM_cons] at h
    obtain ⟨name, hname, h⟩ := Option.bind_eq_some_iff.mp h
    obtain ⟨others, hothers, h⟩ := Option.bind_eq_some_iff.mp h
    cases h
    cases v with
    | str s =>
      cases hname
      rw [ih hothers, List.map_cons]
    | null | bool | num | arr | obj => cases hname

/-- Where the value of a keyword is a list of strings, the shape has read these. -/
theorem stringsIn_of_strings? {v : Json} {names : List String} (h : v.strings? = some names) :
    Shape.stringsIn (some v) = names := by
  obtain ⟨items, hitems, h⟩ := Option.bind_eq_some_iff.mp h
  cases Json.eq_arr_of_items? hitems
  rw [mapM_str? h, Shape.stringsIn, List.filterMap_map]
  exact List.filterMap_some

theorem Keyword.read?_of_ofMember {members : Members} {name : String} {v : Json} {k? : Option Keyword}
    (h : ofMember members name v = .ok k?) : read? members name v = some k? := by
  unfold ofMember at h
  cases hread : read? members name v with
  | none =>
    rw [hread] at h
    cases h
  | some k =>
    rw [hread] at h
    cases h
    rfl

theorem typesIn_of_ofMember {members : Members} {v : Json} {k? : Option Keyword}
    (h : Keyword.ofMember members "type" v = .ok k?) : k? = some (.type (Shape.typesIn (some v))) := by
  have hread := Keyword.read?_of_ofMember h
  cases v with
  | str name =>
    cases hread
    rfl
  | arr xs =>
    obtain ⟨names, hstrings, hk⟩ := Option.map_eq_some_iff.mp hread
    rw [← hk, ← stringsIn_of_strings? hstrings]
    rfl
  | null | bool | num | obj => cases hread

/-- The names that a schema declares under a key are those that its shape has read. -/
theorem names_of_keysUnder {members : Members} {key : String} {names : List String}
    (h : Keyword.keysUnder members key = some names) :
    names = (Shape.shapesUnder key members).map Prod.fst := by
  rw [Keyword.keysUnder] at h
  rw [Shape.shapesUnder_eq]
  cases hlookup : members.lookup key with
  | none =>
    rw [hlookup] at h
    cases h
    rfl
  | some v =>
    rw [hlookup] at h
    cases v with
    | obj ps =>
      cases h
      rw [Option.map_some, Option.getD_some, Shape.shapesOf_obj, List.map_map]
      rfl
    | null | bool | num | str | arr => cases h

/-- The keyword for additional properties knows the names and the patterns that the shape declares. -/
theorem additional_of_ofMember {members : Members} {value : Json} {k? : Option Keyword}
    (h : Keyword.ofMember members "additionalProperties" value = .ok k?) :
    k? = some (.additionalProperties ((Shape.ofSchema (.obj members)).properties.map Prod.fst)
      ((Shape.ofSchema (.obj members)).patterns.map Prod.fst) value) := by
  obtain ⟨declared, hdeclared, h⟩ := Option.bind_eq_some_iff.mp (Keyword.read?_of_ofMember h)
  obtain ⟨patterns, hpatterns, h⟩ := Option.bind_eq_some_iff.mp h
  obtain ⟨schema, hschema, h⟩ := Option.bind_eq_some_iff.mp h
  rw [Shape.ofSchema, ← names_of_keysUnder hdeclared, ← names_of_keysUnder hpatterns, Json.eq_of_schema? hschema]
  cases h
  rfl

variable {validator : Validator} {rounds : Nat} {base : String} {members : Members} {v : Json}

/-! ## Types -/

/-- **A value that the shape does not admit is complained about.** -/
theorem Validator.mismatch_found (h : members.lookup "$ref" = none)
    (sound : (validator.judgeWith rounds base (.obj members) v).fault? = none)
    (mismatch : (Shape.ofSchema (.obj members)).admits v = false) :
    ∃ names, ⟨.wrongType names, v, [], [.key "type"]⟩ ∈
      (validator.judgeWith rounds base (.obj members) v).violations := by
  obtain ⟨fewer, rfl⟩ := rounds_of_sound sound
  rw [Shape.admits, Shape.types_ofSchema, Bool.or_eq_false_iff] at mismatch
  cases hlookup : members.lookup "type" with
  | none =>
    -- a schema without the keyword admits everything
    rw [hlookup] at mismatch
    exact absurd mismatch.1 (by decide)
  | some t =>
    rw [hlookup] at mismatch
    obtain ⟨k?, hk, hfound⟩ := keyword_found h (mem_keys_of_lookup hlookup) sound
    obtain ⟨-, hfound⟩ := hfound _ (typesIn_of_ofMember hk)
    refine ⟨_, hfound (.here (.wrongType (Shape.typesIn (some t))) v) ?_⟩
    rw [Keyword.judge, Keyword.require, mismatch.2, if_neg Bool.false_ne_true]
    exact List.mem_singleton.mpr rfl

/-! ## Undeclared keys -/

theorem Keyword.select_cons {α : Type} {test : α → Except Fault Bool} {y : α} {rest selected : List α}
    (h : select test (y :: rest) = .ok selected) :
    ∃ chosen others, test y = .ok chosen ∧ select test rest = .ok others ∧
      selected = if chosen then y :: others else others := by
  rw [select] at h
  obtain ⟨chosen, hy, h⟩ := bind_eq_ok.mp h
  obtain ⟨others, hrest, h⟩ := bind_eq_ok.mp h
  cases h
  exact ⟨chosen, others, hy, hrest, rfl⟩

/-- What a selection that ends selects. -/
theorem Keyword.select_eq_filter {α : Type} {test : α → Except Fault Bool} {as chosen : List α}
    (h : select test as = .ok chosen) : chosen = as.filter fun a => (test a).toOption == some true := by
  induction as generalizing chosen with
  | nil =>
    cases h
    rfl
  | cons a as ih =>
    obtain ⟨c, others, hc, hothers, rfl⟩ := select_cons h
    rw [List.filter_cons, hc, ← ih hothers]
    cases c <;> rfl

theorem Keyword.mem_select {α : Type} {test : α → Except Fault Bool} {xs selected : List α}
    (h : select test xs = .ok selected) {x : α} : x ∈ selected ↔ x ∈ xs ∧ test x = .ok true := by
  induction xs generalizing selected with
  | nil =>
    cases h
    simp
  | cons y rest ih =>
    obtain ⟨chosen, others, hy, hrest, rfl⟩ := select_cons h
    have hiff := ih hrest
    constructor
    · intro hx
      cases chosen with
      | true =>
        rw [if_pos rfl] at hx
        rcases List.mem_cons.mp hx with rfl | hx
        · exact ⟨List.mem_cons_self, hy⟩
        · exact ⟨List.mem_cons_of_mem _ (hiff.mp hx).1, (hiff.mp hx).2⟩
      | false =>
        rw [if_neg Bool.false_ne_true] at hx
        exact ⟨List.mem_cons_of_mem _ (hiff.mp hx).1, (hiff.mp hx).2⟩
    · rintro ⟨hx, htest⟩
      rcases List.mem_cons.mp hx with rfl | hx
      · rw [hy] at htest
        cases htest
        exact List.mem_cons_self
      · have hothers : x ∈ others := hiff.mpr ⟨hx, htest⟩
        cases chosen with
        | true => exact List.mem_cons_of_mem _ hothers
        | false => exact hothers

/-- The keys of an object that the keyword for additional properties takes for undeclared. -/
def Shape.extraKeys (s : Shape) (ms : Members) : Except Fault (List String) :=
  Keyword.extraKeys (s.properties.map Prod.fst) (s.patterns.map Prod.fst) ms

/-- Without patterns, no undeclared key is overlooked. -/
theorem Shape.extraKeys_ne_nil {s : Shape} {ms : Members} {key : String} (noPattern : s.patterns = [])
    (hmem : key ∈ ms.map Prod.fst) (undeclared : s.declares key = .ok false) :
    s.extraKeys ms ≠ .ok [] := by
  intro h
  rw [extraKeys, noPattern] at h
  have hextra : key ∈ ([] : List String) := by
    refine (Keyword.mem_select h).mpr ⟨hmem, ?_⟩
    rw [not_contains_of_undeclared undeclared, if_neg Bool.false_ne_true]
    rfl
  cases hextra

/-- **A closed schema settles which keys of an object are extra, and complains where there are any.** -/
theorem Validator.undeclared_found {ms : Members} (h : members.lookup "$ref" = none)
    (sound : (validator.judgeWith rounds base (.obj members) (.obj ms)).fault? = none)
    (closed : (Shape.ofSchema (.obj members)).closed = true) :
    ∃ extras, (Shape.ofSchema (.obj members)).extraKeys ms = .ok extras ∧
      (extras ≠ [] →
        ⟨.undeclared extras ((Shape.ofSchema (.obj members)).properties.map Prod.fst)
            ((Shape.ofSchema (.obj members)).patterns.map Prod.fst),
          .obj ms, [], [.key "additionalProperties"]⟩ ∈
        (validator.judgeWith rounds base (.obj members) (.obj ms)).violations) := by
  obtain ⟨fewer, rfl⟩ := rounds_of_sound sound
  rw [Shape.closed_ofSchema, decide_eq_true_eq] at closed
  obtain ⟨k?, hk, hfound⟩ := keyword_found h (mem_keys_of_lookup closed) sound
  obtain ⟨hsound, hfound⟩ := hfound _ (additional_of_ofMember hk)
  rw [Keyword.judge] at hsound hfound
  obtain ⟨extras, hextras⟩ := Outcome.sound_ofExcept hsound
  refine ⟨extras, hextras, fun hne => hfound (.here (.undeclared extras _ _) (.obj ms)) ?_⟩
  rw [hextras]
  cases extras with
  | nil => exact absurd rfl hne
  | cons key rest => exact List.mem_singleton.mpr rfl

end JsonMend
