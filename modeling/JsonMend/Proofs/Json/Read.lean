import JsonMend.Recovery.Basic
import JsonMend.Proofs.Json.Keys
/-
  What is read from a text has distinct keys.

  1. **Members** (`collectMembers_distinct`) — a key that is assigned twice keeps its place, so the pairs of
     an object leave each key once, whatever was written; pairs with distinct keys are left as they are.
  2. **Readers** (`read_distinct`) — by induction on the fuel, for the three readers at once.
  3. **Recovery** (`recovered_distinct`) — a value is read strictly in the end, corrected or not.
-/
namespace JsonMend

/-! ## Members -/

theorem assign_distinct {α : Type} {key : String} {value : α} {members : List (String × α)}
    (h : (members.map Prod.fst).Nodup) : ((assign key value members).map Prod.fst).Nodup := by
  rw [keys_assign]
  split
  · exact h
  · rename_i hnew
    refine List.nodup_append.mpr ⟨h, List.pairwise_singleton _ _, ?_⟩
    rintro k hk _ hkey rfl
    rw [List.mem_singleton.mp hkey] at hk
    exact hnew hk

theorem mem_assign {α : Type} {key : String} {value : α} {members : List (String × α)}
    {m : String × α} (h : m ∈ assign key value members) : m = (key, value) ∨ m ∈ members := by
  induction members with
  | nil => exact .inl (List.mem_singleton.mp h)
  | cons head rest ih =>
    obtain ⟨k, v⟩ := head
    rw [assign] at h
    split at h
    · rename_i hkey
      rw [hkey] at h
      rcases List.mem_cons.mp h with rfl | h
      · exact .inl rfl
      · exact .inr (List.mem_cons_of_mem _ h)
    · rcases List.mem_cons.mp h with rfl | h
      · exact .inr List.mem_cons_self
      · exact (ih h).imp id (List.mem_cons_of_mem _)

/-- The members that pairs leave have distinct keys, and each is one of the pairs. -/
theorem collectMembers_distinct {α : Type} (pairs : List (String × α)) :
    ((collectMembers pairs).map Prod.fst).Nodup ∧ ∀ m ∈ collectMembers pairs, m ∈ pairs := by
  -- along the pairs, over the members that were collected before
  have hfold : ∀ (rest members : List (String × α)), (members.map Prod.fst).Nodup →
      ((rest.foldl (fun ms pair => assign pair.1 pair.2 ms) members).map Prod.fst).Nodup ∧
        ∀ m ∈ rest.foldl (fun ms pair => assign pair.1 pair.2 ms) members,
          m ∈ members ∨ m ∈ rest := by
    intro rest
    induction rest with
    | nil => exact fun members h => ⟨h, fun m hm => .inl hm⟩
    | cons pair rest ih =>
      intro members h
      obtain ⟨hkeys, hfrom⟩ := ih (assign pair.1 pair.2 members) (assign_distinct h)
      refine ⟨hkeys, fun m hm => ?_⟩
      rcases hfrom m hm with hm | hm
      · rcases mem_assign hm with rfl | hm
        · exact .inr List.mem_cons_self
        · exact .inl hm
      · exact .inr (List.mem_cons_of_mem _ hm)
  obtain ⟨hkeys, hfrom⟩ := hfold pairs [] List.nodup_nil
  exact ⟨hkeys, fun m hm => (hfrom m hm).resolve_left List.not_mem_nil⟩

/-- Pairs with distinct keys are left as they are. -/
theorem collectMembers_of_nodup {α : Type} {pairs : List (String × α)} (h : (pairs.map Prod.fst).Nodup) :
    collectMembers pairs = pairs := by
  have hfold : ∀ (rest members : List (String × α)), ((members ++ rest).map Prod.fst).Nodup →
      rest.foldl (fun ms pair => assign pair.1 pair.2 ms) members = members ++ rest := by
    intro rest
    induction rest with
    | nil => exact fun members _ => (List.append_nil members).symm
    | cons pair rest ih =>
      intro members hkeys
      have hnew : pair.1 ∉ members.map Prod.fst := by
        rw [List.map_append, List.map_cons] at hkeys
        exact fun hmem => (List.nodup_append.mp hkeys).2.2 _ hmem _ List.mem_cons_self rfl
      have hassign : assign pair.1 pair.2 members = members ++ [pair] := by
        have happend : assign pair.1 pair.2 (members ++ []) = members ++ [pair] := assign_append_of_not_mem hnew
        rwa [List.append_nil] at happend
      rw [List.foldl_cons, hassign, ih _ (by rwa [List.append_assoc]), List.append_assoc]
      rfl
  exact hfold pairs [] h

/-! ## Readers -/

/-- What each of the readers has read has distinct keys. -/
theorem read_distinct (fuel : Nat) :
    (∀ {text v rest}, readValue fuel text = some (v, rest) → v.Distinct) ∧
    (∀ {text xs rest}, readItems fuel text = some (xs, rest) → ∀ x ∈ xs, x.Distinct) ∧
    (∀ {text ms rest}, readMembers fuel text = some (ms, rest) → ∀ m ∈ ms, m.2.Distinct) := by
  induction fuel with
  | zero =>
    refine ⟨?_, ?_, ?_⟩
    · intro text v rest h; cases h
    · intro text xs rest h; cases h
    · intro text ms rest h; cases h
  | succ fuel ih =>
    obtain ⟨hvalue, hitems, hmembers⟩ := ih
    refine ⟨?_, ?_, ?_⟩
    · intro text v rest h
      rw [readValue.eq_def] at h
      dsimp only at h
      split at h
      · cases h; exact .null
      · cases h; exact .bool true
      · cases h; exact .bool false
      · obtain ⟨_, -, heq⟩ := Option.map_eq_some_iff.mp h
        cases heq
        exact .str _
      · split at h
        · cases h
          exact .arr fun _ hx => absurd hx List.not_mem_nil
        · obtain ⟨⟨items, after⟩, hread, heq⟩ := Option.map_eq_some_iff.mp h
          cases heq
          exact .arr (hitems hread)
      · split at h
        · cases h
          exact .obj List.nodup_nil fun _ hm => absurd hm List.not_mem_nil
        · obtain ⟨⟨pairs, after⟩, hread, heq⟩ := Option.map_eq_some_iff.mp h
          cases heq
          obtain ⟨hkeys, hfrom⟩ := collectMembers_distinct pairs
          exact .obj hkeys fun m hm => hmembers hread m (hfrom m hm)
      · obtain ⟨_, -, heq⟩ := Option.map_eq_some_iff.mp h
        cases heq
        exact .num _
    · intro text xs rest h
      rw [readItems] at h
      obtain ⟨⟨item, after⟩, hitem, h⟩ := Option.bind_eq_some_iff.mp h
      have hfirst := hvalue hitem
      dsimp only at h
      split at h
      · cases h
        exact List.forall_mem_singleton.mpr hfirst
      · obtain ⟨⟨items, final⟩, hread, h⟩ := Option.bind_eq_some_iff.mp h
        cases h
        exact List.forall_mem_cons.mpr ⟨hfirst, hitems hread⟩
      · cases h
    · intro text ms rest h
      rw [readMembers.eq_def] at h
      dsimp only at h
      split at h
      · obtain ⟨⟨key, afterKey⟩, -, h⟩ := Option.bind_eq_some_iff.mp h
        dsimp only at h
        split at h
        · obtain ⟨⟨value, after⟩, hread, h⟩ := Option.bind_eq_some_iff.mp h
          have hfirst := hvalue hread
          dsimp only at h
          split at h
          · cases h
            exact List.forall_mem_singleton.mpr hfirst
          · obtain ⟨⟨members, final⟩, hlater, h⟩ := Option.bind_eq_some_iff.mp h
            cases h
            exact List.forall_mem_cons.mpr ⟨hfirst, hmembers hlater⟩
          · cases h
        · cases h
      · cases h

theorem parseChars?_distinct {text : List Char} {v : Json} (h : Json.parseChars? text = some v) :
    v.Distinct := by
  obtain ⟨⟨value, rest⟩, hread, h⟩ := Option.bind_eq_some_iff.mp h
  dsimp only at h
  split at h
  · cases h
    exact (read_distinct _).1 hread
  · cases h

/-! ## Recovery -/

/-- A value that was recovered from a text has distinct keys. -/
theorem recovered_distinct {text : String} {v : Json} (h : (Recovery.ofText text).value? = some v) :
    v.Distinct := by
  rw [Recovery.ofText, Recovery.ofChars] at h
  split at h
  · rename_i hparsed
    cases h
    exact parseChars?_distinct hparsed
  · split at h
    · rename_i hparsed
      cases h
      exact parseChars?_distinct hparsed
    · cases h

end JsonMend
