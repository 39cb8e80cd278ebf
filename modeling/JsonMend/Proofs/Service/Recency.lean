import Mathlib.Data.List.Dedup
import Mathlib.Data.List.DropRight
import JsonMend.Proofs.Json.Keys
import JsonMend.Service.RecencyCache
/-
  A cache that forgets beside the record of its uses.

  Ideally the keys of a cache for `n` entries are read off the record of all uses so far: each key at its
  last use, and of these the last `n` (`recentKeys`).  The cache itself keeps no record; it moves a key that
  is found to the end, puts a new one there, and drops at most one at the front.

  1. **The ideal step** (`recentKeys_concat`) — one more use is seen already in the recent keys: the key goes
     to the end, and again the last `n` are kept.  Here it matters that the keys are distinct: taking the key
     out of the last `n + 1` leaves at least `n`.
  2. **The cache's step** (`Mirrors.touch`, `Mirrors.insert`) — finding a key and storing a new one are both
     this step.
-/
namespace JsonMend

/-! ## The ideal -/

/-- The last `n` distinct keys of a record of uses, in the order of their last use. -/
def recentKeys (n : Nat) (uses : List String) : List String := uses.dedup.rtake n

variable {key : String} {keys uses : List String} {n : Nat}

theorem dedup_concat (uses : List String) (key : String) :
    (uses ++ [key]).dedup = uses.dedup.filter (· != key) ++ [key] := by
  induction uses with
  | nil => rfl
  | cons k rest ih =>
    rw [List.cons_append]
    by_cases hrest : k ∈ rest
    · rw [List.dedup_cons_of_mem (List.mem_append_left _ hrest), List.dedup_cons_of_mem hrest, ih]
    by_cases hkey : k = key
    · -- the key has its last use now
      subst hkey
      rw [List.dedup_cons_of_mem (by simp), List.dedup_cons_of_notMem hrest, ih, List.filter_cons]
      simp
    · rw [List.dedup_cons_of_notMem (by simp [hrest, hkey]), List.dedup_cons_of_notMem hrest, ih,
        List.filter_cons]
      simp [hkey]

theorem rtake_append_of_le {front back : List String} (h : n ≤ back.length) :
    (front ++ back).rtake n = back.rtake n := by
  have hlength : (front ++ back).length - n = front.length + (back.length - n) := by
    rw [List.length_append]
    omega
  rw [List.rtake, List.rtake, hlength, List.drop_append]
  simp

theorem rtake_of_length_le (h : keys.length ≤ n) : keys.rtake n = keys := by
  rw [List.rtake, Nat.sub_eq_zero_of_le h, List.drop_zero]

theorem length_le_filter_ne (distinct : keys.Nodup) :
    keys.length ≤ (keys.filter (· != key)).length + 1 := by
  rw [← distinct.erase_eq_filter]
  by_cases hkey : key ∈ keys
  · rw [List.length_erase_of_mem hkey]
    omega
  · rw [List.erase_of_not_mem hkey]
    omega

/-- Taking a key out before or behind the cut: of the last `n + 1` keys at least `n` are others. -/
theorem rtake_filter_ne (distinct : keys.Nodup) :
    (keys.filter (· != key)).rtake n = ((keys.rtake (n + 1)).filter (· != key)).rtake n := by
  rcases Nat.le_total keys.length (n + 1) with hshort | hlong
  · rw [rtake_of_length_le hshort]
  have hsplit : keys.rdrop (n + 1) ++ keys.rtake (n + 1) = keys := by
    rw [List.rdrop, List.rtake, List.take_append_drop]
  have hback : (keys.rtake (n + 1)).Nodup := distinct.sublist (List.drop_sublist _ _)
  have hlength : (keys.rtake (n + 1)).length = n + 1 := by
    rw [List.rtake, List.length_drop]
    omega
  have hothers : (keys.rtake (n + 1)).length ≤ ((keys.rtake (n + 1)).filter (· != key)).length + 1 :=
    length_le_filter_ne hback
  conv_lhs => rw [← hsplit, List.filter_append]
  exact rtake_append_of_le (by omega)

/-- **One more use.**  The key goes to the end of the recent keys, and the last `n` are kept. -/
theorem recentKeys_concat (n : Nat) (uses : List String) (key : String) :
    recentKeys n (uses ++ [key]) = ((recentKeys n uses).filter (· != key) ++ [key]).rtake n := by
  rw [recentKeys, recentKeys, dedup_concat]
  cases n with
  | zero => rw [List.rtake_zero, List.rtake_zero]
  | succ n =>
    rw [List.rtake_concat_succ, List.rtake_concat_succ, rtake_filter_ne uses.nodup_dedup]

theorem length_recentKeys_le : (recentKeys n uses).length ≤ n := by
  rw [recentKeys, List.rtake, List.length_drop]
  omega

/-! ## The cache -/

namespace RecencyCache

variable {α : Type} {c : RecencyCache α}

/-- The keys of a cache are the recent ones of a record of uses.  A limit below zero is a limit of zero. -/
def Mirrors (c : RecencyCache α) (uses : List String) : Prop :=
  c.keys = recentKeys c.limit.toNat uses

theorem mirrors_empty (limit : Int) : (empty limit : RecencyCache α).Mirrors [] := by
  rw [Mirrors, recentKeys, List.dedup_nil, List.rtake_nil]
  rfl

theorem mem_keys_iff : key ∈ c.keys ↔ ∃ v, c.find? key = some v := by
  rw [← Option.isSome_iff_exists]
  exact hasKey_iff.symm

@[simp] theorem limit_touch (c : RecencyCache α) (key : String) : (c.touch key).limit = c.limit := by
  unfold touch
  split <;> rfl

@[simp] theorem limit_insert (c : RecencyCache α) (key : String) (v : α) :
    (c.insert key v).limit = c.limit := rfl

/-- Finding a key is a use of it: nothing is forgotten. -/
theorem Mirrors.touch (h : c.Mirrors uses) (held : key ∈ c.keys) :
    (c.touch key).Mirrors (uses ++ [key]) := by
  have hlength : (c.keys.filter (· != key) ++ [key]).length ≤ c.limit.toNat := by
    have hlimit : c.keys.length ≤ c.limit.toNat := h ▸ length_recentKeys_le
    have hgone : (c.keys.filter (· != key)).length < c.keys.length := by
      rw [List.length_filter_lt_length_iff_exists]
      exact ⟨key, held, by simp⟩
    rw [List.length_append, List.length_singleton]
    omega
  rw [Mirrors, limit_touch, keys_touch, if_pos held, recentKeys_concat, ← h]
  exact (rtake_of_length_le hlength).symm

/-- Storing a new key is a use of it: if there are too many, one is forgotten, and it is the oldest. -/
theorem Mirrors.insert (h : c.Mirrors uses) (unheld : key ∉ c.keys) (v : α) :
    (c.insert key v).Mirrors (uses ++ [key]) := by
  have hlimit : c.keys.length ≤ c.limit.toNat := h ▸ length_recentKeys_le
  have hothers : c.keys.filter (· != key) = c.keys := by
    refine List.filter_eq_self.mpr fun k hk => ?_
    rw [bne_iff_ne]
    rintro rfl
    exact unheld hk
  have hlength : (c.keys ++ [key]).length = c.keys.length + 1 := by simp
  rw [Mirrors, limit_insert, keys_insert, if_neg unheld, recentKeys_concat, ← h, hothers]
  dsimp only
  split
  · -- one key too many, so the limit was reached before
    have hexcess : (c.keys ++ [key]).length - c.limit.toNat = 1 := by omega
    rw [List.rtake, hexcess]
  · exact (rtake_of_length_le (by omega)).symm

end RecencyCache

end JsonMend
