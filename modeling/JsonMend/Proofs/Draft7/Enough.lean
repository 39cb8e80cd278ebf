import Mathlib.Order.Monotone.Basic
import JsonMend.Proofs.Draft7.Closed
/-
  The rounds are enough.

  A judging is given rounds in proportion to the depth of the value and to the square of the size of the documents.
  Where it can only stand at few places, every judging that ends at all ends within them.

  1. **Questions** (`Settles`) — at each place two things can be asked: the whole outcome, or only whether anything is
     wrong.  A question that is settled stays settled (`Settles.more`).
  2. **Rest** (`Rests`) — one more round settles no further question about a value.  Since a keyword consults places
     only, rest lasts, once the less deep parts are at rest as well (`rests_succ`).
  3. **Counting** (`rests_of_le`) — so the number of settled questions grows in each round until it rests, and it
     cannot grow beyond the number of questions; by induction on the depth of the value.
  4. **The result** (`judgeBy_enough`) — so the bound on the rounds breaks off no judging that would end
     (`judge_enough`, `judge_enough_of_named`).
-/
namespace JsonMend

/-- Where two tests count alike and one implies the other, they are one. -/
theorem imp_of_countP_le {α : Type} {l : List α} {p q : α → Bool} (imp : ∀ a ∈ l, p a = true → q a = true)
    (count : l.countP q ≤ l.countP p) : ∀ a ∈ l, q a = true → p a = true := by
  induction l with
  | nil => exact fun a ha => absurd ha List.not_mem_nil
  | cons x rest ih =>
    rw [List.forall_mem_cons] at imp
    have hrest : rest.countP p ≤ rest.countP q := List.countP_mono_left imp.2
    rw [List.countP_cons, List.countP_cons] at count
    rw [List.forall_mem_cons]
    have himp := imp.1
    constructor
    · intro hq
      rw [if_pos hq] at count
      by_contra hp
      rw [if_neg hp] at count
      omega
    · refine ih imp.2 ?_
      by_cases hp : p x = true
      · rw [if_pos hp, if_pos (himp hp)] at count
        omega
      · rw [if_neg hp] at count
        omega

namespace Validator

variable {validator : Validator} {v x : Json} {rounds rounds' : Nat} {base : String} {places : List (String × Json)}
  {draft : Draft} {schema : Json}

/-! ## Questions -/

/-- Whether a question is settled in a number of rounds: at a place, by a draft, either the whole outcome is asked or
only whether anything is wrong. -/
def Settles (validator : Validator) (v : Json) (rounds : Nat) : Bool × Draft × String × Json → Prop
  | (true, draft, base, schema) => (validator.judgeBy rounds draft base schema v).fault? ≠ some .endlessReference
  | (false, draft, base, schema) => (validator.judgeBy rounds draft base schema v).accepts ≠ .error .endlessReference

/-- Both questions for each draft at each place. -/
def questions (places : List (String × Json)) : List (Bool × Draft × String × Json) :=
  [true, false] ×ˢ Draft.all ×ˢ places

theorem length_questions (places : List (String × Json)) :
    (questions places).length = 2 * (Draft.all.length * places.length) := by
  rw [questions, List.length_product, List.length_product]
  rfl

theorem mem_questions (whole : Bool) (draft : Draft) (hplace : (base, schema) ∈ places) :
    (whole, draft, base, schema) ∈ questions places :=
  List.mem_product.mpr ⟨by cases whole <;> simp,
    List.mem_product.mpr ⟨by cases draft <;> decide, hplace⟩⟩

/-- What is settled stays settled. -/
theorem Settles.more {q : Bool × Draft × String × Json} (h : validator.Settles v rounds q) (more : rounds ≤ rounds') :
    validator.Settles v rounds' q := by
  obtain ⟨whole, draft, base, schema⟩ := q
  have hkeeps : (validator.judgeBy rounds draft base schema v).Keeps (validator.judgeBy rounds' draft base schema v) :=
    judgeBy_keeps more
  cases whole with
  | true =>
    show (validator.judgeBy rounds' draft base schema v).fault? ≠ _
    rw [hkeeps.whole h]
    exact h
  | false =>
    show (validator.judgeBy rounds' draft base schema v).accepts ≠ _
    rw [hkeeps.verdict h]
    exact h

/-! ## Rest -/

/-- One more round settles no further question about a value. -/
def Rests (validator : Validator) (places : List (String × Json)) (v : Json) (rounds : Nat) : Prop :=
  ∀ draft base schema, (base, schema) ∈ places →
    (validator.judgeBy (rounds + 1) draft base schema v).Keeps (validator.judgeBy rounds draft base schema v)

theorem rests_of_settles (h : ∀ q ∈ questions places, validator.Settles v (rounds + 1) q →
    validator.Settles v rounds q) : validator.Rests places v rounds := by
  intro draft base schema hplace
  have hkeeps : (validator.judgeBy rounds draft base schema v).Keeps (validator.judgeBy (rounds + 1) draft base schema v) :=
    judgeBy_keeps (Nat.le_succ rounds)
  constructor
  · intro hheld
    exact (hkeeps.whole (h _ (mem_questions true draft hplace) hheld)).symm
  · intro hheld
    exact (hkeeps.verdict (h _ (mem_questions false draft hplace) hheld)).symm

theorem Rests.settles {q : Bool × Draft × String × Json} (h : validator.Rests places v rounds) (asked : q ∈ questions places)
    (settled : validator.Settles v (rounds + 1) q) : validator.Settles v rounds q := by
  obtain ⟨whole, draft, base, schema⟩ := q
  have hkeeps := h draft base schema (List.mem_product.mp (List.mem_product.mp asked).2).2
  cases whole with
  | true =>
    show (validator.judgeBy rounds draft base schema v).fault? ≠ _
    rw [hkeeps.whole settled]
    exact settled
  | false =>
    show (validator.judgeBy rounds draft base schema v).accepts ≠ _
    rw [hkeeps.verdict settled]
    exact settled

/-- **Rest lasts**, once the less deep parts are at rest as well. -/
theorem rests_succ (closed : validator.registry.Closed fun base s => (base, s) ∈ places) (some : 0 < rounds)
    (smaller : ∀ x : Json, x.depth < v.depth → validator.Rests places x rounds) (h : validator.Rests places v rounds) :
    validator.Rests places v (rounds + 1) := by
  intro draft base schema hplace
  cases schema with
  | obj members =>
    refine judgeMembers_keeps fun name value r inside schema x hmem hr hconsults => ?_
    obtain ⟨hstands, hpart⟩ := closed.consults hplace (mem_of_applicable hmem) hr hconsults
    rcases hstands with hstands | ⟨c, rfl⟩
    · rcases hpart with rfl | hpart
      · exact h _ inside schema hstands
      · exact smaller x hpart _ inside schema hstands
    · -- a character is no schema, which any round settles
      obtain ⟨fewer, rfl⟩ := Nat.exists_eq_succ_of_ne_zero (Nat.ne_of_gt some)
      exact .refl _
  | bool b => cases b <;> exact .refl _
  | null | num | str | arr => exact .refl _

/-! ## Counting -/

open Classical in
/-- How many questions are settled in a number of rounds. -/
noncomputable def settledCount (validator : Validator) (places : List (String × Json)) (v : Json)
    (rounds : Nat) : Nat :=
  (questions places).countP fun q => decide (validator.Settles v rounds q)

theorem settledCount_le : validator.settledCount places v rounds ≤ (questions places).length :=
  List.countP_le_length

theorem settledCount_mono : Monotone (validator.settledCount places v) := by
  classical
  refine monotone_nat_of_le_succ fun rounds => List.countP_mono_left fun q _ hq => ?_
  exact decide_eq_true ((of_decide_eq_true hq).more (Nat.le_succ _))

/-- The judging of a value rests exactly where one more round settles no more questions. -/
theorem rests_iff_settledCount : validator.Rests places v rounds ↔
    validator.settledCount places v rounds = validator.settledCount places v (rounds + 1) := by
  classical
  constructor
  · intro hrest
    refine Nat.le_antisymm (settledCount_mono (Nat.le_succ rounds)) ?_
    refine List.countP_mono_left fun q hq hnext => ?_
    exact decide_eq_true (hrest.settles hq (of_decide_eq_true hnext))
  · intro hsame
    refine rests_of_settles fun q hq hnext => of_decide_eq_true ?_
    exact imp_of_countP_le
      (fun q _ hq => decide_eq_true ((of_decide_eq_true hq).more (Nat.le_succ _))) hsame.ge q hq
      (decide_eq_true hnext)

/-- **After enough rounds the judging of a value rests.** -/
theorem rests_of_le (closed : validator.registry.Closed fun base s => (base, s) ∈ places) (v : Json)
    (enough : (questions places).length * (v.depth + 1) + 1 ≤ rounds) : validator.Rests places v rounds := by
  induction hdepth : v.depth using Nat.strong_induction_on generalizing v rounds with
  | _ depth ih =>
    subst hdepth
    -- from this round on, the less deep parts are at rest
    let start := (questions places).length * v.depth + 1
    have hsmaller : ∀ {n}, start ≤ n → ∀ x : Json, x.depth < v.depth → validator.Rests places x n := by
      intro n hn x hx
      refine ih x.depth hx x (Nat.le_trans (Nat.succ_le_succ (Nat.mul_le_mul_left _ hx)) hn) rfl
    -- so the count, once it stops, has stopped for good, and it cannot grow beyond all questions
    let settled (n : Nat) : Nat := validator.settledCount places v (start + n)
    have hmono : Monotone settled := fun _ _ hle => settledCount_mono (Nat.add_le_add_left hle start)
    have hstable : ∀ n, settled n = settled (n + 1) → settled (n + 1) = settled (n + 2) := by
      intro n hsame
      have hrest := rests_succ closed (Nat.lt_add_right n (Nat.succ_pos _))
        (hsmaller (Nat.le_add_right _ _)) (rests_iff_settledCount.mpr hsame)
      exact rests_iff_settledCount.mp hrest
    have hbound : ∀ n, settled n ≤ (questions places).length := fun _ => settledCount_le
    have hsplit : start + (questions places).length ≤ rounds := by
      rw [Nat.mul_succ] at enough
      exact (Nat.add_right_comm _ _ _).trans_le enough
    obtain ⟨n, rfl⟩ := Nat.exists_eq_add_of_le (Nat.le_of_add_right_le hsplit)
    have hn : (questions places).length ≤ n := Nat.le_of_add_le_add_left hsplit
    refine rests_iff_settledCount.mpr ?_
    calc settled n = settled ((questions places).length) :=
          Nat.stabilises_of_monotone hmono hbound hstable hn
      _ = settled (n + 1) :=
          (Nat.stabilises_of_monotone hmono hbound hstable (Nat.le_succ_of_le hn)).symm

/-! ## The result -/

theorem rests_le_fuelFor
    (few : 2 * places.length < (validator.registry.size + 2) * (validator.registry.size + 2)) (v : Json) :
    (questions places).length * (v.depth + 1) + 1 ≤ validator.fuelFor v := by
  have hquestions : (questions places).length + 1 ≤
      Draft.all.length * ((validator.registry.size + 2) * (validator.registry.size + 2)) := by
    calc (questions places).length + 1
        = Draft.all.length * (2 * places.length) + 1 := by rw [length_questions, Nat.mul_left_comm]
      _ ≤ Draft.all.length * (2 * places.length) + Draft.all.length := Nat.add_le_add_left (by decide) _
      _ ≤ Draft.all.length * ((validator.registry.size + 2) * (validator.registry.size + 2)) :=
        Nat.mul_le_mul_left _ few
  calc (questions places).length * (v.depth + 1) + 1
      ≤ (questions places).length * (v.depth + 1) + (v.depth + 1) := Nat.add_le_add_left (Nat.succ_pos _) _
    _ = ((questions places).length + 1) * (v.depth + 1) := by rw [Nat.add_mul, Nat.one_mul]
    _ ≤ Draft.all.length * ((validator.registry.size + 2) * (validator.registry.size + 2)) * (v.depth + 2) :=
      Nat.mul_le_mul hquestions (Nat.le_succ _)
    _ = validator.fuelFor v := Nat.mul_comm _ _

/-- **A judging that ends in any number of rounds ends in those that are given**, at every place, if the places are few
beside the square of the size. -/
theorem judgeBy_enough (closed : validator.registry.Closed fun base s => (base, s) ∈ places)
    (few : 2 * places.length < (validator.registry.size + 2) * (validator.registry.size + 2))
    (hplace : (base, schema) ∈ places) :
    (validator.judgeBy rounds draft base schema v).Keeps
      (validator.judgeBy (validator.fuelFor v) draft base schema v) := by
  rcases Nat.le_total rounds (validator.fuelFor v) with hle | hle
  · exact judgeBy_keeps hle
  · -- each round behind those that are given settles nothing further
    induction rounds, hle using Nat.le_induction with
    | base => exact .refl _
    | succ rounds hle ih =>
      exact (rests_of_le closed v ((rests_le_fuelFor few v).trans hle) draft base schema hplace).trans ih

variable {formats : Bool} {uris : List String} {root : Json}

/-- Where the URIs are few, so are the places that they make. -/
theorem few_places {r : Registry} (few : 2 * uris.length ≤ r.size + 4) :
    2 * (r.places uris).length < (r.size + 2) * (r.size + 2) := by
  rw [Registry.length_places, ← Nat.mul_assoc]
  calc 2 * uris.length * r.size ≤ (r.size + 4) * r.size := Nat.mul_le_mul_right _ few
    _ < (r.size + 2) * (r.size + 2) := by
      rw [Nat.add_mul, Nat.add_mul, Nat.mul_add, Nat.mul_add]
      omega

/-- **A judging of a value that ends in any number of rounds ends in those that are given**, where no identifier leads
out of a list of URIs that is short beside the documents. -/
theorem judge_enough (closed : (ofSchema formats root).registry.ClosedUris uris)
    (few : 2 * uris.length ≤ (ofSchema formats root).registry.size + 4) :
    ((ofSchema formats root).judgeWith rounds (ofSchema formats root).registry.rootUri root v).Keeps
      ((ofSchema formats root).judge v) := by
  refine judgeBy_enough (Registry.closed_of_uris closed) (few_places few) (List.mem_product.mpr ⟨?_, ?_⟩)
  · exact closed.held _ List.mem_cons_self
  · exact Registry.mem_allParts_of_root (Json.self_mem_parts _)

/-- A document that is known beforehand has no identifier inside. -/
theorem knownDocuments_unnamed : ∀ p ∈ knownDocuments, ∀ s ∈ p.2.innerParts, identifier? s = none := by
  decide +kernel

/-- So it is where only the root has an identifier: the URIs are those of the root and of the metaschema. -/
theorem judge_enough_of_named (named : root.NamedOnce) :
    ((ofSchema formats root).judgeWith rounds (ofSchema formats root).registry.rootUri root v).Keeps
      ((ofSchema formats root).judge v) :=
  judge_enough (named.closedUris knownDocuments_unnamed) (Nat.le_add_left 4 _)

end Validator

end JsonMend
