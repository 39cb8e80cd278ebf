import JsonMend.Draft7.Complaint
import JsonMend.Fault
/-
  What judging a value comes to.

  Violations are found one after another, and a fault ends the judging where it occurs: what was found
  before it stands, what would have been found behind it is never looked for.  So outcomes are put one
  behind another (`++`) as long as no fault has occurred, and a question that only asks whether there
  is any violation is answered by the first one, whatever comes behind it.
-/
namespace JsonMend

structure Outcome where
  violations : List Violation
  fault? : Option Fault
  deriving DecidableEq

namespace Outcome

/-- Nothing is wrong. -/
def clean : Outcome := ⟨[], none⟩

/-- One thing is wrong with the value at hand. -/
def complain (value : Json) (complaint : Complaint) : Outcome := ⟨[.here complaint value], none⟩

/-- The judging cannot be carried out. -/
def ofFault (fault : Fault) : Outcome := ⟨[], some fault⟩

/-- One outcome behind another. -/
def append (a b : Outcome) : Outcome :=
  match a.fault? with
  | some _ => a
  | none => ⟨a.violations ++ b.violations, b.fault?⟩

instance : Append Outcome := ⟨append⟩

/-- Several outcomes behind one another. -/
def concat (outcomes : List Outcome) : Outcome := outcomes.foldr append clean

/-- An outcome seen from above, by the steps that lead down to it. -/
def under (steps schemaSteps : Position) (o : Outcome) : Outcome :=
  { o with violations := o.violations.map (·.under steps schemaSteps) }

/-- The outcome of a check that depends on something that may fail. -/
def ofExcept {α : Type} (x : Except Fault α) (f : α → Outcome) : Outcome :=
  match x with
  | .ok a => f a
  | .error fault => ofFault fault

/-- Whether nothing is wrong; the first violation settles it. -/
def accepts (o : Outcome) : Except Fault Bool :=
  match o.violations, o.fault? with
  | _ :: _, _ => .ok false
  | [], some fault => .error fault
  | [], none => .ok true

/-- Whether nothing is wrong, asked only when all violations have been found. -/
def acceptsAfterAll (o : Outcome) : Except Fault Bool :=
  match o.fault? with
  | some fault => .error fault
  | none => .ok o.violations.isEmpty

/-! ## Laws -/

theorem append_def (a b : Outcome) : a ++ b =
    match a.fault? with
    | some _ => a
    | none => ⟨a.violations ++ b.violations, b.fault?⟩ := rfl

@[simp] theorem clean_append (o : Outcome) : clean ++ o = o := by simp [append_def, clean]

@[simp] theorem append_clean (o : Outcome) : o ++ clean = o := by
  rcases o with ⟨violations, _ | fault⟩ <;> simp [append_def, clean]

theorem append_assoc (a b c : Outcome) : a ++ b ++ c = a ++ (b ++ c) := by
  rcases a with ⟨va, _ | fa⟩ <;> rcases b with ⟨vb, _ | fb⟩ <;> simp [append_def]

@[simp] theorem concat_nil : concat [] = clean := rfl

@[simp] theorem concat_cons (o : Outcome) (rest : List Outcome) :
    concat (o :: rest) = o ++ concat rest := rfl

theorem concat_append (xs ys : List Outcome) : concat (xs ++ ys) = concat xs ++ concat ys := by
  induction xs with
  | nil => simp
  | cons o rest ih => simp [ih, append_assoc]

theorem under_append (steps schemaSteps : Position) (a b : Outcome) :
    (a ++ b).under steps schemaSteps = a.under steps schemaSteps ++ b.under steps schemaSteps := by
  rcases a with ⟨va, _ | fa⟩ <;> simp [append_def, under]

@[simp] theorem fault?_under (steps schemaSteps : Position) (o : Outcome) :
    (o.under steps schemaSteps).fault? = o.fault? := rfl

/-- The parts of an outcome without a fault have no fault, and their violations are its violations. -/
theorem append_fault?_eq_none {a b : Outcome} :
    (a ++ b).fault? = none ↔ a.fault? = none ∧ b.fault? = none := by
  rcases a with ⟨va, _ | fa⟩ <;> simp [append_def]

theorem append_violations {a b : Outcome} (sound : a.fault? = none) :
    (a ++ b).violations = a.violations ++ b.violations := by
  simp [append_def, sound]

/-- Every violation of several outcomes in turn is a violation of one of them. -/
theorem mem_violations_concat {v : Violation} {outcomes : List Outcome}
    (mem : v ∈ (concat outcomes).violations) : ∃ o ∈ outcomes, v ∈ o.violations := by
  induction outcomes with
  | nil => simp [clean] at mem
  | cons o rest ih =>
    rcases o with ⟨violations, _ | fault⟩
    · simp only [concat_cons, append_def, List.mem_append] at mem
      rcases mem with here | later
      · exact ⟨_, List.mem_cons_self, here⟩
      · obtain ⟨o, mem, found⟩ := ih later
        exact ⟨o, List.mem_cons_of_mem _ mem, found⟩
    · exact ⟨_, List.mem_cons_self, by simpa [append_def] using mem⟩

end Outcome

end JsonMend
