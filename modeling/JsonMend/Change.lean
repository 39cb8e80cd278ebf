import JsonMend.Pointer
import JsonMend.Fault
/-
  Changes that a repair makes, and the steps that make them.

  A change says where it was made, what was done and why.  A pass over a value gives the new value
  and the changes at places relative to it; a visitor of items or members moves the changes of each
  part under the step that leads there.  So no pass ever handles a path, and the changes of a part do
  not depend on where the part stands.
-/
namespace JsonMend

/-! ## Changes -/

/-- What is done at a place. -/
inductive Edit where
  | removed (value : Json)
  | added (value : Json) (before : Option Json)
  | coerced (before after : Json)
  | defaulted (value : Json) (before : Option Json)
  deriving DecidableEq

namespace Edit

def action : Edit → String
  | .removed _ => "removed"
  | .added _ _ => "added"
  | .coerced _ _ => "coerced"
  | .defaulted _ _ => "defaulted"

/-- The value that was there, where there was one. -/
def before? : Edit → Option Json
  | .removed value => some value
  | .added _ before => before
  | .coerced before _ => some before
  | .defaulted _ before => before

/-- The value that is there now, where there is one. -/
def after? : Edit → Option Json
  | .removed _ => none
  | .added value _ => some value
  | .coerced _ after => some after
  | .defaulted value _ => some value

end Edit

structure Change where
  place : Position
  edit : Edit
  reason : String
  deriving DecidableEq

namespace Change

/-- A change at the place itself. -/
def here (edit : Edit) (reason : String) : Change := ⟨[], edit, reason⟩

/-- The same change seen from one step above. -/
def under (step : Segment) (c : Change) : Change := { c with place := step :: c.place }

/-- A change as a ledger shows it, places being below a given pointer. -/
def toJson (base : String) (c : Change) : Json :=
  let optional (key : String) : Option Json → Members
    | some v => [(key, v)]
    | none => []
  .obj ([("path", .str (Pointer.display (Pointer.below base c.place))),
      ("action", .str c.edit.action)] ++
    optional "from" c.edit.before? ++ optional "to" c.edit.after? ++ [("reason", .str c.reason)])

end Change

/-! ## Passes -/

/-- A result together with the changes made on the way to it, or the fault that ended the way. -/
def Changed (α : Type) : Type := Except Fault (α × List Change)

namespace Changed

/-- The result and the changes, or the fault. -/
def run {α : Type} (x : Changed α) : Except Fault (α × List Change) := x

/-- One step behind another: their changes follow each other. -/
def andThen {α β : Type} (x : Changed α) (f : α → Changed β) : Changed β :=
  match x with
  | .error fault => .error fault
  | .ok (a, earlier) =>
    match f a with
    | .error fault => .error fault
    | .ok (b, later) => .ok (b, earlier ++ later)

instance : Monad Changed where
  pure a := .ok (a, [])
  bind := andThen

/-- A step that changes nothing but may fail. -/
def ofExcept {α : Type} : Except Fault α → Changed α
  | .error fault => .error fault
  | .ok a => .ok (a, [])

instance : MonadLift (Except Fault) Changed := ⟨ofExcept⟩

/-- Makes a change at the place itself. -/
def record (edit : Edit) (reason : String) : Changed Unit := .ok ((), [.here edit reason])

/-- A step carried out one step further down. -/
def under {α : Type} (step : Segment) (x : Changed α) : Changed α :=
  match x with
  | .error fault => .error fault
  | .ok (a, changes) => .ok (a, changes.map (·.under step))

/-- Runs a step on each item of an array, the first of which has the given index. -/
def items (step : Json → Changed Json) : Nat → List Json → Changed (List Json)
  | _, [] => pure []
  | i, x :: xs => do
    let x' ← under (.index i) (step x)
    let xs' ← items step (i + 1) xs
    return x' :: xs'

/-- Runs a step on each member of an object; the step may drop the member. -/
def members (step : String → Json → Changed (Option Json)) : Members → Changed Members
  | [] => pure []
  | (key, v) :: rest => do
    let v' ← under (.key key) (step key v)
    let rest' ← members step rest
    match v' with
    | some v' => return (key, v') :: rest'
    | none => return rest'

/-! ### What the steps come to -/

theorem run_pure {α : Type} (a : α) : (pure a : Changed α).run = .ok (a, []) := rfl

theorem run_bind {α β : Type} (x : Changed α) (f : α → Changed β) :
    (x >>= f).run = x.run.bind fun (a, earlier) =>
      (f a).run.map fun (b, later) => (b, earlier ++ later) := by
  show andThen x f = _
  cases x with
  | error fault => rfl
  | ok result =>
    obtain ⟨a, earlier⟩ := result
    simp only [andThen, run, Except.bind]
    cases f a <;> rfl

theorem andThen_pure {α : Type} (x : Changed α) : andThen x pure = x := by
  cases x with
  | error fault => rfl
  | ok result => simp [andThen, pure]; rfl

theorem pure_andThen {α β : Type} (a : α) (f : α → Changed β) : andThen (pure a) f = f a := by
  simp only [andThen, pure]
  cases f a <;> simp <;> rfl

theorem andThen_assoc {α β γ : Type} (x : Changed α) (f : α → Changed β) (g : β → Changed γ) :
    andThen (andThen x f) g = andThen x fun a => andThen (f a) g := by
  cases x with
  | error fault => rfl
  | ok result =>
    obtain ⟨a, earlier⟩ := result
    simp only [andThen]
    cases f a with
    | error fault => rfl
    | ok result =>
      obtain ⟨b, later⟩ := result
      simp only
      cases g b <;> simp <;> rfl

instance : LawfulMonad Changed := LawfulMonad.mk' Changed andThen_pure pure_andThen andThen_assoc

end Changed

/-! ## Running it -/

example : (Change.under (.key "a") (.here (.coerced (.str "1") (.num (.int 1))) "r")).toJson "" =
    .obj [("path", .str "/a"), ("action", .str "coerced"), ("from", .str "1"),
      ("to", .num (.int 1)), ("reason", .str "r")] := by decide +kernel

end JsonMend
