import JsonMend.Repair.Prune
import JsonMend.Repair.Coerce
import JsonMend.Repair.Defaults
/-
  The whole repair of a value: forbidden properties are dropped, scalars are given right types, and
  gaps are filled, each step working on what the one before it left.
-/
namespace JsonMend

def mend (s : Shape) (v : Json) : Changed Json := do
  let pruned ← prune s v
  let coerced ← coerce s pruned
  applyDefaults s coerced

end JsonMend
