import JsonMend.Service.Session
import JsonMend.Service.Tool
import JsonMend.Proofs.Repair.Runs
import JsonMend.Proofs.Shape.Walk
import JsonMend.Proofs.Repair.Parts
import JsonMend.Proofs.Repair.Passes
import JsonMend.Proofs.Ledger.Replay
import JsonMend.Proofs.Repair.Scalar
import JsonMend.Proofs.Shape.Schema
import JsonMend.Proofs.Repair.Keys
import JsonMend.Proofs.Ledger.Script
import JsonMend.Proofs.Ledger.Licence
import JsonMend.Proofs.Repair.Settled
import JsonMend.Proofs.Draft7.Judging
import JsonMend.Proofs.Draft7.Own
import JsonMend.Proofs.Draft7.Direct
import JsonMend.Proofs.Draft7.Plain
import JsonMend.Proofs.Report.Findings
import JsonMend.Proofs.Report.Remaining
import JsonMend.Proofs.Repair.Origin
import JsonMend.Proofs.Draft7.Crossing
import JsonMend.Proofs.Pointer.Place
import JsonMend.Proofs.Report.Justified
import JsonMend.Proofs.Repair.Fixpoint
import JsonMend.Proofs.Json.Read
import JsonMend.Proofs.Report.Accepted
import JsonMend.Proofs.Service.Repeat
import JsonMend.Proofs.Draft7.Enter
import JsonMend.Proofs.Report.Rendered
import JsonMend.Proofs.Service.Verdict
import JsonMend.Proofs.Repair.Follow
import JsonMend.Proofs.Draft7.Beside
import JsonMend.Proofs.Report.Regress
import JsonMend.Proofs.Number.Text
import JsonMend.Proofs.Json.Leaves
import JsonMend.Proofs.Json.Canonical
import JsonMend.Proofs.Json.Akin
import JsonMend.Proofs.Json.Agree
import JsonMend.Proofs.Draft7.Kin
import JsonMend.Proofs.Draft7.Reordering
import JsonMend.Proofs.Service.Recency
import JsonMend.Proofs.Service.Sharing
import JsonMend.Proofs.Report.Reordering
import JsonMend.Proofs.Service.History
import JsonMend.Proofs.Recovery.Syntax
import JsonMend.Proofs.Recovery.Strings
import JsonMend.Proofs.Recovery.Corrector
import JsonMend.Proofs.Recovery.Punctuation
import JsonMend.Proofs.Recovery.Comments
import JsonMend.Proofs.Recovery.Words
import JsonMend.Proofs.Recovery.Reading
import JsonMend.Proofs.Recovery.Relaxed
import JsonMend.Proofs.Number.Rounding
import JsonMend.Proofs.Number.Shortest
import JsonMend.Proofs.Ledger.Removal
import JsonMend.Proofs.Json.Reader
import JsonMend.Proofs.Json.Written
import JsonMend.Proofs.Service.TextInput
import JsonMend.Proofs.Json.Parts
import JsonMend.Proofs.Draft7.Inside
import JsonMend.Proofs.Draft7.Distinct
import JsonMend.Proofs.Draft7.Missing
import JsonMend.Proofs.Draft7.Repeated
import JsonMend.Proofs.Report.Pairing
import JsonMend.Proofs.Report.Naming
import JsonMend.Proofs.Report.Parameters
import JsonMend.Proofs.Service.Explained
import JsonMend.Proofs.Recovery.ExtraComma
import JsonMend.Proofs.Shape.Lookup
import JsonMend.Proofs.Repair.Again
import JsonMend.Proofs.Service.Interleaving
import JsonMend.Proofs.Service.Pointing
import JsonMend.Proofs.Draft7.Way
import JsonMend.Proofs.Draft7.Dialect
import JsonMend.Proofs.Service.Repetition
import JsonMend.Proofs.Draft7.Rounds
import JsonMend.Proofs.Draft7.Closed
import JsonMend.Proofs.Draft7.Enough
import JsonMend.Proofs.Report.Branches
import JsonMend.Proofs.Repair.Faults
import JsonMend.Proofs.Service.Stopping
import JsonMend.Proofs.Json.Shuffled
import JsonMend.Proofs.Shape.Peers
import JsonMend.Proofs.Repair.Unordered
import JsonMend.Proofs.Number.Grid
import JsonMend.Proofs.Number.Halves
import JsonMend.Proofs.Repair.Integer
import JsonMend.Proofs.Repair.RoundTrip
import JsonMend.Proofs.Recovery.Spelling
import JsonMend.Proofs.Recovery.Spelled
import JsonMend.Proofs.Recovery.BareTokens
import JsonMend.Proofs.Pointer.Codec
import JsonMend.Proofs.Redaction
