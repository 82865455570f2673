import QuboProbe.Encoding.OffsetBinary
import QuboProbe.Exact
import QuboProbe.Exchange.Models
import QuboProbe.Exchange.Samples
import QuboProbe.Exchange.Settings
import QuboProbe.Layout.Describe
import QuboProbe.Main
import QuboProbe.Proofs.Memo.Cells
import QuboProbe.Proofs.Memo.Crew
import QuboProbe.Proofs.Memo.Progress
import QuboProbe.Proofs.Memo.Totals
import QuboProbe.Proofs.BitString
import QuboProbe.Proofs.Probes
import QuboProbe.Proofs.Compile.Coefficients
import QuboProbe.Proofs.Compile.AnyOrder
import QuboProbe.Proofs.Compile.Models
import QuboProbe.Proofs.Compile.Outcome
import QuboProbe.Proofs.Compile.Interleaving
import QuboProbe.Proofs.Energy
import QuboProbe.Proofs.Moebius
import QuboProbe.Proofs.Compile.QuadraticPart
import QuboProbe.Proofs.Encoding.Lawful
import QuboProbe.Proofs.Layout.Codec
import QuboProbe.Proofs.Encoding.Affine
import QuboProbe.Proofs.Compile.Polynomial
import QuboProbe.Proofs.Validate.Walk
import QuboProbe.Proofs.Validate.Exhaustive
import QuboProbe.Proofs.Compile.Canonical
import QuboProbe.Proofs.Layout.RoundTrip
import QuboProbe.Proofs.Memo.Contents
import QuboProbe.Proofs.Memo.History
import QuboProbe.Proofs.Memo.Calls
import QuboProbe.Proofs.Layout.Registration
import QuboProbe.Proofs.Bytes
import QuboProbe.Proofs.Layout.Rearrangement
import QuboProbe.Proofs.Compile.Reordering
import QuboProbe.Proofs.SampleSet
import QuboProbe.Proofs.Json.Numeral
import QuboProbe.Proofs.Json.Reading
import QuboProbe.Proofs.Exchange.Values
import QuboProbe.Proofs.Valuation
import QuboProbe.Proofs.Memo.Failures
import QuboProbe.Proofs.Compile.Failures
import QuboProbe.Proofs.Layout.Joining
import QuboProbe.Proofs.Compile.Separable
import QuboProbe.Encoding.Words
import QuboProbe.Proofs.Decimal.Literals
import QuboProbe.Proofs.Exchange.Models
import QuboProbe.Proofs.Evaluation
import QuboProbe.Proofs.Memo.Trace
import QuboProbe.Proofs.Compile.Trace
import QuboProbe.Proofs.Validate.FirstEvent
import QuboProbe.Proofs.Encoding.Words
import QuboProbe.Proofs.Encoding.Bijection
import QuboProbe.Proofs.Encoding.Outcomes
import QuboProbe.Proofs.Layout.Outcomes
import QuboProbe.Proofs.QuadraticForm
import QuboProbe.Proofs.Folding
import QuboProbe.Proofs.Validate.Effort
import QuboProbe.Proofs.Terms
import QuboProbe.Proofs.TotalOrder
import QuboProbe.Proofs.Ranking
import QuboProbe.Proofs.BestFirst
import QuboProbe.Proofs.Insertion
import QuboProbe.Proofs.Flip
import QuboProbe.Proofs.Capacity
import QuboProbe.Proofs.Accessors
import QuboProbe.Proofs.Exchange.Samples
import QuboProbe.Proofs.Layout.Isolation
import QuboProbe.Proofs.Validate.Tolerance
import QuboProbe.Proofs.Encoding.Index
