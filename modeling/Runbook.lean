import Runbook.Evaluation.Json
import Runbook.Main
import Runbook.Registry.Rehearsal
import Runbook.Proofs.Syntax.RoundTrip
import Runbook.Proofs.Syntax.Places
import Runbook.Proofs.Syntax.Tokenized
import Runbook.Proofs.Syntax.Nested
import Runbook.Proofs.Syntax.Viable
import Runbook.Proofs.Syntax.Concatenation
import Runbook.Proofs.Lowering.Makes
import Runbook.Proofs.Lowering.WellScoped
import Runbook.Proofs.Lowering.Progress
import Runbook.Proofs.Lowering.Lexical
import Runbook.Proofs.Lowering.Points
import Runbook.Proofs.Lowering.Layout
import Runbook.Proofs.Lowering.Holes
import Runbook.Proofs.Lowering.Flattened
import Runbook.Proofs.Lowering.Relocated
import Runbook.Proofs.Evaluation.Compiled
import Runbook.Proofs.Evaluation.Agreement
import Runbook.Proofs.Evaluation.Acyclic
import Runbook.Proofs.Evaluation.Invocation
import Runbook.Proofs.Evaluation.Mismatch
import Runbook.Proofs.Evaluation.Due
import Runbook.Proofs.Evaluation.AlikeSetUp
import Runbook.Proofs.Evaluation.Lockstep
import Runbook.Proofs.Evaluation.Turns
import Runbook.Proofs.Evaluation.Abreast
import Runbook.Proofs.Evaluation.Moments
import Runbook.Proofs.Evaluation.Races
import Runbook.Proofs.Evaluation.Origins
import Runbook.Proofs.Evaluation.Sites
import Runbook.Proofs.Evaluation.Together
import Runbook.Proofs.Evaluation.Beside
import Runbook.Proofs.Evaluation.Opening
import Runbook.Proofs.Evaluation.Operands
import Runbook.Proofs.Evaluation.Joining
import Runbook.Proofs.Evaluation.Combining
import Runbook.Proofs.Evaluation.Detached
import Runbook.Proofs.Json.Decoding
import Runbook.Proofs.Evaluation.Elapsed
import Runbook.Proofs.Evaluation.Filling
import Runbook.Proofs.Evaluation.Exchange
import Runbook.Proofs.Evaluation.Loser
import Runbook.Proofs.Evaluation.Settings
import Runbook.Proofs.Evaluation.Reordered
import Runbook.Proofs.Evaluation.Sequel
import Runbook.Proofs.Evaluation.Regardless
import Runbook.Proofs.Evaluation.Regrouped
import Runbook.Proofs.Evaluation.FailFast
import Runbook.Proofs.Evaluation.Calls
import Runbook.Proofs.Diagnostic.Positions
import Runbook.Proofs.Diagnostic.Carets
import Runbook.Proofs.Lowering.Alone
import Runbook.Proofs.Value.Merging
import Runbook.Proofs.Evaluation.Doubled
import Runbook.Proofs.Evaluation.DoubledRun
import Runbook.Proofs.Evaluation.Callers
import Runbook.Proofs.Evaluation.Fulfilled
import Runbook.Proofs.Evaluation.Once
import Runbook.Proofs.Config.Loading
import Runbook.Proofs.Evaluation.Tabled
