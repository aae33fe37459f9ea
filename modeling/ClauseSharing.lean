import ClauseSharing.Main
import ClauseSharing.Import.RootPicture
import ClauseSharing.Import.Importer
import ClauseSharing.Exchange.Sender
import ClauseSharing.Scalar.Rational
import ClauseSharing.Worker.Operation
import ClauseSharing.Proofs.Estimate.Repetition
import ClauseSharing.Proofs.Polarity.CatchUp
import ClauseSharing.Proofs.Import.Consumption
import ClauseSharing.Proofs.Worker.Run
import ClauseSharing.Proofs.Worker.Assignment
import ClauseSharing.Proofs.Polarity.Credit
import ClauseSharing.Proofs.Polarity.LazyTracking
import ClauseSharing.Proofs.Worker.Effect
import ClauseSharing.Proofs.Valuation
import ClauseSharing.Proofs.Worker.Trail
import ClauseSharing.Proofs.Import.Soundness
import ClauseSharing.Proofs.Import.Ranking
import ClauseSharing.Proofs.Import.Budget
import ClauseSharing.Proofs.Dimacs.NormalForm
import ClauseSharing.Proofs.Dimacs.Packing
import ClauseSharing.Proofs.Worker.Assertion
import ClauseSharing.Proofs.Dimacs.Formula
import ClauseSharing.Proofs.Exchange.Reading
import ClauseSharing.Proofs.Exchange.Sending
import ClauseSharing.Proofs.Exchange.Framing
import ClauseSharing.Proofs.Worker.Levels
import ClauseSharing.Proofs.Worker.Evolution
import ClauseSharing.Proofs.Worker.WellFormed
import ClauseSharing.Proofs.Worker.Completion
import ClauseSharing.Proofs.Worker.Naming
import ClauseSharing.Proofs.Import.Units
import ClauseSharing.Proofs.Import.Freshness
import ClauseSharing.Proofs.Worker.Tracing
import ClauseSharing.Proofs.Worker.Tables
import ClauseSharing.Proofs.Polarity.Timing
import ClauseSharing.Proofs.Import.Safety
import ClauseSharing.Proofs.Import.Reuse
import ClauseSharing.Proofs.Import.Endings
import ClauseSharing.Proofs.Worker.Store
import ClauseSharing.Proofs.Dimacs.Callbacks
import ClauseSharing.Proofs.Dimacs.Texts
import ClauseSharing.Proofs.Import.Growth
import ClauseSharing.Proofs.Import.Streams
import ClauseSharing.Proofs.Import.Projection
import ClauseSharing.Proofs.Worker.Diagnostics
import ClauseSharing.Proofs.Worker.Noninterference
import ClauseSharing.Proofs.Estimate.WeightedMean
import ClauseSharing.Proofs.Estimate.Deviation
import ClauseSharing.Proofs.Polarity.Calls
import ClauseSharing.Proofs.Polarity.Distribution
import ClauseSharing.Proofs.Polarity.Transparency
import ClauseSharing.Proofs.Import.Filtering
import ClauseSharing.Proofs.Import.Balance
import ClauseSharing.Proofs.Worker.Backjump
import ClauseSharing.Proofs.Exchange.Chunking
import ClauseSharing.Proofs.Glue.Multisets
import ClauseSharing.Proofs.Score.Norms
import ClauseSharing.Proofs.Score.Smallest
import ClauseSharing.Proofs.Score.Combination
import ClauseSharing.Proofs.Score.Bounds
import ClauseSharing.Proofs.Worker.Registration
import ClauseSharing.Proofs.Polarity.Sampling
import ClauseSharing.Proofs.Worker.Refusals
import ClauseSharing.Proofs.Diagnostics.Truncation
