import Telemetry.Document
import Telemetry.Settings
import Telemetry.Proofs.Doubles
import Telemetry.Proofs.Measure
import Telemetry.Proofs.Sketch.Run
import Telemetry.Proofs.Sketch.Bracket
import Telemetry.Proofs.Sketch.Soundness
import Telemetry.Proofs.Inbox
import Telemetry.Proofs.Sketch.Tolerance
import Telemetry.Proofs.Sketch.Budget
import Telemetry.Proofs.Sketch.Accuracy
import Telemetry.Proofs.Sketch.Batch
import Telemetry.Proofs.Sketch.Relabel
import Telemetry.Proofs.Sketch.Ascent
import Telemetry.Proofs.Sketch.Single
import Telemetry.Proofs.Sketch.StandardTargets
import Telemetry.Proofs.Sketch.Whole
import Telemetry.Proofs.Sketch.Standard
import Telemetry.Proofs.Sketch.Overhang
import Telemetry.Proofs.Sketch.Excess
import Telemetry.Proofs.Sketch.KnownRanks
import Telemetry.Proofs.Sketch.Targeted
import Telemetry.Proofs.Traffic
import Telemetry.Proofs.Rounding
import Telemetry.Proofs.Sketch.Spans
import Telemetry.Proofs.Sketch.Reads
import Telemetry.Proofs.Reporters
import Telemetry.Proofs.Exposition
import Telemetry.Proofs.Sketch.Conservation
import Telemetry.Proofs.Sketch.Extremes
import Telemetry.Proofs.Sketch.Arrival
import Telemetry.Proofs.Sketch.Unseen
import Telemetry.Proofs.Name
import Telemetry.Proofs.WellFormed
import Telemetry.Proofs.Series
import Telemetry.Proofs.WholeSums
import Telemetry.Proofs.AnyOrder
import Telemetry.Proofs.Ledger
import Telemetry.Proofs.Sketch.Search
import Telemetry.Proofs.Sketch.Monotone
import Telemetry.Proofs.Quantiles
import Telemetry.Proofs.Scope
import Telemetry.Proofs.Sketch.Top
import Telemetry.Proofs.Values
import Telemetry.Proofs.Sketch.InPlace
import Telemetry.Proofs.Sketch.Buffered
import Telemetry.Proofs.Sketch.StandIns
import Telemetry.Proofs.Sketch.Groups
import Telemetry.Proofs.Sketch.Ordered
import Telemetry.Proofs.FirstOffence
import Telemetry.Proofs.Skips
import Telemetry.Proofs.Separators
import Telemetry.Proofs.Sketch.TotalOrder
import Telemetry.Proofs.NormalForm
import Telemetry.Proofs.Addition
import Telemetry.Proofs.Sketch.Slots
import Telemetry.Proofs.Sketch.Greedy
import Telemetry.Proofs.Sketch.Cursor
import Telemetry.Proofs.RawDouble
import Telemetry.Proofs.Sketch.InMemory
