import Telemetry.DataPoint

/-!
# Reports

What one reporter makes of its records: the data points that could be made, the ones that could not
be made with the reason, and the number of records that were left out beforehand.
-/

namespace Telemetry

/-- A data point that could not be made. -/
structure Skip where
  /-- The record that it was to come from. -/
  record : String
  /-- The metric that it was meant for. -/
  metric : String
  cause : MetricError
  deriving DecidableEq, Repr

/-- The outcome of one run of a reporter. -/
structure Report where
  points : List DataPoint
  skipped : List Skip
  /-- The number of records left out before any data point was tried. -/
  discarded : Nat
  deriving DecidableEq

namespace Report

/-- Attempts at data points, told apart by how they went; both kinds keep their order. -/
def ofAttempts (attempts : List (Except Skip DataPoint)) (discarded : Nat) : Report where
  points := attempts.filterMap fun
    | .ok p => some p
    | .error _ => none
  skipped := attempts.filterMap fun
    | .ok _ => none
    | .error s => some s
  discarded := discarded

/-- The attempt at a data point of a metric for a record. -/
def attempt (record metric : String) : Except MetricError DataPoint → Except Skip DataPoint
  | .ok p => .ok p
  | .error cause => .error { record, metric, cause }

end Report

end Telemetry
