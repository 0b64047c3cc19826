import Telemetry.Envelope
import Telemetry.Report

/-!
# Reporting readings

Every reading becomes a gauge. The name of its metric is made from the reading's origin and name,
and its tags become labels, so each reading brings a descriptor of its own; a reading whose tags
make no legal labels is skipped by itself.
-/

namespace Telemetry

/-- Reports readings as gauges. -/
structure ReadingReporter where
  /-- The scope of the metric names. -/
  scope : String
  environment : String
  /-- The descriptor of the reporter itself. -/
  descriptor : Descriptor
  deriving DecidableEq

namespace ReadingReporter

/-- The part of the metric names that is common to all readings. -/
def subsystem : String := "value_metrics"

/-- The label names that every reading has. -/
def fixedLabels : List String :=
  ["origin", "bosh_deployment", "bosh_job_name", "bosh_job_id", "bosh_job_ip", "unit"]

/-- The constant labels of every descriptor. -/
def constLabels (environment : String) : List (String × String) := [("environment", environment)]

/-- A reporter whose metric names start with a scope. It can be built if that makes a legal name.
-/
def build (scope environment : String) : Except MetricError ReadingReporter := do
  let descriptor ← Descriptor.build (Name.qualify scope subsystem "collector")
    "Cloud Foundry Firehose value metrics collector." [] (constLabels environment)
  return { scope, environment, descriptor }

/-- The name of a reading's metric. -/
def metricName (p : ReadingReporter) (r : Reading) : String :=
  Name.qualify p.scope subsystem (Name.normalize r.origin ++ "_" ++ Name.normalize r.name)

/-- The help text of a reading's metric, with the reading's own spelling. -/
def help (r : Reading) : String :=
  "Cloud Foundry Firehose '" ++ r.name ++ "' value metric from '" ++ r.origin ++ "'."

/-- The variable labels of a reading: the fixed ones, then its tags under normalized keys. -/
def labelNames (r : Reading) : List String :=
  fixedLabels ++ r.tags.entries.map fun tag => Name.normalize tag.1

/-- The texts of a reading's variable labels. -/
def labelValues (r : Reading) : List String :=
  [r.origin, r.deployment, r.job, r.index, r.ip, r.unit] ++ r.tags.entries.map Prod.snd

/-- The text that tells which reading was skipped. -/
def recordName (r : Reading) : String := r.origin ++ "/" ++ r.name

/-- The gauge of a reading. -/
def gauge (p : ReadingReporter) (r : Reading) : Except MetricError DataPoint := do
  let d ← Descriptor.build (p.metricName r) (help r) (labelNames r) (constLabels p.environment)
  DataPoint.build d (.gauge r.value) (labelValues r)

/-- The gauges of a list of readings. -/
def report (p : ReadingReporter) (readings : List Reading) : Report :=
  .ofAttempts (readings.map fun r => Report.attempt (recordName r) (p.metricName r) (p.gauge r)) 0

/-- The descriptors known before any reading is seen. -/
def descriptors (p : ReadingReporter) : List Descriptor := [p.descriptor]

end ReadingReporter

end Telemetry
