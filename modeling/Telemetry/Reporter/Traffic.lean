import Telemetry.Report
import Telemetry.Traffic

/-!
# Reporting traffic

Every endpoint becomes three summaries, of the content lengths and of the client and server
durations, and one counter for each status code.
-/

namespace Telemetry

/-- Where the sum of a reported summary comes from. -/
inductive SumMode where
  /-- The running sum of all values. -/
  | exact
  /-- The weighted sum of the retained samples. -/
  | samples
  deriving DecidableEq, Repr

instance : Inhabited SumMode := ⟨.exact⟩

/-- Reports requests as totals and summaries by endpoint. -/
structure TrafficReporter where
  sumMode : SumMode
  requestTotal : Descriptor
  responseSize : Descriptor
  clientDuration : Descriptor
  serverDuration : Descriptor
  deriving DecidableEq

namespace TrafficReporter

/-- The part of the metric names that is common to all traffic. -/
def subsystem : String := "http_start_stop"

/-- The label names of an endpoint. -/
def endpointLabels : List String := ["application_id", "instance_id", "uri", "method"]

/-- The label name of a status code. -/
def statusLabel : String := "status_code"

/-- Describes one of the metrics of traffic. -/
def descriptor (scope name help : String) (labels : List String) : Except MetricError Descriptor :=
  Descriptor.build (Name.qualify scope subsystem name) help labels []

/-- A reporter whose metric names start with a scope. It can be built if that makes legal names. -/
def build (scope : String) (sumMode : SumMode) : Except MetricError TrafficReporter := do
  let requestTotal ← descriptor scope "request_total"
    "Cloud Foundry Firehose http start stop total requests." (endpointLabels ++ [statusLabel])
  let responseSize ← descriptor scope "response_size_bytes"
    "Cloud Foundry Firehose http start stop request size in bytes." endpointLabels
  let clientDuration ← descriptor scope "client_request_duration_nanoseconds"
    "Cloud Foundry Firehose http start stop client request duration in nanoseconds." endpointLabels
  let serverDuration ← descriptor scope "server_request_duration_nanoseconds"
    "Cloud Foundry Firehose http start stop server request duration in nanoseconds." endpointLabels
  return { sumMode, requestTotal, responseSize, clientDuration, serverDuration }

section Report

variable {ρ : Type} [Precision ρ]

/-- The summary of a sketch: the reported quantiles in order, then the sum. -/
def summarize (mode : SumMode) (s : Sketch Float ρ) : Summary :=
  let (answers, s) := s.quantiles (reportedQuantiles ρ)
  {
    count := s.count
    sum := match mode with
      | .exact => s.sum
      | .samples => s.sampledSum.1
    quantiles := (reportedQuantiles Float).zip answers }

/-- The attempt at the summary of one sketch of an endpoint. -/
def summaryPoint (p : TrafficReporter) (e : Endpoint) (d : Descriptor) (s : Sketch Float ρ) :
    Except Skip DataPoint :=
  Report.attempt e.text d.name
    (DataPoint.build d (.summary (summarize p.sumMode s)) e.labelValues)

/-- The attempt at the number of requests of an endpoint with one status code. -/
def totalPoint (p : TrafficReporter) (e : Endpoint) (code : Int) (total : Nat) :
    Except Skip DataPoint :=
  Report.attempt e.text p.requestTotal.name
    (DataPoint.build p.requestTotal (.counter (Float.ofNat total))
      (e.labelValues ++ [toString code]))

/-- The attempts at all data points of an endpoint. -/
def endpointPoints (p : TrafficReporter) (e : Endpoint) (s : EndpointStats ρ) :
    List (Except Skip DataPoint) :=
  p.summaryPoint e p.responseSize s.contentLength ::
  p.summaryPoint e p.clientDuration s.clientDuration ::
  p.summaryPoint e p.serverDuration s.serverDuration ::
  s.statusCodes.toList.map fun (code, total) => p.totalPoint e code total

/-- The summaries and counters of all endpoints. -/
def report (p : TrafficReporter) (t : Traffic ρ) : Report :=
  .ofAttempts (t.toList.flatMap fun (e, s) => p.endpointPoints e s) t.discarded

end Report

/-- The descriptors of all metrics of traffic. -/
def descriptors (p : TrafficReporter) : List Descriptor :=
  [p.requestTotal, p.responseSize, p.clientDuration, p.serverDuration]

end TrafficReporter

end Telemetry
