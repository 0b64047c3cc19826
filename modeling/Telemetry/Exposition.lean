import Telemetry.Reporter.Readings
import Telemetry.Reporter.Traffic
import Telemetry.Source

/-!
# Expositions

An exposition is what is shown to the outside: the data points of several reporters over one
source. A scrape runs the reporters one after the other. Data points that could not be made are
logged and left out; they never make a scrape fail.
-/

namespace Telemetry

/-- Anything that makes data points from a source. -/
inductive Reporter where
  | readings (p : ReadingReporter)
  | traffic (p : TrafficReporter)
  deriving DecidableEq

namespace Reporter

/-- The descriptors of the metrics known in advance. -/
def descriptors : Reporter → List Descriptor
  | readings p => p.descriptors
  | traffic p => p.descriptors

/-- One run over a source. -/
def run {σ : Type} [Source σ] (p : Reporter) (source : σ) : Reply Report σ :=
  match p with
  | readings p =>
    let read := Source.readings source
    ⟨p.report read.value, read.log, read.source⟩
  | traffic p =>
    let read := Source.requests source
    ⟨p.report (Traffic.ofRequests read.value : Traffic Float), read.log, read.source⟩

end Reporter

/-- The reporters whose data points are exposed together. -/
structure Exposition where
  reporters : List Reporter
  deriving DecidableEq

namespace Exposition

/-- The descriptors of all reporters. -/
def descriptors (x : Exposition) : List Descriptor := x.reporters.flatMap Reporter.descriptors

section Scrape

variable {σ : Type} [Source σ]

/-- Runs reporters in turn, each on what the one before left of the source, and logs what they
skip. -/
def runAll : List Reporter → σ → Reply (List Report) σ
  | [], source => ⟨[], [], source⟩
  | p :: rest, source =>
    let first := p.run source
    let others := runAll rest first.source
    ⟨first.value :: others.value,
      first.log ++ first.value.skipped.map LogEntry.skipped ++ others.log, others.source⟩

/-- The data points of all reporters. -/
def scrape (x : Exposition) (source : σ) : Reply (List DataPoint) σ :=
  let reports := runAll x.reporters source
  let points := reports.value.flatMap Report.points
  let skipped := reports.value.flatMap Report.skipped
  let discarded := (reports.value.map Report.discarded).foldr (· + ·) 0
  ⟨points, reports.log ++ [.scraped points.length skipped.length discarded], reports.source⟩

end Scrape

end Exposition

end Telemetry
