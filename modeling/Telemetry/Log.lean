import Telemetry.Report

/-!
# Log entries

What is told of the work itself: data points that had to be skipped, the outcome of each scrape,
and records that expired.
-/

namespace Telemetry

/-- How much a log entry matters. -/
inductive Level where
  | error
  | debug
  | trace
  deriving DecidableEq, Repr

namespace Level

def text : Level → String
  | error => "ERROR"
  | debug => "DEBUG"
  | trace => "TRACE"

end Level

/-- Something worth telling. -/
inductive LogEntry where
  /-- A data point was left out. -/
  | skipped (skip : Skip)
  /-- A scrape ended. -/
  | scraped (points skipped discarded : Nat)
  /-- Records were dropped for their age. -/
  | expired (records : Nat)
  deriving DecidableEq, Repr

namespace LogEntry

def level : LogEntry → Level
  | skipped _ => .error
  | scraped .. => .debug
  | expired _ => .trace

def message : LogEntry → String
  | skipped s =>
    "metric `" ++ s.metric ++ "` from `" ++ s.record ++ "` discarded: " ++ s.cause.message
  | scraped made left out =>
    "collected " ++ toString made ++ " observations (" ++ toString left ++ " skipped, " ++
      toString out ++ " records discarded)"
  | expired records => "pruned " ++ toString records ++ " expired records"

/-- The entry as one line of text. -/
def line (e : LogEntry) : String := e.level.text ++ " " ++ e.message

end LogEntry

end Telemetry
