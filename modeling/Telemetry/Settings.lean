import Telemetry.Exposition
import Telemetry.Inbox

/-!
# Settings

The settings from which an inbox and the exposition of its records are made.
-/

namespace Telemetry

/-- The number of nanoseconds in a second. -/
def second : Nat := 1000000000

/-- What can be chosen about an inbox and its exposition. -/
structure Settings where
  /-- The scope of all metric names. An empty scope is left out of them. -/
  scope : String := "firehose"
  /-- The text of the environment label, which all readings carry. -/
  environment : String := ""
  sumMode : SumMode := default
  /-- How long the inbox keeps a record. -/
  lifetime : Nat := 600 * second
  deriving DecidableEq

namespace Settings

/-- An empty inbox with these settings. -/
def inbox (c : Settings) : Inbox := .empty c.lifetime

/-- The exposition of readings and traffic. It can be built if the scope makes legal metric names.
-/
def exposition (c : Settings) : Except MetricError Exposition := do
  let readings ← ReadingReporter.build c.scope c.environment
  let traffic ← TrafficReporter.build c.scope c.sumMode
  return ⟨[.readings readings, .traffic traffic]⟩

end Settings

end Telemetry
