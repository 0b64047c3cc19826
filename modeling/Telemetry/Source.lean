import Telemetry.Envelope
import Telemetry.Log

/-!
# Sources

Reporters read the current readings and requests from a source. A read may change the source and
may leave log entries, so it gives back all three.
-/

namespace Telemetry

/-- What a use of a source of type `σ` gives. -/
structure Reply (α σ : Type) where
  value : α
  log : List LogEntry
  /-- The source afterwards. -/
  source : σ

/-- Something that readings and requests can be read from. -/
class Source (σ : Type) where
  readings : σ → Reply (List Reading) σ
  requests : σ → Reply (List Request) σ

/-- A source that always gives the same. -/
structure Snapshot where
  readings : List Reading
  requests : List Request
  deriving DecidableEq

instance : Source Snapshot where
  readings s := ⟨s.readings, [], s⟩
  requests s := ⟨s.requests, [], s⟩

end Telemetry
