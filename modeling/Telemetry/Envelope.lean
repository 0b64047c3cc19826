import Telemetry.Endpoint
import Telemetry.Tags

/-!
# Envelopes

The units of telemetry: a reading, which is a single value that some origin measured, and a
request, which is a completed HTTP request. An envelope holds one of them.
-/

namespace Telemetry

/-- What a reading is a reading of. A newer reading replaces an older one of the same identity. -/
structure Identity where
  origin : String
  deployment : String
  job : String
  index : String
  ip : String
  name : String
  tags : Tags
  deriving DecidableEq

/-- A value that an origin measured, with its unit. -/
structure Reading extends Identity where
  value : Float
  unit : String
  deriving DecidableEq

/-- A completed HTTP request. Durations are in nanoseconds. -/
structure Request extends Endpoint where
  statusCode : Int
  contentLength : Int
  clientDuration : Int
  serverDuration : Int
  deriving DecidableEq, Repr

/-- One unit of telemetry. -/
inductive Envelope where
  | reading (r : Reading)
  | request (r : Request)
  deriving DecidableEq

end Telemetry
