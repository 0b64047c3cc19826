import Std.Data.TreeSet
import Telemetry.Envelope
import Telemetry.Sketch

/-!
# Traffic

Requests grouped by endpoint. Each endpoint counts its requests by status code and keeps a sketch
of the content lengths and of the two durations. Requests that belong to no application are only
counted.
-/

namespace Telemetry

/-- The statistics of one endpoint. -/
structure EndpointStats (ρ : Type) where
  /-- The number of requests with each status code. -/
  statusCodes : Std.TreeMap Int Nat
  contentLength : Sketch Float ρ
  clientDuration : Sketch Float ρ
  serverDuration : Sketch Float ρ

namespace EndpointStats

variable {ρ : Type} [Precision ρ]

/-- The statistics of no requests. -/
def empty : EndpointStats ρ := ⟨∅, .standard, .standard, .standard⟩

/-- Counts one more request with a status code. -/
def countStatus (codes : Std.TreeMap Int Nat) (code : Int) : Std.TreeMap Int Nat :=
  codes.alter code fun n => some (n.getD 0 + 1)

/-- Takes in one request. -/
def insert (s : EndpointStats ρ) (r : Request) : EndpointStats ρ where
  statusCodes := countStatus s.statusCodes r.statusCode
  contentLength := s.contentLength.insert (Float.ofInt r.contentLength)
  clientDuration := s.clientDuration.insert (Float.ofInt r.clientDuration)
  serverDuration := s.serverDuration.insert (Float.ofInt r.serverDuration)

/-- The number of requests taken in. -/
def requests (s : EndpointStats ρ) : Nat := s.statusCodes.values.foldr (· + ·) 0

end EndpointStats

/-- Statistics by endpoint, and the number of requests that were left out. -/
structure Traffic (ρ : Type) where
  endpoints : Std.TreeMap Endpoint (EndpointStats ρ)
  discarded : Nat

namespace Traffic

variable {ρ : Type} [Precision ρ]

def empty : Traffic ρ := ⟨∅, 0⟩

/-- Takes in one request; one without an application is only counted. -/
def insert (t : Traffic ρ) (r : Request) : Traffic ρ :=
  if r.applicationId.isEmpty then { t with discarded := t.discarded + 1 }
  else
    { t with endpoints := t.endpoints.alter r.toEndpoint fun s => some ((s.getD .empty).insert r) }

/-- The traffic of a list of requests, taken in one after the other. -/
def ofRequests (requests : List Request) : Traffic ρ := requests.foldl insert empty

/-- The number of endpoints. -/
def size (t : Traffic ρ) : Nat := t.endpoints.size

def isEmpty (t : Traffic ρ) : Bool := t.endpoints.isEmpty

/-- The statistics of an endpoint, if it had any request. -/
def get? (t : Traffic ρ) (e : Endpoint) : Option (EndpointStats ρ) := t.endpoints[e]?

/-- Puts statistics in place of those that an endpoint has. -/
def set (t : Traffic ρ) (e : Endpoint) (s : EndpointStats ρ) : Traffic ρ :=
  { t with endpoints := t.endpoints.insert e s }

/-- The endpoints with their statistics, in order. -/
def toList (t : Traffic ρ) : List (Endpoint × EndpointStats ρ) := t.endpoints.toList

/-- The applications that had requests, each once and in order. -/
def applications (t : Traffic ρ) : List String :=
  (Std.TreeSet.ofList (t.endpoints.keys.map Endpoint.applicationId)).toList

end Traffic

end Telemetry
