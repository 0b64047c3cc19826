import Std.Data.TreeMap

/-!
# Endpoints

An endpoint is what requests are grouped by: the application, its instance, the uri and the method.
Endpoints are ordered by these four in turn.
-/

namespace Telemetry

/-- Where a request went. -/
structure Endpoint where
  /-- The application that served the request; empty for traffic of the platform itself. -/
  applicationId : String
  instanceId : String
  uri : String
  method : String
  deriving DecidableEq, Repr

namespace Endpoint

/-- Compares the four parts in turn. -/
def order : Endpoint → Endpoint → Ordering :=
  compareLex (compareOn applicationId)
    (compareLex (compareOn instanceId) (compareLex (compareOn uri) (compareOn method)))

instance : Ord Endpoint := ⟨order⟩

instance : Std.TransOrd Endpoint :=
  inferInstanceAs (Std.TransCmp (compareLex (compareOn applicationId)
    (compareLex (compareOn instanceId) (compareLex (compareOn uri) (compareOn method)))))

instance : Std.LawfulEqOrd Endpoint where
  eq_of_compare {a b} h := by
    have h : order a b = .eq := h
    simp only [order, compareLex_eq_eq, compareOn, Std.LawfulEqCmp.compare_eq_iff_eq] at h
    cases a; cases b; simp_all

/-- The texts of the four parts, in order. -/
def labelValues (e : Endpoint) : List String := [e.applicationId, e.instanceId, e.uri, e.method]

/-- The endpoint in one line of text. -/
def text (e : Endpoint) : String :=
  e.applicationId ++ "/" ++ e.instanceId ++ " " ++ e.method ++ " " ++ e.uri

end Endpoint

end Telemetry
