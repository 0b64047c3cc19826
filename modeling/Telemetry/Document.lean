import Telemetry.DataPoint
import Telemetry.Envelope

/-!
# Documents

The tree of plain data in which records and data points are written out: fields under their names,
lists, texts and numbers. A number that is not finite has no written form and becomes null.
-/

namespace Telemetry

/-- A tree of plain data. -/
inductive Document where
  | null
  | integer (n : Int)
  | number (x : Float)
  | text (s : String)
  | list (items : List Document)
  | fields (entries : List (String × Document))

namespace Document

/-- A number if it is finite, else null. -/
def ofFloat (x : Float) : Document := if x.isFinite then number x else null

def ofTags (tags : Tags) : Document := fields (tags.entries.map fun tag => (tag.1, text tag.2))

def ofReading (r : Reading) : Document :=
  fields [
    ("origin", text r.origin), ("deployment", text r.deployment), ("job", text r.job),
    ("index", text r.index), ("ip", text r.ip), ("name", text r.name), ("value", ofFloat r.value),
    ("unit", text r.unit), ("tags", ofTags r.tags)]

def ofRequest (r : Request) : Document :=
  fields [
    ("application_id", text r.applicationId), ("instance_id", text r.instanceId),
    ("uri", text r.uri), ("method", text r.method), ("status_code", integer r.statusCode),
    ("content_length", integer r.contentLength), ("client_duration", integer r.clientDuration),
    ("server_duration", integer r.serverDuration)]

/-- An envelope is written under the name of its kind. -/
def ofEnvelope : Envelope → Document
  | .reading r => fields [("ValueMetric", ofReading r)]
  | .request r => fields [("HttpStartStop", ofRequest r)]

def ofSummary (s : Summary) : Document :=
  fields [
    ("count", integer s.count), ("sum", ofFloat s.sum),
    ("quantiles", list (s.quantiles.map fun q => list [ofFloat q.1, ofFloat q.2]))]

/-- A measurement is written under the name of its kind. -/
def ofMeasurement : Measurement → Document
  | .counter total => fields [("counter", ofFloat total)]
  | .gauge level => fields [("gauge", ofFloat level)]
  | .summary s => fields [("summary", ofSummary s)]

def ofDataPoint (p : DataPoint) : Document :=
  fields [
    ("name", text p.name), ("help", text p.help), ("label_names", list (p.labelNames.map text)),
    ("label_values", list (p.labelValues.map text)), ("value", ofMeasurement p.value)]

end Document

end Telemetry
