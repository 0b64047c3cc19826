import Telemetry.Descriptor

/-!
# Data points

A data point is one measurement of a described metric, with a text for every label of the
descriptor.
-/

namespace Telemetry

/-- A distribution, told by the number of its values, their sum and some of its quantiles. -/
structure Summary where
  count : Nat
  sum : Float
  /-- Quantiles with the values at them, by ascending quantile. -/
  quantiles : List (Float × Float)
  deriving DecidableEq

/-- What was measured: a total that only grows, a value at a point in time, or a distribution. -/
inductive Measurement where
  | counter (total : Float)
  | gauge (level : Float)
  | summary (summary : Summary)
  deriving DecidableEq

/-- A measurement with the labels that tell what was measured. -/
structure DataPoint where
  name : String
  help : String
  labelNames : List String
  labelValues : List String
  value : Measurement
  deriving DecidableEq

namespace DataPoint

/-- The data point of a described metric, given one text for each variable label. The labels of the
descriptor that are constant come first. -/
def build (d : Descriptor) (value : Measurement) (labelValues : List String) :
    Except MetricError DataPoint :=
  if labelValues.length = d.variableLabels.length then
    .ok {
      name := d.name
      help := d.help
      labelNames := d.labelNames
      labelValues := d.constLabels.map Prod.snd ++ labelValues
      value }
  else .error (.labelCardinality d.variableLabels.length labelValues.length)

/-- The text of a label, if the data point has it. -/
def label? (p : DataPoint) (name : String) : Option String :=
  (p.labelNames.zip p.labelValues).lookup name

end DataPoint

end Telemetry
