import Telemetry.Name

/-!
# Descriptors

A descriptor gives a metric its name, its help text and its label names: constant labels, which
carry a value for all data points, and variable labels, whose values each data point brings.
`Descriptor.build` refuses illegal names and repeated labels, so that a descriptor that exists is a
legal one.
-/

namespace Telemetry

/-- Why a metric cannot be described or a data point cannot be made. -/
inductive MetricError where
  | invalidMetricName (name : String)
  | invalidLabelName (name : String)
  | duplicateLabelName (name : String)
  | labelCardinality (expected actual : Nat)
  deriving DecidableEq, Repr

namespace MetricError

def message : MetricError → String
  | invalidMetricName name => "`" ++ name ++ "` is not a valid metric name"
  | invalidLabelName name => "`" ++ name ++ "` is not a valid label name"
  | duplicateLabelName name => "duplicate label name `" ++ name ++ "`"
  | labelCardinality expected actual =>
    "expected " ++ toString expected ++ " label values, got " ++ toString actual

end MetricError

/-- The first offence in a list of label names of which `seen` came before: a name that is no label
name, or one that was seen. -/
def labelOffence (seen : List String) : List String → Option MetricError
  | [] => none
  | name :: rest =>
    if ¬ Name.IsLabelName name then some (.invalidLabelName name)
    else if name ∈ seen then some (.duplicateLabelName name)
    else labelOffence (name :: seen) rest

theorem labelOffence_eq_none_iff (seen names : List String) :
    labelOffence seen names = none ↔
      (∀ name ∈ names, Name.IsLabelName name) ∧ names.Nodup ∧ ∀ name ∈ names, name ∉ seen := by
  induction names generalizing seen with
  | nil => simp [labelOffence]
  | cons name rest ih =>
    by_cases valid : Name.IsLabelName name <;> by_cases old : name ∈ seen <;>
      simp only [labelOffence, valid, old, not_true_eq_false, not_false_eq_true, if_true, if_false,
        ih]
    all_goals grind

/-- The name, the help text and the labels of a metric. -/
structure Descriptor where
  name : String
  help : String
  constLabels : List (String × String)
  variableLabels : List String
  name_valid : Name.IsMetricName name
  labels_valid : ∀ label ∈ constLabels.map Prod.fst ++ variableLabels, Name.IsLabelName label
  labels_nodup : (constLabels.map Prod.fst ++ variableLabels).Nodup
  deriving DecidableEq

namespace Descriptor

/-- All label names, the constant ones first. -/
def labelNames (d : Descriptor) : List String :=
  d.constLabels.map Prod.fst ++ d.variableLabels

/-- Describes a metric. The metric name is looked at first, then the label names in order. -/
def build (name help : String) (variableLabels : List String)
    (constLabels : List (String × String)) : Except MetricError Descriptor :=
  if valid : Name.IsMetricName name then
    match offence : labelOffence [] (constLabels.map Prod.fst ++ variableLabels) with
    | some e => .error e
    | none => .ok {
        name, help, constLabels, variableLabels
        name_valid := valid
        labels_valid := ((labelOffence_eq_none_iff _ _).1 offence).1
        labels_nodup := ((labelOffence_eq_none_iff _ _).1 offence).2.1 }
  else .error (.invalidMetricName name)

end Descriptor

end Telemetry
