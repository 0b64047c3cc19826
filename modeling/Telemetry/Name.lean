/-!
# Names

Metric names and label names are restricted to a few characters. `IsMetricName` and `IsLabelName`
say which texts are allowed, `normalize` turns any text into a fragment of such a name, and
`qualify` joins the parts of a metric name. All classes of characters here are those of ASCII, as
the restriction itself is.
-/

namespace Telemetry.Name

/-! ## Allowed names -/

/-- A text is a metric name if it matches `[a-zA-Z_:][a-zA-Z0-9_:]*`. -/
def IsMetricName (name : String) : Prop :=
  match name.toList with
  | [] => False
  | c :: rest =>
    (c.isAlpha ∨ c = '_' ∨ c = ':') ∧ ∀ d ∈ rest, d.isAlphanum ∨ d = '_' ∨ d = ':'

instance (name : String) : Decidable (IsMetricName name) := by
  unfold IsMetricName
  split
  · exact instDecidableFalse
  · exact @instDecidableAnd _ _ inferInstance (List.decidableBAll _ _)

/-- A text is a label name if it matches `[a-zA-Z_][a-zA-Z0-9_]*` and does not start with two
underscores, which are reserved. -/
def IsLabelName (name : String) : Prop :=
  match name.toList with
  | [] => False
  | c :: rest =>
    (c.isAlpha ∨ c = '_') ∧ (∀ d ∈ rest, d.isAlphanum ∨ d = '_') ∧ ¬ ['_', '_'] <+: c :: rest

instance (name : String) : Decidable (IsLabelName name) := by
  unfold IsLabelName
  split
  · exact instDecidableFalse
  · exact @instDecidableAnd _ _ inferInstance
      (@instDecidableAnd _ _ (List.decidableBAll _ _) inferInstance)

/-! ## Normalization -/

/-- Whether a word starts at an upper-case letter between the given neighbours: after a lower-case
letter or a digit, and before a lower-case letter at the end of a run of upper-case ones. -/
def startsWord (previous next : Option Char) : Bool :=
  match previous with
  | none => false
  | some p => p.isLower || p.isDigit || (p.isUpper && next.any Char.isLower)

/-- The characters that stand for `c` between the given neighbours. -/
def normalizeChar (previous : Option Char) (c : Char) (next : Option Char) : List Char :=
  if c.isUpper then
    if startsWord previous next then ['_', c.toLower] else [c.toLower]
  else if c.isAlphanum || c == '_' then [c]
  else ['_']

/-- Normalizes what follows the character `previous`. -/
def normalizeAfter (previous : Option Char) : List Char → List Char
  | [] => []
  | c :: rest => normalizeChar previous c rest.head? ++ normalizeAfter (some c) rest

/-- A name in lower case with its words set apart by underscores; any character that a name may not
hold becomes an underscore. -/
def normalize (name : String) : String :=
  String.ofList (normalizeAfter none name.toList)

/-! ## Joining -/

/-- The name of a metric within a scope and a subsystem: the parts that are not empty, joined by
underscores. Without a name of its own it is no metric and the result is empty. -/
def qualify (scope subsystem name : String) : String :=
  if name.isEmpty then ""
  else "_".intercalate ([scope, subsystem, name].filter fun part => !part.isEmpty)

end Telemetry.Name
