import Telemetry.Precision

/-!
# Targets

A target is a quantile that a sketch has to answer, with the permitted error of the answer's rank.
At each rank every target allows some uncertainty, and the sketch may use what the strictest allows
(`tolerance`).
-/

namespace Telemetry

/-- A quantile and the permitted rank error, both as fractions of the number of values. -/
structure Target (ρ : Type) where
  quantile : ρ
  epsilon : ρ
  deriving DecidableEq

/-- Why a pair of numbers is no target. -/
inductive TargetError where
  | quantileOutOfRange
  | epsilonNotPositive
  deriving DecidableEq, Repr

namespace TargetError

def message : TargetError → String
  | quantileOutOfRange => "target quantile must be within (0, 1)"
  | epsilonNotPositive => "target epsilon must be positive"

end TargetError

/-- The quantiles that every report gives. -/
def reportedQuantiles (ρ : Type) [Precision ρ] : List ρ :=
  [Precision.ratio 1 2, Precision.ratio 9 10, Precision.ratio 99 100]

/-- The permitted rank error of the standard targets. -/
def standardEpsilon (ρ : Type) [Precision ρ] : ρ :=
  Precision.ratio 1 100

namespace Target

variable {ρ : Type} [Precision ρ]

/-- The target of a quantile strictly between 0 and 1 and a positive error. The quantile is looked
at first. -/
def build (quantile epsilon : ρ) : Except TargetError (Target ρ) :=
  if Precision.ofInt 0 < quantile ∧ quantile < Precision.ofInt 1 then
    if Precision.ofInt 0 < epsilon then .ok ⟨quantile, epsilon⟩ else .error .epsilonNotPositive
  else .error .quantileOutOfRange

/-- The reported quantiles, each with the standard error. -/
def standard : List (Target ρ) :=
  (reportedQuantiles ρ).map fun q => ⟨q, standardEpsilon ρ⟩

/-- The uncertainty that a target allows at rank `r` of `n` values. It grows away from the target's
own rank on either side. -/
def allowance (t : Target ρ) (n r : ρ) : ρ :=
  if t.quantile * n ≤ r then
    Precision.ofInt 2 * t.epsilon * r / t.quantile
  else
    Precision.ofInt 2 * t.epsilon * (n - r) / (Precision.ofInt 1 - t.quantile)

end Target

/-- The uncertainty that all targets allow at rank `r` of `n` values. -/
def tolerance {ρ : Type} [Precision ρ] (targets : List (Target ρ)) (n : Nat) (r : ρ) : ρ :=
  Precision.least (targets.map fun t => t.allowance (Precision.ofInt n) r)

end Telemetry
