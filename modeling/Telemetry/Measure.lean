import Telemetry.Binary64

/-!
# Measured values

A sketch sums, compares, sorts and weighs the values it is given. `Measure` names these operations,
so that one definition of the summary serves doubles, which is what runs, and rational numbers, on
which sums are exact.
-/

namespace Telemetry

/-- The operations on measured values. -/
class Measure (ν : Type) extends Add ν, LT ν where
  /-- The running total before the first value, and the answer of a sketch that holds none. -/
  zero : ν
  /-- The weighted sum of no samples. -/
  emptySum : ν
  /-- A value counted a number of times. -/
  weighted : ν → Nat → ν
  /-- The order in which values are sorted. -/
  sortLe : ν → ν → Bool
  decidableLT : DecidableLT ν

attribute [reducible, instance] Measure.decidableLT

/-- Doubles are sorted by their total order; a weighted sum starts at -0, which adding any value
leaves as that value. -/
instance : Measure Float where
  zero := 0
  emptySum := -0
  weighted v n := v * Float.ofNat n
  sortLe := Binary64.totalLe
  decidableLT := inferInstance

instance : Measure Rat where
  zero := 0
  emptySum := 0
  weighted v n := v * n
  sortLe x y := decide (x ≤ y)
  decidableLT := inferInstance

end Telemetry
