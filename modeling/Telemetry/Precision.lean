import Telemetry.Binary64

/-!
# The arithmetic of ranks

Ranks, tolerances and thresholds are computed in a number type of their own. `Precision` names what
they need. Doubles are what runs; rational numbers give the same definitions without rounding.
-/

namespace Telemetry

/-- The operations on ranks and tolerances. -/
class Precision (ρ : Type) extends Add ρ, Sub ρ, Mul ρ, Div ρ, LE ρ, LT ρ where
  ofInt : Int → ρ
  /-- The least whole number that is not below. -/
  ceiling : ρ → ρ
  /-- The natural number next to a number toward zero, 0 for a negative one. -/
  truncate : ρ → Nat
  /-- The least number of a list. -/
  least : List ρ → ρ
  decidableLE : DecidableLE ρ
  decidableLT : DecidableLT ρ

attribute [reducible, instance] Precision.decidableLE Precision.decidableLT

namespace Precision

/-- The quotient of two whole numbers, rounded once. -/
def ratio {ρ : Type} [Precision ρ] (a b : Int) : ρ :=
  ofInt a / ofInt b

end Precision

instance : Precision Float where
  ofInt := Float.ofInt
  ceiling := Binary64.ceiling
  truncate := Binary64.truncate
  least := Binary64.least
  decidableLE := inferInstance
  decidableLT := inferInstance

/-- The largest finite double as a rational number. -/
def largestFinite : Rat := (Nat.pow 2 1024 - Nat.pow 2 971 : Nat)

/-- On rational numbers the least of a list is exact; of no numbers it is `largestFinite`, as for
doubles. -/
instance : Precision Rat where
  ofInt a := a
  ceiling x := x.ceil
  truncate x := x.floor.toNat
  least
    | [] => largestFinite
    | x :: xs => xs.foldl (fun low y => if y < low then y else low) x
  decidableLE := inferInstance
  decidableLT := inferInstance

end Telemetry
