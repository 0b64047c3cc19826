import Telemetry.Measure

/-!
# Doubles by their bits

In memory there are many NaNs: with either sign, and with all kinds of payloads. `Float` has only
one of them. A `RawDouble` keeps the bits, so that values which are stored, sorted and handed out
are told apart as they are in memory: a negative NaN comes before -∞, a positive one behind ∞.
-/

namespace Telemetry

/-- A double by its bits. -/
structure RawDouble where
  bits : UInt64
  deriving DecidableEq

namespace RawDouble

/-- The double, with the one NaN of `Float` for any. -/
def toFloat (x : RawDouble) : Float := Float.ofBits x.bits

def ofFloat (x : Float) : RawDouble := ⟨x.toBits⟩

/-- The total order of all doubles: the negative NaNs, -∞ < … < -0 < 0 < … < ∞, the positive
NaNs. -/
def totalLe (x y : RawDouble) : Bool :=
  decide (Binary64.keyOfBits x.bits ≤ Binary64.keyOfBits y.bits)

/-- Numbers are added, weighed and compared as doubles are. Nothing is promised of the bits of a NaN
that comes out of a sum or a product; here it is the NaN of `Float`. -/
instance : Measure RawDouble where
  add x y := ofFloat (x.toFloat + y.toFloat)
  lt x y := x.toFloat < y.toFloat
  zero := ofFloat 0
  emptySum := ofFloat (-0)
  weighted v n := ofFloat (v.toFloat * Float.ofNat n)
  sortLe := totalLe
  decidableLT x y := inferInstanceAs (Decidable (x.toFloat < y.toFloat))

end RawDouble

end Telemetry
