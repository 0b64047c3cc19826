/-!
# Doubles as ranks and as sort keys

The few operations on doubles that the summaries need beside arithmetic: a total order that also
places the signed zeros, the infinities and NaN (`totalLe`), rounding toward zero to a natural
number (`truncate`), rounding up to a whole number (`ceiling`), and the least of a list (`least`).

`Float` has a single NaN. Where NaNs have to be told apart, a double is given by its bits.
-/

namespace Telemetry.Binary64

/-- The bits of a double, arranged so that the order of keys is the total order of doubles: a
negative one has all its bits turned, any other only its sign. -/
def keyOfBits (bits : UInt64) : UInt64 :=
  if bits &&& 0x8000000000000000 = 0 then bits ||| 0x8000000000000000 else ~~~ bits

/-- The key that a double is sorted by. -/
def orderKey (x : Float) : UInt64 := keyOfBits x.toBits

/-- The total order -∞ < … < -0 < 0 < … < ∞ < NaN, with the one NaN of `Float` last. Neither the sign
of a NaN nor its payload is told apart here: in memory a NaN may also be negative, and then comes
before -∞. -/
def totalLe (x y : Float) : Bool :=
  decide (orderKey x ≤ orderKey y)

/-- The natural number next to `x` toward zero; a negative number or NaN gives 0, and a number
beyond 64 bits gives the largest that fits. -/
def truncate (x : Float) : Nat :=
  x.toUInt64.toNat

/-- From here on every double is a whole number. -/
def wholeFrom : Float := 4503599627370496

/-- The least whole number that is not below `x`; an infinity or NaN is kept. -/
def ceiling (x : Float) : Float :=
  if x < 0 then
    if -x < wholeFrom then -(-x).toUInt64.toFloat else x
  else if x < wholeFrom then
    let below := x.toUInt64.toFloat
    if below < x then below + 1 else x
  else x

/-- The largest finite double. -/
def largest : Float := Float.ofBits 0x7FEFFFFFFFFFFFFF

/-- The least of the numbers in a list, which is `largest` when none is smaller; NaN is passed
over. -/
def least (xs : List Float) : Float :=
  xs.foldl (fun low x => if x < low then x else low) largest

end Telemetry.Binary64
