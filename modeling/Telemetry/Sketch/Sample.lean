import Telemetry.Measure
import Telemetry.Precision

/-!
# Samples

A sample is a retained value with the number of values it stands for and the uncertainty of its
rank. A sketch keeps its samples in a list, by ascending value. Three passes work on such lists:
`weave` puts new values in, `condense` lets samples absorb their left neighbour as far as a limit
allows, and `seek` finds the sample that answers for a rank.
-/

namespace Telemetry

/-- A retained value, the number of values it stands for, and how uncertain its rank is. -/
structure Sample (ν : Type) where
  value : ν
  width : Nat
  delta : Int
  deriving DecidableEq, Repr

namespace Sample

variable {ν ρ : Type}

/-- The sample of a single value whose rank is known. -/
def exact (v : ν) : Sample ν := ⟨v, 1, 0⟩

/-- The ranks that a sample covers beyond the samples before it. -/
def span (s : Sample ν) : Int := s.width + s.delta

/-- The sum of the values of samples, each counted as often as its sample stands for a value. -/
def total [Measure ν] (samples : List (Sample ν)) : ν :=
  samples.foldl (fun sum s => sum + Measure.weighted s.value s.width) Measure.emptySum

section Weave

variable [Measure ν]

/-- The samples of `values` that go in front of `s`. Such a value can rank no higher than `s` could
and so inherits the uncertainty of `s`, except for a new least value, whose rank is known. -/
def inFrontOf (s : Sample ν) (atHead : Bool) (values : List ν) : List (Sample ν) :=
  values.mapIdx fun i v => ⟨v, 1, if atHead && i == 0 then 0 else s.span - 1⟩

/-- Puts ascending values into a list of samples in one pass: each goes in front of the first
sample with a greater value, or to the end. `atHead` tells that nothing precedes the list. -/
def weave (atHead : Bool) (values : List ν) : List (Sample ν) → List (Sample ν)
  | [] => values.map exact
  | s :: rest =>
    inFrontOf s atHead (values.takeWhile (· < s.value)) ++
      s :: weave false (values.dropWhile (· < s.value)) rest

end Weave

section Condense

variable [Precision ρ]

/-- What remains of a list of samples, worked off from the right: the rank below the next sample,
and the samples kept so far, of which the first may still grow. -/
structure Folding (ν : Type) where
  rank : Int
  kept : List (Sample ν)

/-- Whether `c` and its right neighbour `x` together stay within the limit at a rank. -/
def Fits (limit : Int → ρ) (rank : Int) (c x : Sample ν) : Prop :=
  Precision.ofInt (c.width + x.span) ≤ limit rank

instance (limit : Int → ρ) (rank : Int) (c x : Sample ν) : Decidable (Fits limit rank c x) :=
  inferInstanceAs (Decidable (_ ≤ _))

/-- Takes in the next sample to the left: its right neighbour absorbs it if both together fit, else
it is kept by itself. -/
def Folding.take (limit : Int → ρ) (c : Sample ν) (f : Folding ν) : Folding ν where
  rank := f.rank - c.width
  kept := match f.kept with
    | [] => [c]
    | x :: kept =>
      if Fits limit f.rank c x then { x with width := x.width + c.width } :: kept
      else c :: x :: kept

/-- Lets samples absorb their left neighbour, from right to left, as far as `limit` allows at each
rank. The list stands for `merged` values. The first sample stays as it is, so the least value
keeps its rank. -/
def condense (limit : Int → ρ) (merged : Nat) : List (Sample ν) → List (Sample ν)
  | [] => []
  | s :: rest => s :: (rest.foldr (Folding.take limit) ⟨(merged : Int) - 1, []⟩).kept

end Condense

section Seek

variable [Precision ρ]

/-- The value of the last sample before the first one whose greatest rank is above the threshold,
where `held` is the sample reached so far and `before` counts the values ahead of it. -/
def seek (threshold : ρ) (before : Nat) (held : Sample ν) : List (Sample ν) → ν
  | [] => held.value
  | s :: rest =>
    if threshold < Precision.ofInt ((before + held.width : Nat) + s.span) then held.value
    else seek threshold (before + held.width) s rest

end Seek

end Sample

end Telemetry
