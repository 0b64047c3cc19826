import Telemetry.Sketch.Sample
import Telemetry.Sketch.Target

/-!
# Quantile sketches

A sketch answers quantile questions about the values it was given without keeping all of them. New
values wait in a buffer; a full buffer is merged into an ordered list of samples, and samples are
joined wherever the targets allow the loss of precision. As long as nothing has been merged, the
buffer holds every value and answers are exact.

The type of values `ν` and the type of rank arithmetic `ρ` are parameters.
-/

namespace Telemetry

/-- A sketch of the values inserted so far. -/
structure Sketch (ν ρ : Type) where
  targets : List (Target ρ)
  /-- The values that are not merged yet, in order of arrival. -/
  buffer : Array ν
  /-- The samples, by ascending value. -/
  summary : List (Sample ν)
  /-- The number of values that the samples stand for. -/
  merged : Nat
  count : Nat
  sum : ν

namespace Sketch

variable {ν ρ : Type} [Measure ν] [Precision ρ]

/-- The buffer is merged when it holds this many values. -/
def capacity : Nat := 500

/-- The sketch of no values. -/
def empty (targets : List (Target ρ)) : Sketch ν ρ where
  targets := targets
  buffer := #[]
  summary := []
  merged := 0
  count := 0
  sum := Measure.zero

/-- The sketch of no values with the standard targets. -/
def standard : Sketch ν ρ := empty Target.standard

def isEmpty (s : Sketch ν ρ) : Bool := s.count == 0

/-- The buffered values in ascending order. -/
def sortedBuffer (s : Sketch ν ρ) : List ν := s.buffer.toList.mergeSort Measure.sortLe

/-- The uncertainty that the targets allow at a rank of the merged values. -/
def limit (s : Sketch ν ρ) (r : ρ) : ρ := tolerance s.targets s.merged r

/-- Joins samples as far as the targets allow. -/
def condense (s : Sketch ν ρ) : Sketch ν ρ :=
  { s with summary := Sample.condense (fun r => s.limit (Precision.ofInt r)) s.merged s.summary }

/-- Moves the buffered values into the summary, without joining any samples. -/
def weaveBuffer (s : Sketch ν ρ) : Sketch ν ρ :=
  { s with
    summary := Sample.weave true s.sortedBuffer s.summary
    merged := s.merged + s.buffer.size
    buffer := #[] }

/-- Merges the buffered values into the summary. With an empty buffer nothing changes. -/
def settle (s : Sketch ν ρ) : Sketch ν ρ :=
  if s.buffer.isEmpty then s else s.weaveBuffer.condense

/-- Takes in one value. -/
def insert (s : Sketch ν ρ) (v : ν) : Sketch ν ρ :=
  let s := { s with buffer := s.buffer.push v, count := s.count + 1, sum := s.sum + v }
  if capacity ≤ s.buffer.size then s.settle else s

/-- Takes in values one after the other. -/
def insertAll (s : Sketch ν ρ) (values : List ν) : Sketch ν ρ := values.foldl insert s

/-- The sorted value that answers for the quantile `φ` while every value is at hand. -/
def exactQuantile (sorted : List ν) (φ : ρ) : ν :=
  let rank := Precision.truncate (Precision.ofInt sorted.length * φ)
  sorted.getD (min (rank - 1) (sorted.length - 1)) Measure.zero

/-- The greatest rank that a sample may have to answer for the quantile `φ`. -/
def threshold (s : Sketch ν ρ) (φ : ρ) : ρ :=
  let rank := Precision.ceiling (φ * Precision.ofInt s.merged)
  rank + Precision.ceiling (s.limit rank / Precision.ofInt 2)

/-- The value at the quantile `φ`, with the sketch after the question: once samples exist, the
buffer is merged first. A sketch of no values answers 0. -/
def quantile (s : Sketch ν ρ) (φ : ρ) : ν × Sketch ν ρ :=
  if s.summary.isEmpty then
    (exactQuantile s.sortedBuffer φ, s)
  else
    let s := s.settle
    match s.summary with
    | [] => (Measure.zero, s)
    | first :: rest => (Sample.seek (s.threshold φ) 0 first rest, s)

/-- The answers to several questions in turn. -/
def quantiles (s : Sketch ν ρ) : List ρ → List ν × Sketch ν ρ
  | [] => ([], s)
  | φ :: rest =>
    let (answer, s) := s.quantile φ
    let (answers, s) := s.quantiles rest
    (answer :: answers, s)

/-- The samples by ascending value, with the sketch after the reading. Without a summary each
buffered value is a sample of its own; otherwise the buffer is merged and samples are joined once
more. -/
def toSamples (s : Sketch ν ρ) : List (Sample ν) × Sketch ν ρ :=
  if s.summary.isEmpty then
    (s.sortedBuffer.map Sample.exact, s)
  else
    let s := s.settle.condense
    (s.summary, s)

/-- The sum of the samples, with the sketch after the reading. It estimates `sum`. -/
def sampledSum (s : Sketch ν ρ) : ν × Sketch ν ρ :=
  let (samples, s) := s.toSamples
  (Sample.total samples, s)

end Sketch

end Telemetry
