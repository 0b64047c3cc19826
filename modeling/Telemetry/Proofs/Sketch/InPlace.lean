import Telemetry.Proofs.Sketch.Cuts

/-!
# Sorting in place

A sketch that is read more often than it is filled need not sort its buffer for each read. It may
sort the buffer where it stands and note that it is sorted, until the next value is appended
(`InPlace`). Its buffer then has another order than that of arrival, but the same values, and the
note is true whenever it is made (`Refines`). So whatever was read and inserted in between, every
answer is that of a sketch which sorts anew each time (`InPlace.answers_eq`).
-/

namespace Telemetry

open LawfulMeasure

variable {ν ρ : Type} [Measure ν] [Precision ρ]

/-- A sketch that sorts its buffer in place and knows when it is sorted. -/
structure InPlace (ν ρ : Type) extends Sketch ν ρ where
  isSorted : Bool

namespace InPlace

def empty (targets : List (Target ρ)) : InPlace ν ρ := ⟨Sketch.empty targets, true⟩

/-- Sorts the buffer unless it is known to be sorted. -/
def sortBuffer (c : InPlace ν ρ) : InPlace ν ρ :=
  if c.isSorted then c else { c with buffer := c.sortedBuffer.toArray, isSorted := true }

/-- Merges the buffer as it is. -/
def mergeBuffer (c : InPlace ν ρ) : InPlace ν ρ where
  toSketch := Sketch.condense { c.toSketch with
    summary := Sample.weave true c.buffer.toList c.summary
    merged := c.merged + c.buffer.size
    buffer := #[] }
  isSorted := c.isSorted

def settle (c : InPlace ν ρ) : InPlace ν ρ :=
  if c.buffer.isEmpty then c else c.sortBuffer.mergeBuffer

def insert (c : InPlace ν ρ) (v : ν) : InPlace ν ρ :=
  let c : InPlace ν ρ := ⟨c.toSketch.push v, false⟩
  if Sketch.capacity ≤ c.buffer.size then c.settle else c

def quantile (c : InPlace ν ρ) (φ : ρ) : ν × InPlace ν ρ :=
  if c.summary.isEmpty then
    if c.buffer.isEmpty then (Measure.zero, c)
    else (Sketch.exactQuantile c.sortBuffer.buffer.toList φ, c.sortBuffer)
  else
    let c := c.settle
    match c.summary with
    | [] => (Measure.zero, c)
    | first :: rest => (Sample.seek (c.threshold φ) 0 first rest, c)

def toSamples (c : InPlace ν ρ) : List (Sample ν) × InPlace ν ρ :=
  if c.summary.isEmpty then
    (c.sortBuffer.buffer.toList.map Sample.exact, c.sortBuffer)
  else
    let c : InPlace ν ρ := ⟨c.settle.toSketch.condense, c.settle.isSorted⟩
    (c.summary, c)

/-- What a read returns, with the sketch after it. -/
def answer (c : InPlace ν ρ) : Sketch.Read ρ → Sketch.Answer ν × InPlace ν ρ
  | .quantile φ => (.value (c.quantile φ).1, (c.quantile φ).2)
  | .toSamples => (.samples c.toSamples.1, c.toSamples.2)
  | .sampledSum => (.value (Sample.total c.toSamples.1), c.toSamples.2)

/-- What several reads in turn return. -/
def answers (c : InPlace ν ρ) : List (Sketch.Read ρ) → List (Sketch.Answer ν)
  | [] => []
  | r :: rest => (c.answer r).1 :: (c.answer r).2.answers rest

/-- The sketch after a use. -/
def apply (c : InPlace ν ρ) : Sketch.Use ν ρ → InPlace ν ρ
  | .insert v => c.insert v
  | .quantile φ => (c.quantile φ).2
  | .toSamples | .sampledSum => c.toSamples.2

/-- The sketch after several uses in turn. -/
def run (c : InPlace ν ρ) (uses : List (Sketch.Use ν ρ)) : InPlace ν ρ := uses.foldl apply c

/-! ## The same values, and a note that is true -/

/-- The sketch holds what `s` holds, and a buffer that is noted as sorted is sorted. -/
structure Refines (c : InPlace ν ρ) (s : Sketch ν ρ) : Prop where
  alike : c.toSketch.Alike s
  count_eq : c.count = s.count
  sum_eq : c.sum = s.sum
  sorted : c.isSorted = true → c.buffer.toList.Pairwise fun v w => Measure.sortLe v w = true

variable [LawfulMeasure ν] [SortsStrictly ν] {c : InPlace ν ρ} {s : Sketch ν ρ}

omit [Precision ρ] [LawfulMeasure ν] [SortsStrictly ν] in
theorem refines_empty (targets : List (Target ρ)) :
    (empty targets : InPlace ν ρ).Refines (Sketch.empty targets) where
  alike := ⟨rfl, rfl, rfl, .refl _⟩
  count_eq := rfl
  sum_eq := rfl
  sorted _ := .nil

omit [Precision ρ] in
/-- A sorted buffer is the sorted buffer. -/
theorem Refines.sortBuffer (h : c.Refines s) :
    c.sortBuffer.Refines s ∧ c.sortBuffer.buffer.toList = s.sortedBuffer := by
  unfold InPlace.sortBuffer
  split_ifs with known
  · refine ⟨h, ?_⟩
    rw [← h.alike.sortedBuffer_eq, Sketch.sortedBuffer]
    exact (List.mergeSort_of_pairwise (h.sorted known)).symm
  · have buffer := h.alike.sortedBuffer_eq
    refine ⟨⟨⟨h.alike.targets_eq, h.alike.merged_eq, h.alike.summary_eq, ?_⟩, h.count_eq, h.sum_eq,
      fun _ => ?_⟩, buffer⟩
    · exact (Sketch.sortedBuffer_perm c.toSketch).trans h.alike.buffer_perm
    · exact List.pairwise_mergeSort sortLe_trans sortLe_total _

theorem Refines.settle (h : c.Refines s) : c.settle.Refines s.settle := by
  have empty : c.buffer.isEmpty = s.buffer.isEmpty := by
    rw [Array.isEmpty, Array.isEmpty, h.alike.size_eq]
  unfold InPlace.settle Sketch.settle
  rw [empty]
  split_ifs
  · exact h
  · obtain ⟨sorted, buffer⟩ := h.sortBuffer
    refine ⟨Sketch.Alike.condense ⟨sorted.alike.targets_eq, ?_, ?_, .refl _⟩, sorted.count_eq,
      sorted.sum_eq, fun _ => .nil⟩
    · exact congrArg₂ (· + ·) sorted.alike.merged_eq sorted.alike.size_eq
    · exact congrArg₂ (Sample.weave true) buffer sorted.alike.summary_eq

theorem Refines.insert (h : c.Refines s) (v : ν) : (c.insert v).Refines (s.insert v) := by
  have pushed : InPlace.Refines ⟨c.toSketch.push v, false⟩ (s.push v) := by
    refine ⟨⟨h.alike.targets_eq, h.alike.merged_eq, h.alike.summary_eq, ?_⟩,
      congrArg (· + 1) h.count_eq, congrArg (· + v) h.sum_eq, nofun⟩
    change (c.buffer.push v).toList.Perm (s.buffer.push v).toList
    rw [Array.toList_push, Array.toList_push]
    exact h.alike.buffer_perm.append_right _
  have size : (c.toSketch.push v).buffer.size = (s.push v).buffer.size := pushed.alike.size_eq
  rw [InPlace.insert, Sketch.insert_eq]
  dsimp only
  rw [size]
  split_ifs
  · exact pushed.settle
  · exact pushed

theorem Refines.quantile (h : c.Refines s) (φ : ρ) :
    (c.quantile φ).1 = (s.quantile φ).1 ∧ (c.quantile φ).2.Refines (s.quantile φ).2 := by
  unfold InPlace.quantile Sketch.quantile
  rw [h.alike.summary_eq]
  split_ifs with samples empty
  · have waiting : s.sortedBuffer = [] := by
      rw [← h.alike.sortedBuffer_eq, Sketch.sortedBuffer, Array.isEmpty_iff.1 empty]
      exact List.mergeSort_nil
    rw [waiting]
    exact ⟨rfl, h⟩
  · obtain ⟨sorted, buffer⟩ := h.sortBuffer
    rw [buffer]
    exact ⟨rfl, sorted⟩
  · have settled := h.settle
    have threshold_eq : c.settle.threshold φ = s.settle.threshold φ := by
      simp only [Sketch.threshold, Sketch.limit, settled.alike.targets_eq, settled.alike.merged_eq]
    dsimp only
    rw [settled.alike.summary_eq, threshold_eq]
    cases s.settle.summary <;> exact ⟨rfl, settled⟩

theorem Refines.toSamples (h : c.Refines s) :
    c.toSamples.1 = s.toSamples.1 ∧ c.toSamples.2.Refines s.toSamples.2 := by
  unfold InPlace.toSamples Sketch.toSamples
  rw [h.alike.summary_eq]
  split_ifs
  · obtain ⟨sorted, buffer⟩ := h.sortBuffer
    rw [buffer]
    exact ⟨rfl, sorted⟩
  · have condensed := h.settle.alike.condense
    exact ⟨condensed.summary_eq, condensed, h.settle.count_eq, h.settle.sum_eq, h.settle.sorted⟩

/-! ## The same answers -/

theorem Refines.answer (h : c.Refines s) (r : Sketch.Read ρ) :
    (c.answer r).1 = (r.answer s).1 ∧ (c.answer r).2.Refines (r.answer s).2 := by
  cases r with
  | quantile φ => exact ⟨congrArg Sketch.Answer.value (h.quantile φ).1, (h.quantile φ).2⟩
  | toSamples => exact ⟨congrArg Sketch.Answer.samples h.toSamples.1, h.toSamples.2⟩
  | sampledSum =>
    exact ⟨congrArg (fun xs => Sketch.Answer.value (Sample.total xs)) h.toSamples.1,
      h.toSamples.2⟩

theorem Refines.answers (h : c.Refines s) (reads : List (Sketch.Read ρ)) :
    c.answers reads = (s.answers reads).1 := by
  induction reads generalizing c s with
  | nil => rfl
  | cons r rest ih =>
    obtain ⟨same, after⟩ := h.answer r
    exact congrArg₂ List.cons same (ih after)

theorem Refines.apply (h : c.Refines s) (u : Sketch.Use ν ρ) : (c.apply u).Refines (u.apply s) := by
  cases u with
  | insert v => exact h.insert v
  | quantile φ => exact (h.quantile φ).2
  | toSamples | sampledSum => exact h.toSamples.2

theorem Refines.run (h : c.Refines s) (uses : List (Sketch.Use ν ρ)) :
    (c.run uses).Refines (s.run uses) := by
  induction uses generalizing c s with
  | nil => exact h
  | cons u rest ih => exact ih (h.apply u)

/-- Sorting in place changes no answer. -/
theorem answers_eq (targets : List (Target ρ)) (uses : List (Sketch.Use ν ρ))
    (reads : List (Sketch.Read ρ)) :
    ((empty targets).run uses).answers reads =
      (((Sketch.empty targets).run uses).answers reads).1 :=
  ((refines_empty targets).run uses).answers reads

end InPlace

end Telemetry
