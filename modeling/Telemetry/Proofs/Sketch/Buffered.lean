import Telemetry.Proofs.RawDouble
import Telemetry.Proofs.Sketch.Conservation
import Telemetry.Proofs.Sketch.InPlace

/-!
# Few values

As long as there are fewer values than fill the buffer, a sketch has merged nothing and answers from
the sorted values themselves (`answer_of_few`). The values decide the answers then: neither their
order of arrival, nor the reads in between, nor the targets have a part in them. A sum of values
that are counted once each is their plain sum (`total_exact`), and a quantile is rounded down to a
position among them (`getElem?_position`).
-/

namespace Telemetry

open LawfulMeasure Binary64

namespace Sketch

/-! ## Answers from the sorted values -/

section Few

variable {ν ρ : Type} [Measure ν] [Precision ρ] {targets : List (Target ρ)}
  {uses : List (Use ν ρ)}

/-- What sorted values answer when all of them are at hand. -/
def exactAnswer (values : List ν) : Read ρ → Answer ν
  | .quantile φ => .value (exactQuantile values φ)
  | .toSamples => .samples (values.map Sample.exact)
  | .sampledSum => .value (Sample.total (values.map Sample.exact))

theorem answer_of_few (few : (inserted uses).length < capacity) (r : Read ρ) :
    (r.answer ((empty targets).run uses)).1 = exactAnswer (sorted (inserted uses)) r := by
  have samples := (summary_run_eq_nil_iff targets uses).2 few
  have nil := List.isEmpty_iff.2 samples
  have values := sortedBuffer_run_of_nil samples
  cases r with
  | quantile φ =>
    change Answer.value (((empty targets).run uses).quantile φ).1 = _
    rw [quantile, if_pos nil, values]
    rfl
  | toSamples =>
    change Answer.samples ((empty targets).run uses).toSamples.1 = _
    rw [toSamples, if_pos nil, values]
    rfl
  | sampledSum =>
    change Answer.value (Sample.total ((empty targets).run uses).toSamples.1) = _
    rw [toSamples, if_pos nil, values]
    rfl

theorem answers_of_few [LawfulPrecision ρ] (few : (inserted uses).length < capacity)
    (reads : List (Read ρ)) :
    (((empty targets).run uses).answers reads).1 =
      reads.map (exactAnswer (sorted (inserted uses))) := by
  rw [answers_fst (condensed_run targets uses)]
  exact List.map_congr_left fun r _ => answer_of_few few r

end Few

/-! ## Sums and positions -/

/-- Each value counted once, the weighted sum is the plain one. -/
theorem total_exact {ν : Type} [Measure ν] [CountsOnce ν] (values : List ν) :
    Sample.total (values.map Sample.exact) = values.foldl (· + ·) Measure.emptySum := by
  rw [Sample.total, List.foldl_map]
  exact List.foldl_ext _ _ _ fun sum v _ => CountsOnce.add_weighted_one sum v

/-- The position among `n` sorted values that a rank is answered from. The values of rank one are at
position zero, and an infinite rank is at one end. -/
def position (n : ℕ) (rank : Float) : ℕ :=
  if rank.isFinite then min (n - 1) (⌊toRat rank⌋ - 1).toNat
  else if 0 < rank then n - 1 else 0

theorem truncate_sub_one_eq {n : ℕ} (few : n < 2 ^ 64) (rank : Float) :
    min (truncate rank - 1) (n - 1) = position n rank := by
  unfold position
  split_ifs with finite positive
  · rw [truncate_eq finite]
    omega
  · rw [truncate_of_not_isFinite (Bool.eq_false_iff.2 finite), if_pos positive]
    omega
  · rw [truncate_of_not_isFinite (Bool.eq_false_iff.2 finite), if_neg positive]
    omega

theorem getElem?_position {ν : Type} [Measure ν] {values : List ν} (filled : values ≠ [])
    (few : values.length < 2 ^ 64) (φ : Float) :
    values[position values.length (Float.ofNat values.length * φ)]? =
      some (exactQuantile values φ) := by
  rw [← truncate_sub_one_eq few]
  exact getElem?_exactQuantile filled φ

/-- As long as a run has inserted some values, but fewer than fill the buffer, all answers are
exact: the samples are the sorted values, the sum of the samples is their sum in that order, and a
quantile is the value at its position. Any run that inserts the same values in some order, with any
reads in between, gives these answers too, one read after the other, and so does a sketch that sorts
its buffer in place. Nothing but the order of sorting is asked of the values, so this holds of
doubles by their bits, with NaNs of either sign and any payload among them. -/
theorem exact_of_few {ν : Type} [Measure ν] [LawfulMeasure ν] [SortsStrictly ν] [CountsOnce ν]
    {targets : List (Target Float)} {uses : List (Use ν Float)} (filled : inserted uses ≠ [])
    (few : (inserted uses).length < capacity) :
    let s : Sketch ν Float := (empty targets).run uses
    let values := sorted (inserted uses)
    values.Perm (inserted uses) ∧ (values.Pairwise fun v w => Measure.sortLe v w = true) ∧
      s.toSamples.1 = values.map (fun v => ⟨v, 1, 0⟩) ∧
      s.sampledSum.1 = values.foldl (· + ·) Measure.emptySum ∧
      (∀ φ, values[position values.length (Float.ofNat values.length * φ)]? =
        some (s.quantile φ).1) ∧
      ∀ others : List (Use ν Float), (inserted others).Perm (inserted uses) → ∀ reads,
        (((empty targets).run others).answers reads).1 = reads.map (fun r => (r.answer s).1) ∧
          ((InPlace.empty targets).run others).answers reads =
            reads.map (fun r => (r.answer s).1) := by
  intro s values
  have answer : ∀ r : Read Float, (r.answer s).1 = exactAnswer values r := answer_of_few few
  have perm : values.Perm (inserted uses) := sorted_perm _
  have length : values.length < 2 ^ 64 := perm.length_eq ▸ few.trans (by decide)
  have nonempty : values ≠ [] :=
    List.ne_nil_of_length_pos (perm.length_eq ▸ List.length_pos_iff.2 filled)
  have same : ∀ others : List (Use ν Float), (inserted others).Perm (inserted uses) →
      ∀ reads, (((empty targets).run others).answers reads).1 =
        reads.map (fun r => (r.answer s).1) := by
    intro others h reads
    rw [answers_of_few (h.length_eq ▸ few), sorted_congr h]
    exact List.map_congr_left fun r _ => (answer r).symm
  refine ⟨perm, List.pairwise_mergeSort sortLe_trans sortLe_total _, ?_, ?_, fun φ => ?_,
    fun others h reads => ⟨same others h reads, ?_⟩⟩
  · exact Answer.samples.inj (answer .toSamples)
  · exact (Answer.value.inj (answer .sampledSum)).trans (total_exact values)
  · rw [Answer.value.inj (answer (.quantile φ))]
    exact getElem?_position nonempty length φ
  · rw [InPlace.answers_eq, same others h]

theorem exact_of_few_negativeNaN :
    let nan : RawDouble := ⟨0xFFF8000000000000⟩
    let one : RawDouble := ⟨0x3FF0000000000000⟩
    let uses : List (Use RawDouble Float) := [.insert one, .quantile 0.5, .insert nan, .sampledSum]
    let s : Sketch RawDouble Float := (empty Target.standard).run uses
    inserted uses ≠ [] ∧ (inserted uses).length < capacity ∧
      s.toSamples.1 = [⟨nan, 1, 0⟩, ⟨one, 1, 0⟩] ∧ (s.quantile 0.5).1 = nan := by
  intro nan one uses s
  have filled : inserted uses ≠ [] := List.cons_ne_nil _ _
  have few : (inserted uses).length < capacity := by
    change 2 < 500
    decide
  have in_order : sorted (inserted uses) = [nan, one] :=
    (sorted_congr (List.Perm.swap nan one [])).trans (List.mergeSort_of_pairwise (by decide))
  have first : position 2 (Float.ofNat 2 * 0.5) = 0 := by decide +kernel
  obtain ⟨-, -, samples, -, quantile, -⟩ :=
    @exact_of_few RawDouble _ _ _ _ Target.standard uses filled few
  rw [in_order] at samples quantile
  have answer : [nan, one][position 2 (Float.ofNat 2 * 0.5)]? = some (s.quantile 0.5).1 :=
    quantile 0.5
  rw [first] at answer
  exact ⟨filled, few, samples, (Option.some.inj answer).symm⟩

end Sketch

end Telemetry
