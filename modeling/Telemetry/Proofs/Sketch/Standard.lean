import Telemetry.Proofs.Sketch.Accuracy
import Telemetry.Proofs.Sketch.Whole

/-!
# Accuracy of the standard sketch

For each reported quantile the standard sketch is accurate as long as it holds few values
(`standardAccurate_of_few`): fewer than 7300 for 1/2, fewer than 1300 for 9/10, and any number for
99/100, where the permitted ranks reach up to the greatest. The bounds are sharp: some runs of 7300
and of 1300 values miss (`standardAccurate_iff_few`).
-/

namespace Telemetry

open LawfulMeasure

namespace Sketch

variable {q : ℚ} {uses : List (Use Float ℚ)}

/-- The answer for a quantile, after these uses of a sketch of the standard targets, has a permitted
rank. -/
def StandardAccurate (q : ℚ) (uses : List (Use Float ℚ)) : Prop :=
  WithinRanks (inserted uses) (lowerRank q (standardEpsilon ℚ) (inserted uses).length)
    (upperRank q (standardEpsilon ℚ) (inserted uses).length) ((standard.run uses).quantile q).1

/-- So few values that no bracket can grow past the permitted error. -/
def Few (q : ℚ) (n : ℕ) : Prop := q = 99 / 100 ∨ q = 9 / 10 ∧ n < 1300 ∨ q = 1 / 2 ∧ n < 7300

theorem Few.mono {m n : ℕ} (h : Few q n) (le : m ≤ n) : Few q m :=
  h.imp_right fun h => h.imp (And.imp_right le.trans_lt) (And.imp_right le.trans_lt)

theorem between_standard {ν : Type} [Measure ν] [LawfulMeasure ν] {uses : List (Use ν ℚ)}
    (hq : q ∈ reportedQuantiles ℚ) (numbers : ∀ v ∈ inserted uses, IsNumber v)
    (hv : inserted uses ≠ []) (few : Few q (inserted uses).length) :
    Between (inserted uses) (lowerRank q (1 / 100) (inserted uses).length)
      (upperRank q (1 / 100) (inserted uses).length) ((standard.run uses).quantile q).1 := by
  have hmem : ⟨q, 1 / 100⟩ ∈ (Target.standard : List (Target ℚ)) := Target.mem_standard.2 ⟨hq, rfl⟩
  refine between_quantile Target.valid_standard hmem numbers hv
    (fun _ => .inr (Target.exactThreshold_standard_le hq _))
    (fun filled => Target.le_exactThreshold_standard hq filled) (fun _ => ?_)
  rcases few with rfl | ⟨rfl, few⟩ | ⟨rfl, few⟩
  · exact .inl (by norm_num)
  · have few : ((inserted uses).length : ℚ) < 1300 := by exact_mod_cast few
    exact .inr (.inr ⟨by norm_num, by norm_num, by linarith, by linarith⟩)
  · have few : ((inserted uses).length : ℚ) < 7300 := by exact_mod_cast few
    exact .inr (.inr ⟨by norm_num, by norm_num, by linarith, by linarith⟩)

/-- The answer is accurate as long as there are few values. -/
theorem standardAccurate_of_few (hq : q ∈ reportedQuantiles ℚ)
    (finite : ∀ v ∈ inserted uses, v.isFinite = true) (hv : inserted uses ≠ [])
    (few : Few q (inserted uses).length) : StandardAccurate q uses := by
  have hmem : ⟨q, 1 / 100⟩ ∈ (Target.standard : List (Target ℚ)) := Target.mem_standard.2 ⟨hq, rfl⟩
  have numbers : ∀ v ∈ inserted uses, v.isNaN = false := fun v hv =>
    Binary64.isNaN_of_isFinite (finite v hv)
  exact (withinRanks_quantile_iff (Target.valid_standard _ hmem) finite hv q).2
    (between_standard hq numbers hv few)

/-! ## Runs that miss -/

section Misses

variable {batches : List (List ℕ)} {rest : List ℕ} {k : ℕ}

theorem Batched.not_standardAccurate (h : Batched batches rest) (hq : q ∈ reportedQuantiles ℚ)
    (hk : k < 2 ^ 52) (found : find Target.standard q (mergeNats (batches ++ [rest])) = some k)
    (low : (batches.flatten ++ rest).countP (Nat.ble · k) <
      lowerRank q (1 / 100) (batches.flatten ++ rest).length) :
    ¬StandardAccurate q (insertions (wholes batches rest)) := by
  have hmem : ⟨q, 1 / 100⟩ ∈ (Target.standard : List (Target ℚ)) := Target.mem_standard.2 ⟨hq, rfl⟩
  have iff := @withinRanks_quantile_iff Target.standard (insertions (wholes batches rest)) _
    (Target.valid_standard _ hmem)
  rw [inserted_insertions, run_insertions] at iff
  intro accurate
  rw [StandardAccurate, inserted_insertions, run_insertions] at accurate
  have at_most := ((iff h.isFinite h.wholes_ne_nil q).1 accurate).1
  have answer := h.quantile_wholes found
  rw [standard] at answer
  rw [answer, h.atMost_wholes hk, wholes, List.length_map] at at_most
  exact absurd at_most low.not_ge

/-- Runs of so many values are not all accurate. -/
theorem Batched.length_gt (h : Batched batches rest) {N : ℕ}
    (missed : ¬StandardAccurate q (insertions (wholes batches rest)))
    (accurate : ∀ uses : List (Use Float ℚ), (∀ v ∈ inserted uses, v.isFinite = true) →
      inserted uses ≠ [] → (inserted uses).length ≤ N → StandardAccurate q uses) :
    N < (batches.flatten ++ rest).length := by
  by_contra! le
  have run := accurate (insertions (wholes batches rest))
  rw [inserted_insertions, wholes, List.length_map, ← wholes] at run
  exact missed (run h.isFinite h.wholes_ne_nil le)

end Misses

/-! ### Two layouts

The values around the quantile's rank come last. They are joined from the right until the tolerance
is used up, which for so many values is one rank further than what is permitted. -/

/-- Values for the quantile 9/10. -/
def ninetyBatches : List (List ℕ) :=
  [List.range' 481 500, List.range' 1 480 ++ List.range' 1281 20]

def ninetyRest : List ℕ := List.range' 981 175 ++ List.replicate 125 1156

theorem batched_ninety : Batched ninetyBatches ninetyRest := by decide +kernel

theorem not_standardAccurate_ninety :
    ¬StandardAccurate (9 / 10) (insertions (wholes ninetyBatches ninetyRest)) := by
  have found : find Target.standard (9 / 10) (mergeNats (ninetyBatches ++ [ninetyRest])) =
      some 1155 := by decide +kernel
  refine batched_ninety.not_standardAccurate (mem_reportedQuantiles.2 (.inr (.inl rfl)))
    (by norm_num) found ?_
  decide +kernel

/-- Values for the quantile 1/2. -/
def medianBatches : List (List ℕ) :=
  [List.range' 2801 500, List.range' 2301 500, List.range' 1801 500, List.range' 1301 500,
    List.range' 801 500, List.range' 301 500, List.range' 1 300 ++ List.range' 3601 200,
    List.range' 3801 500, List.range' 4301 500, List.range' 4801 500, List.range' 5301 500,
    List.range' 5801 500, List.range' 6301 500, List.range' 6801 500]

def medianRest : List ℕ := List.range' 3301 300

theorem batched_median : Batched medianBatches medianRest := by decide +kernel

theorem not_standardAccurate_median :
    ¬StandardAccurate (1 / 2) (insertions (wholes medianBatches medianRest)) := by
  have found : find Target.standard (1 / 2) (mergeNats (medianBatches ++ [medianRest])) =
      some 3575 := by decide +kernel
  refine batched_median.not_standardAccurate (mem_reportedQuantiles.2 (.inl rfl)) (by norm_num)
    found ?_
  decide +kernel

/-! ## How far the standard sketch is accurate -/

/-- Runs of up to `N` values are all accurate if and only if `N` is below the bound for the
quantile, which for 99/100 is none. -/
theorem standardAccurate_iff_few (hq : q ∈ reportedQuantiles ℚ) (N : ℕ) :
    (∀ uses : List (Use Float ℚ), (∀ v ∈ inserted uses, v.isFinite = true) → inserted uses ≠ [] →
      (inserted uses).length ≤ N → StandardAccurate q uses) ↔ Few q N := by
  constructor
  · intro accurate
    rcases mem_reportedQuantiles.1 hq with rfl | rfl | rfl
    · have many := batched_median.length_gt not_standardAccurate_median accurate
      exact .inr (.inr ⟨rfl, many.trans_eq (by decide +kernel)⟩)
    · have many := batched_ninety.length_gt not_standardAccurate_ninety accurate
      exact .inr (.inl ⟨rfl, many.trans_eq (by decide +kernel)⟩)
    · exact .inl rfl
  · intro few uses finite hv short
    exact standardAccurate_of_few hq finite hv (few.mono short)

/-- The median of up to 7299 values. -/
theorem standardAccurate_median : 1 / 2 ∈ reportedQuantiles ℚ ∧
    ∀ uses : List (Use Float ℚ), (∀ v ∈ inserted uses, v.isFinite = true) → inserted uses ≠ [] →
      (inserted uses).length ≤ 7299 → StandardAccurate (1 / 2) uses :=
  ⟨mem_reportedQuantiles.2 (.inl rfl),
    (standardAccurate_iff_few (mem_reportedQuantiles.2 (.inl rfl)) 7299).2
      (.inr (.inr ⟨rfl, by norm_num⟩))⟩

/-- The standard sketch is not accurate after every run. -/
theorem not_forall_standardAccurate : ¬∀ q ∈ reportedQuantiles ℚ, ∀ uses : List (Use Float ℚ),
    (∀ v ∈ inserted uses, v.isFinite = true) → inserted uses ≠ [] → StandardAccurate q uses := by
  intro accurate
  have run := accurate (9 / 10) (mem_reportedQuantiles.2 (.inr (.inl rfl)))
    (insertions (wholes ninetyBatches ninetyRest))
  rw [inserted_insertions] at run
  exact not_standardAccurate_ninety (run batched_ninety.isFinite batched_ninety.wholes_ne_nil)

end Sketch

end Telemetry
