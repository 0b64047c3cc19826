import Telemetry.Proofs.Sketch.Conservation
import Telemetry.Proofs.Sketch.Extremes
import Telemetry.Proofs.Sketch.Monotone

/-!
# Quantiles that the greatest value answers

No sample has a greater rank than there are values. A threshold that is no lower leaves a search
nothing to stop at, and the last sample answers, which holds the greatest value
(`greatest_of_threshold`). For the standard targets this begins with the greatest reported quantile:
its share of the values and the permitted error make up all of them, and a greater quantile has no
lower threshold (`length_le_exactThreshold_standard`). So from the first full buffer on such a
quantile reads the maximum (`quantile_eq_greatest`).
-/

namespace Telemetry

open LawfulMeasure

/-- From the greatest reported quantile on, the threshold of the standard targets is above all
ranks. -/
theorem Target.length_le_exactThreshold_standard {φ : ℚ} {n : ℕ} (high : 99 / 100 ≤ φ)
    (filled : Sketch.capacity ≤ n) : (n : ℤ) ≤ exactThreshold standard n φ := by
  have reported : (99 / 100 : ℚ) ∈ reportedQuantiles ℚ := mem_reportedQuantiles.2 (by norm_num)
  have whole : (n : ℚ) = (99 / 100 + 1 / 100) * n := by ring
  have own := le_exactThreshold_standard reported filled
  rw [← whole] at own
  exact (Int.cast_le.1 own).trans (exactThreshold_mono valid_standard endsBelowTop_standard n high)

namespace Sketch

section Threshold

variable {ν : Type} [Measure ν] [LawfulMeasure ν] {targets : List (Target ℚ)}
  {uses : List (Use ν ℚ)} {φ : ℚ}

/-- A search with a threshold above all ranks finds the greatest of the inserted values. -/
theorem greatest_of_threshold (valid : ∀ t ∈ targets, t.Valid)
    (numbers : ∀ v ∈ inserted uses, IsNumber v) (filled : capacity ≤ (inserted uses).length)
    (top : (inserted uses).length ≤ exactThreshold targets (inserted uses).length φ) :
    (((empty targets).run uses).quantile φ).1 ∈ inserted uses ∧
      ∀ v ∈ inserted uses, place v ≤ place (((empty targets).run uses).quantile φ).1 := by
  have some : inserted uses ≠ [] :=
    List.ne_nil_of_length_pos (Nat.lt_of_lt_of_le (by decide) filled)
  have samples := mt (summary_run_eq_nil_iff targets uses).1 (not_lt.2 filled)
  exact ⟨quantile_mem numbers φ some, place_le_of_length_le_atMost
    (length_le_atMost_of_top valid numbers samples top)⟩

end Threshold

/-- After any run over numbers that inserted as many as fill the buffer, a sketch of the standard
targets answers the greatest reported quantile, and every greater one, with the maximum of all
inserted values. -/
theorem quantile_eq_greatest {uses : List (Use Float ℚ)}
    (numbers : ∀ v ∈ inserted uses, v.isNaN = false)
    (filled : capacity ≤ (inserted uses).length) {φ : ℚ} (high : 99 / 100 ≤ φ) :
    let answer := ((standard.run uses).quantile φ).1
    answer ∈ inserted uses ∧ ∀ v ∈ inserted uses, v ≤ answer := by
  intro answer
  obtain ⟨mem, greatest⟩ := greatest_of_threshold Target.valid_standard numbers filled
    (Target.length_le_exactThreshold_standard high filled)
  exact ⟨mem, fun v hv => le_of_place_le (numbers v hv) (numbers answer mem) (greatest v hv)⟩

theorem quantile_eq_greatest_descent :
    let uses : List (Use Float ℚ) := insertions descent
    let answer := ((standard.run uses).quantile (99 / 100)).1
    (∀ v ∈ inserted uses, v.isNaN = false) ∧ capacity ≤ (inserted uses).length ∧
      (99 / 100 : ℚ) ≤ 99 / 100 ∧ answer ∈ inserted uses ∧ ∀ v ∈ inserted uses, v ≤ answer := by
  intro uses answer
  have filled : capacity ≤ (inserted uses).length := by
    rw [inserted_insertions, descent, List.length_map, List.length_range]
  exact ⟨isNaN_of_mem_descent, filled, le_rfl,
    quantile_eq_greatest isNaN_of_mem_descent filled le_rfl⟩

end Sketch

end Telemetry
