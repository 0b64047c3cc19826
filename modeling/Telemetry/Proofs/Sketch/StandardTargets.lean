import Telemetry.Proofs.Sketch.Tolerance

/-!
# The standard targets

The reported quantiles are fractions, so that the thresholds of the standard targets are right but
for one rank (`le_exactThreshold_standard` and `exactThreshold_standard_le`).
-/

namespace Telemetry

theorem mem_reportedQuantiles {q : ℚ} :
    q ∈ reportedQuantiles ℚ ↔ q = 1 / 2 ∨ q = 9 / 10 ∨ q = 99 / 100 := by
  have eq : reportedQuantiles ℚ = [1 / 2, 9 / 10, 99 / 100] := rfl
  simp [eq]

namespace Target

variable {t : Target ℚ} {q : ℚ} {n : ℕ}

theorem mem_standard : t ∈ standard ↔ t.quantile ∈ reportedQuantiles ℚ ∧ t.epsilon = 1 / 100 := by
  obtain ⟨q, ε⟩ := t
  rw [standard, List.mem_map]
  constructor
  · rintro ⟨q, hq, eq⟩
    cases eq
    exact ⟨hq, rfl⟩
  · rintro ⟨hq, rfl⟩
    exact ⟨q, hq, rfl⟩

theorem valid_standard : ∀ t ∈ (standard : List (Target ℚ)), t.Valid := by
  intro t ht
  obtain ⟨hq, hε⟩ := mem_standard.1 ht
  rcases mem_reportedQuantiles.1 hq with h | h | h <;>
    exact ⟨by rw [h]; norm_num, by rw [h]; norm_num, by rw [hε]; norm_num⟩

/-- Thresholds for the reported quantiles are high enough. -/
theorem le_exactThreshold_standard (hq : q ∈ reportedQuantiles ℚ) (hn : Sketch.capacity ≤ n) :
    (q + 1 / 100) * n ≤ exactThreshold standard n q := by
  refine le_exactThreshold (List.cons_ne_nil _ _) fun t ht => ?_
  have valid := valid_standard t ht
  obtain ⟨ht, hε⟩ := mem_standard.1 ht
  rw [← hε]
  rcases le_or_gt t.quantile q with le | gt
  · exact valid.le_allowance_of_le le n
  · -- the next greater quantile is off by the share of several values
    have hn : (500 : ℚ) ≤ n := by exact_mod_cast hn
    have far : q + 9 / 100 ≤ t.quantile := by
      revert gt
      rcases mem_reportedQuantiles.1 hq with rfl | rfl | rfl <;>
        rcases mem_reportedQuantiles.1 ht with h | h | h <;> rw [h] <;> norm_num
    refine valid.le_allowance_of_add_one_le ?_
    nlinarith

/-- They are too high by no more than one rank. -/
theorem exactThreshold_standard_le (hq : q ∈ reportedQuantiles ℚ) (n : ℕ) :
    exactThreshold standard n q ≤ ⌈(q + 1 / 100) * n⌉ + 1 := by
  have hmem : ⟨q, 1 / 100⟩ ∈ (standard : List (Target ℚ)) := mem_standard.2 ⟨hq, rfl⟩
  have fraction := @Valid.exactThreshold_le_of_fraction _ _ (valid_standard _ hmem) hmem n
  rcases mem_reportedQuantiles.1 hq with rfl | rfl | rfl
  · exact @fraction 1 2 (by norm_num) (by norm_num) (by norm_num)
  · exact @fraction 9 10 (by norm_num) (by norm_num) (by norm_num)
  · exact @fraction 99 100 (by norm_num) (by norm_num) (by norm_num)

end Target

end Telemetry
