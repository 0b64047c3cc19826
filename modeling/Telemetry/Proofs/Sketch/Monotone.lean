import Telemetry.Proofs.Sketch.Accuracy
import Telemetry.Proofs.Sketch.StandardTargets

/-!
# Greater quantiles

A greater quantile stands for a greater rank, but the uncertainty that is allowed there may be
smaller, so it is not plain that its threshold is greater, too. It is, if no target's error reaches
beyond the greatest rank: below its own rank such a target takes back no more than two ranks of
uncertainty for each rank (`allowance_le_add`), and a threshold has half of them. A search with a
greater threshold stops no earlier, and samples ascend, so that answers never cross
(`place_quantile_mono`). Of the standard targets, the one for the greatest quantile just reaches the
greatest rank.
-/

namespace Telemetry

open LawfulMeasure

variable {ν : Type}

/-! ## Thresholds -/

/-- The error of a target does not reach beyond the greatest rank. -/
def Target.EndsBelowTop (t : Target ℚ) : Prop := t.quantile + t.epsilon ≤ 1

theorem Target.endsBelowTop_standard : ∀ t ∈ (standard : List (Target ℚ)), t.EndsBelowTop := by
  intro t ht
  obtain ⟨hq, hε⟩ := mem_standard.1 ht
  rw [EndsBelowTop, hε]
  rcases mem_reportedQuantiles.1 hq with h | h | h <;> rw [h] <;> norm_num

/-- From one rank to a greater one a target takes back at most two ranks of uncertainty for each
rank. -/
theorem Target.Valid.allowance_le_add {t : Target ℚ} (ht : t.Valid) (top : t.EndsBelowTop)
    {r r' : ℚ} (le : r ≤ r') (n : ℚ) : t.allowance n r ≤ t.allowance n r' + 2 * (r' - r) := by
  have hq := ht.quantile_pos
  have hq' : 0 < 1 - t.quantile := sub_pos.2 ht.quantile_lt_one
  have hε := ht.epsilon_pos
  rw [ht.allowance_eq_max, ht.allowance_eq_max, mul_max_of_nonneg _ _ (by positivity),
    mul_max_of_nonneg _ _ (by positivity)]
  refine max_le ?_ ?_
  · have grows : 2 * t.epsilon * (r / t.quantile) ≤ 2 * t.epsilon * (r' / t.quantile) := by gcongr
    have := le_max_left (2 * t.epsilon * (r' / t.quantile))
      (2 * t.epsilon * ((n - r') / (1 - t.quantile)))
    linarith
  · have slope : t.epsilon / (1 - t.quantile) ≤ 1 := (div_le_one hq').2 (le_sub_iff_add_le'.2 top)
    have falls : 2 * t.epsilon * ((n - r) / (1 - t.quantile)) =
        2 * t.epsilon * ((n - r') / (1 - t.quantile)) +
          2 * (t.epsilon / (1 - t.quantile) * (r' - r)) := by ring
    have bound := mul_le_of_le_one_left (sub_nonneg.2 le) slope
    have := le_max_right (2 * t.epsilon * (r' / t.quantile))
      (2 * t.epsilon * ((n - r') / (1 - t.quantile)))
    linarith

section Thresholds

variable {targets : List (Target ℚ)} (valid : ∀ t ∈ targets, t.Valid)
  (top : ∀ t ∈ targets, t.EndsBelowTop)

include valid top

theorem tolerance_le_add {r r' : ℚ} (le : r ≤ r') (n : ℕ) :
    tolerance targets n r ≤ tolerance targets n r' + 2 * (r' - r) := by
  rcases eq_or_ne targets [] with rfl | ne
  · exact le_add_of_nonneg_right (by linarith)
  · rw [← sub_le_iff_le_add]
    refine le_tolerance ne fun t ht => ?_
    rw [sub_le_iff_le_add]
    exact (tolerance_le_allowance ht n r).trans ((valid t ht).allowance_le_add (top t ht) le n)

theorem exactThreshold_mono (n : ℕ) {φ φ' : ℚ} (le : φ ≤ φ') :
    exactThreshold targets n φ ≤ exactThreshold targets n φ' := by
  have ranks : (⌈φ * n⌉ : ℚ) ≤ ⌈φ' * n⌉ :=
    Int.cast_le.2 (Int.ceil_le_ceil (mul_le_mul_of_nonneg_right le n.cast_nonneg))
  have tolerances := tolerance_le_add valid top ranks n
  rw [exactThreshold, exactThreshold, ← Int.ceil_intCast_add, ← Int.ceil_intCast_add]
  refine Int.ceil_le_ceil ?_
  linarith

end Thresholds

/-! ## Answers -/

namespace Sample

/-- A search ends at one of the samples. -/
theorem exists_seek_eq {ρ : Type} [Precision ρ] (threshold : ρ) (before : ℕ) (held : Sample ν)
    (rest : List (Sample ν)) : ∃ x ∈ held :: rest, x.value = seek threshold before held rest := by
  obtain ⟨pre, b, post, split, answer, -⟩ := seek_split threshold before held rest
  have mem : b ∈ brackets before (held :: rest) := by simp [split]
  rw [answer]
  exact exists_sample mem

variable [Measure ν] [LawfulMeasure ν]

/-- A search with a greater threshold stops no earlier. -/
theorem place_seek_mono {low high : ℚ} (le : low ≤ high) (before : ℕ) (held : Sample ν)
    (rest : List (Sample ν))
    (ascending : (held :: rest).Pairwise fun x y => place x.value ≤ place y.value) :
    place (seek low before held rest) ≤ place (seek high before held rest) := by
  induction rest generalizing before held with
  | nil => exact le_rfl
  | cons s rest ih =>
    obtain ⟨least, ascending⟩ := List.pairwise_cons.1 ascending
    by_cases stops : low < Precision.ofInt ((before + held.width : ℕ) + s.span)
    · obtain ⟨x, hx, found⟩ := exists_seek_eq high before held (s :: rest)
      rw [← found, seek, if_pos stops]
      rcases List.mem_cons.1 hx with rfl | hx
      · exact le_rfl
      · exact least x hx
    · rw [seek, seek, if_neg stops, if_neg fun above => stops (le.trans_lt above)]
      exact ih (before + held.width) s ascending

end Sample

namespace Sketch

variable [Measure ν] [LawfulMeasure ν]

theorem place_exactQuantile_mono {values : List ν}
    (ascending : values.Pairwise fun x y => place x ≤ place y) {φ φ' : ℚ} (le : φ ≤ φ') :
    place (exactQuantile values φ) ≤ place (exactQuantile values φ') := by
  rcases eq_or_ne values [] with rfl | ne
  · exact le_rfl
  · have pos := List.length_pos_iff.2 ne
    have ranks : ⌊(values.length : ℚ) * φ⌋.toNat ≤ ⌊(values.length : ℚ) * φ'⌋.toNat :=
      Int.toNat_le_toNat (Int.floor_le_floor (mul_le_mul_of_nonneg_left le (Nat.cast_nonneg _)))
    change place (values.getD (min (⌊(values.length : ℚ) * φ⌋.toNat - 1) (values.length - 1)) _) ≤
      place (values.getD (min (⌊(values.length : ℚ) * φ'⌋.toNat - 1) (values.length - 1)) _)
    rw [List.getD_eq_getElem _ _ (by omega), List.getD_eq_getElem _ _ (by omega)]
    exact place_getElem_mono ascending _ (by omega)

/-- After any run over numbers, the answer for a greater quantile is no less. -/
theorem place_quantile_mono {targets : List (Target ℚ)} {uses : List (Use ν ℚ)}
    (valid : ∀ t ∈ targets, t.Valid) (top : ∀ t ∈ targets, t.EndsBelowTop)
    (numbers : ∀ v ∈ inserted uses, IsNumber v) {φ φ' : ℚ} (le : φ ≤ φ') :
    place (((empty targets).run uses).quantile φ).1 ≤
      place (((empty targets).run uses).quantile φ').1 := by
  by_cases nil : ((empty targets).run uses).summary = []
  · rw [quantile_exact numbers φ nil, quantile_exact numbers φ' nil]
    exact place_exactQuantile_mono (sorted_pairwise _) le
  · have ascending := (faithful_settle numbers φ nil).ascending
    have thresholds : ((empty targets).run uses).settle.threshold φ ≤
        ((empty targets).run uses).settle.threshold φ' := by
      rw [threshold_settle φ nil, threshold_settle φ' nil]
      exact Int.cast_le.2 (exactThreshold_mono valid top _ le)
    rw [quantile, quantile, if_neg (mt List.isEmpty_iff.1 nil), if_neg (mt List.isEmpty_iff.1 nil)]
    cases samples : ((empty targets).run uses).settle.summary with
    | nil => exact absurd samples (summary_settle_ne_nil nil)
    | cons first rest =>
      rw [samples] at ascending
      simp only [samples]
      exact Sample.place_seek_mono thresholds 0 first rest ascending

end Sketch

end Telemetry
