import Telemetry.Proofs.Sketch.Accuracy
import Telemetry.Proofs.Sketch.Ascent

/-!
# A single target

With an error less than the quantile a sketch of one target misses on some runs, unless the error
reaches up to the greatest rank (`exists_not_accurate_of_lt`). Were every answer accurate, the mark
that answers could not move up as values are added in ascending order, since the next mark was put
down too far away (`Answers.le_of_many`). But the permitted ranks do move up.
-/

namespace Telemetry

open LawfulMeasure

/-! ## What one target allows -/

theorem tolerance_singleton (t : Target ℚ) (n : ℕ) (r : ℚ) :
    tolerance [t] n r = t.allowance n r := rfl

namespace Target

variable {t : Target ℚ}

/-- On either side of its rank a target allows at least what is in proportion to the rank. -/
theorem Valid.mul_le_allowance (ht : t.Valid) (n r : ℚ) :
    2 * t.epsilon * (r / t.quantile) ≤ t.allowance n r := by
  have hε := ht.epsilon_pos
  rw [ht.allowance_eq_max]
  gcongr
  exact le_max_left _ _

/-- The threshold is not far above the greatest permitted rank. -/
theorem Valid.exactThreshold_lt (ht : t.Valid) (n : ℕ) :
    (exactThreshold [t] n t.quantile : ℚ) <
      (t.quantile + t.epsilon) * n + 2 + t.epsilon / t.quantile := by
  have hq := ht.quantile_pos
  have hε := ht.epsilon_pos
  have own := Int.cast_le (R := ℚ).2 (exactThreshold_le (t := t) (List.mem_singleton_self _) n)
  have rank := Int.ceil_lt_add_one (t.quantile * n)
  have half := Int.ceil_lt_add_one (t.epsilon * ⌈t.quantile * n⌉ / t.quantile)
  have share : t.epsilon * ⌈t.quantile * n⌉ / t.quantile <
      t.epsilon * n + t.epsilon / t.quantile := by
    rw [div_lt_iff₀ hq, add_mul, div_mul_cancel₀ _ hq.ne']
    nlinarith
  push_cast at own
  linarith

end Target

/-! ## Accuracy -/

namespace Sketch

/-- The answer for a target's quantile, after these insertions into a sketch of that target alone,
has a permitted rank. -/
def Accurate (t : Target ℚ) (values : List Float) : Prop :=
  WithinRanks values (lowerRank t.quantile t.epsilon values.length)
    (max 1 (upperRank t.quantile t.epsilon values.length))
    (((empty [t]).insertAll values).quantile t.quantile).1

theorem accurate_iff {t : Target ℚ} (ht : t.Valid) {values : List Float}
    (finite : ∀ v ∈ values, v.isFinite = true) (hv : values ≠ []) :
    Accurate t values ↔ Between values (lowerRank t.quantile t.epsilon values.length)
      (upperRank t.quantile t.epsilon values.length)
      (((empty [t]).insertAll values).quantile t.quantile).1 := by
  have pos : 0 < values.length := List.length_pos_iff.2 hv
  have iff := @withinRanks_quantile_iff [t] (insertions values) t ht
  rw [inserted_insertions, run_insertions] at iff
  rw [Accurate, max_eq_right (one_le_upperRank pos ht.quantile_pos ht.epsilon_pos)]
  exact iff finite hv t.quantile

/-! ## Marks that do not move -/

/-- So many values that marks lie far apart against rounding. -/
structure Many (t : Target ℚ) (n : ℚ) : Prop where
  top : (t.quantile + t.epsilon) * (n + capacity) + 2 + t.epsilon / t.quantile < n
  left : 502 * t.quantile + 2 * t.epsilon < t.quantile * (t.quantile - t.epsilon) * n
  both : (t.quantile - 2 * t.epsilon) *
      ((t.quantile + t.epsilon) * capacity + 2 + t.epsilon / t.quantile) +
        502 * t.quantile + 2 * t.epsilon < 2 * t.epsilon ^ 2 * n

theorem exists_many {t : Target ℚ} (ht : t.Valid) (hq : t.epsilon < t.quantile)
    (short : t.quantile + t.epsilon < 1) : ∃ k, ∀ l ≥ k, Many t (capacity * l : ℕ) := by
  have hε := ht.epsilon_pos
  have eventually (c K : ℚ) (hc : 0 < c) :
      ∀ᶠ k : ℕ in Filter.atTop, K < c * (capacity * k : ℕ) := by
    have cap : (0 : ℚ) < c * capacity := mul_pos hc (by norm_num [capacity])
    refine ((tendsto_natCast_atTop_atTop.const_mul_atTop cap).eventually_gt_atTop K).mono ?_
    intro k hk
    rwa [Nat.cast_mul, ← mul_assoc]
  have top := eventually (1 - t.quantile - t.epsilon)
    ((t.quantile + t.epsilon) * capacity + 2 + t.epsilon / t.quantile) (by linarith)
  have left := eventually (t.quantile * (t.quantile - t.epsilon)) (502 * t.quantile + 2 * t.epsilon)
    (mul_pos ht.quantile_pos (sub_pos.2 hq))
  have both := eventually (2 * t.epsilon ^ 2) ((t.quantile - 2 * t.epsilon) *
    ((t.quantile + t.epsilon) * capacity + 2 + t.epsilon / t.quantile) +
      502 * t.quantile + 2 * t.epsilon) (by positivity)
  refine Filter.eventually_atTop.1 ?_
  filter_upwards [top, left, both] with k top left both
  exact ⟨by linarith, left, both⟩

section Marks

variable {t : Target ℚ} {k m m' : ℕ}

/-- Two marks cannot both be so close to the quantile's rank. -/
theorem Many.not_close (ht : t.Valid) {n a b : ℚ} (many : Many t n) (ha : 0 ≤ a)
    (low : (t.quantile - t.epsilon) * n - 2 ≤ b)
    (high : a < (t.quantile + t.epsilon) * (n + capacity) + 2 + t.epsilon / t.quantile) :
    a + capacity - b ≤ 2 * t.epsilon * ((a - 1) / t.quantile) := by
  have hq := ht.quantile_pos
  obtain ⟨-, left, both⟩ := many
  have cap : (capacity : ℚ) = 500 := rfl
  rw [← mul_div_assoc, le_div_iff₀ hq]
  have low := mul_le_mul_of_nonneg_left low hq.le
  rcases le_or_gt 0 (t.quantile - 2 * t.epsilon) with pos | neg
  · have high := mul_le_mul_of_nonneg_left high.le pos
    rw [cap] at both high ⊢
    linarith
  · have := mul_nonpos_of_nonpos_of_nonneg neg.le ha
    rw [cap]
    linarith

/-- With many values the answering mark never moves up: the next one up could not be that near. -/
theorem Answers.le_of_many (ht : t.Valid) (many : Many t (capacity * k : ℕ))
    (ha : Answers [t] t.quantile k m) (ha' : Answers [t] t.quantile (k + 1) m')
    (low : lowerRank t.quantile t.epsilon (capacity * k) ≤ m) : m' ≤ m := by
  by_contra! lt
  have high : (m' : ℚ) < (t.quantile + t.epsilon) * ((capacity * k : ℕ) + capacity) + 2 +
      t.epsilon / t.quantile := by
    have m_pos := (List.mem_range'_1.1 ((marks_sublist_range _ k).subset ha.mem)).1
    have le : (m' : ℤ) ≤ exactThreshold [t] (capacity * (k + 1)) t.quantile := by
      have := ha'.le
      omega
    have le := Int.cast_le (R := ℚ).2 le
    have bound := ht.exactThreshold_lt (capacity * (k + 1))
    push_cast at le bound ⊢
    linarith
  have below : m' < capacity * k := by
    exact_mod_cast high.trans many.top
  -- both marks were there when the batch with `m'` was merged
  have split := Nat.div_add_mod m' capacity
  have mod_lt := Nat.mod_lt m' (show 0 < capacity by decide)
  have batch_le : m' / capacity + 1 ≤ k := Nat.div_lt_of_lt_mul below
  have hm' : m' ∈ marks [t] (m' / capacity + 1) := by
    refine mem_marks_of_le batch_le (mem_marks_of_le (Nat.le_succ k) ha'.mem below.le) ?_
    rw [Nat.mul_succ]
    omega
  have hm : m ∈ marks [t] (m' / capacity + 1) := by
    refine mem_marks_of_le batch_le ha.mem ?_
    rw [Nat.mul_succ]
    omega
  have far := tolerance_lt_of_mem_marks hm hm' lt (by rw [Nat.mul_succ]; omega)
  rw [tolerance_singleton] at far
  have near := many.not_close ht m'.cast_nonneg
    ((sub_two_le_lowerRank _ _ _).trans (Nat.cast_le.2 low)) high
  have allowed := ht.mul_le_allowance (capacity * (m' / capacity + 1) : ℕ) ((m' : ℚ) - 1)
  have size : ((capacity * (m' / capacity + 1) : ℕ) : ℚ) ≤ m' + capacity := by
    rw [Nat.mul_succ]
    exact_mod_cast (by omega : capacity * (m' / capacity) + capacity ≤ m' + capacity)
  push_cast at far size allowed
  linarith

end Marks

/-! ## Zeros and ones -/

/-- Zero for the ranks up to `z`, one for the others. -/
def step (z i : ℕ) : Float := if i ≤ z then 0 else 1

theorem climbs_step (z : ℕ) : Climbs (step z) where
  sortLe {i j} h := by
    unfold step
    split_ifs
    · decide +kernel
    · decide +kernel
    · omega
    · decide +kernel
  not_lt {i j} h := by
    unfold step
    split_ifs
    · decide +kernel
    · omega
    · decide +kernel
    · decide +kernel

theorem isFinite_step (z i : ℕ) : (step z i).isFinite = true := by
  unfold step
  split_ifs <;> decide +kernel

theorem isFinite_of_mem_ascent {z n : ℕ} : ∀ v ∈ ascent (step z) n, v.isFinite = true := by
  intro v hv
  obtain ⟨i, -, rfl⟩ := List.mem_map.1 hv
  exact isFinite_step z i

theorem ascent_step (z k : ℕ) :
    ascent (step z) (z + k) = List.replicate z 0 ++ List.replicate k 1 := by
  rw [ascent, ← List.range'_append_1, List.map_append]
  refine congrArg₂ _ (List.eq_replicate_iff.2 ⟨by simp, ?_⟩) (List.eq_replicate_iff.2 ⟨by simp, ?_⟩)
  · intro v hv
    obtain ⟨i, hi, rfl⟩ := List.mem_map.1 hv
    have := (List.mem_range'_1.1 hi).2
    exact if_pos (by omega)
  · intro v hv
    obtain ⟨i, hi, rfl⟩ := List.mem_map.1 hv
    have := (List.mem_range'_1.1 hi).1
    exact if_neg (by omega)

theorem atMost_ascent_step {z n : ℕ} (h : z ≤ n) : atMost (ascent (step z) n) (0 : Float) = z := by
  obtain ⟨k, rfl⟩ := Nat.exists_eq_add_of_le h
  have one_greater : ¬place (1 : Float) ≤ place (0 : Float) := fun le =>
    absurd (Int.cast_le.1 le) (by decide +kernel)
  rw [ascent_step, atMost, List.countP_append, List.countP_replicate, List.countP_replicate,
    if_pos (decide_eq_true le_rfl), if_neg (by rwa [decide_eq_true_iff]), Nat.add_zero]

/-- If all answers to zeros and ones are accurate, the answering mark has a permitted rank. -/
theorem lowerRank_le_of_accurate {t : Target ℚ} (ht : t.Valid) {k : ℕ}
    (accurate : ∀ z, Accurate t (ascent (step z) (capacity * (k + 1)))) :
    ∃ m, Answers [t] t.quantile (k + 1) m ∧
      lowerRank t.quantile t.epsilon (capacity * (k + 1)) ≤ m := by
  have pos : 0 < capacity * (k + 1) := Nat.mul_pos (by decide) k.succ_pos
  have low_pos := one_le_lowerRank (q := t.quantile) (ε := t.epsilon) (n := capacity * (k + 1))
  have low_le := lowerRank_le pos ht.quantile_lt_one ht.epsilon_pos
  have between := accurate (lowerRank t.quantile t.epsilon (capacity * (k + 1)) - 1)
  rw [accurate_iff ht isFinite_of_mem_ascent, length_ascent] at between
  · generalize lowerRank t.quantile t.epsilon (capacity * (k + 1)) = lower at *
    obtain ⟨m, answers, answer⟩ := exists_answers (climbs_step (lower - 1)) [t] t.quantile k
    rw [answer] at between
    refine ⟨m, answers, ?_⟩
    by_contra! short
    have at_most := between.1
    rw [step, if_pos (by omega), atMost_ascent_step ((Nat.sub_le _ _).trans low_le)] at at_most
    omega
  · exact List.ne_nil_of_length_eq_add_one (length_ascent _ _)

/-- Unless the permitted ranks reach up to the greatest, some answer is not accurate. -/
theorem exists_not_accurate_of_lt {t : Target ℚ} (ht : t.Valid) (hq : t.epsilon < t.quantile)
    (short : t.quantile + t.epsilon < 1) :
    ∃ values : List Float, (∀ v ∈ values, v.isFinite = true) ∧ values ≠ [] ∧
      ¬Accurate t values := by
  by_contra! accurate
  have answers (k : ℕ) : ∃ m, Answers [t] t.quantile (k + 1) m ∧
      lowerRank t.quantile t.epsilon (capacity * (k + 1)) ≤ m := by
    refine lowerRank_le_of_accurate ht fun z => accurate _ isFinite_of_mem_ascent ?_
    exact List.ne_nil_of_length_eq_add_one (length_ascent _ _)
  obtain ⟨k, many⟩ := exists_many ht hq short
  obtain ⟨m, answer, low⟩ := answers k
  have bounded : ∀ l ≥ k, ∃ m' ≤ m, Answers [t] t.quantile (l + 1) m' ∧
      lowerRank t.quantile t.epsilon (capacity * (l + 1)) ≤ m' := by
    refine Nat.le_induction ⟨m, le_rfl, answer, low⟩ ?_
    rintro l kl ⟨m', le, answer, low⟩
    obtain ⟨m'', answer', low'⟩ := answers (l + 1)
    have down := answer.le_of_many ht (many (l + 1) (Nat.le_succ_of_le kl)) answer' low
    exact ⟨m'', down.trans le, answer', low'⟩
  -- but the permitted ranks go beyond every bound
  obtain ⟨l, hl⟩ := exists_nat_gt ((m + 2) / (t.quantile - t.epsilon))
  rw [div_lt_iff₀ (sub_pos.2 hq)] at hl
  obtain ⟨m', le, -, low⟩ := bounded (max k l) (le_max_left _ _)
  have low := (sub_two_le_lowerRank _ _ _).trans (Nat.cast_le.2 (low.trans le))
  have grows : (l : ℚ) ≤ (capacity * (max k l + 1) : ℕ) := by
    have := le_max_right k l
    exact_mod_cast (by rw [capacity]; omega : l ≤ capacity * (max k l + 1))
  have := mul_le_mul_of_nonneg_left grows (sub_pos.2 hq).le
  linarith

end Sketch

end Telemetry
