import Telemetry.Proofs.Sketch.Excess
import Telemetry.Proofs.Sketch.KnownRanks

/-!
# For which targets every answer is accurate

A sketch of one target is accurate on every run in two cases only (`accurate_of_build`): the error
reaches up to the greatest rank, or the error is at least as great as the quantile and no threshold
does harm (`Harmless`). A threshold above the permitted ranks does harm if it is above all ranks, or
if a sample can end between the two, which a great error prevents.
-/

namespace Telemetry

open LawfulMeasure

namespace Sketch

/-- The threshold is not above the permitted ranks, or leads to none of the ranks above them. -/
def Harmless (t : Target ℚ) (n : ℕ) : Prop :=
  n ≤ ⌈(t.quantile + t.epsilon) * n⌉ + 1 ∨
    exactThreshold [t] n t.quantile ≤ ⌈(t.quantile + t.epsilon) * n⌉ + 1 ∨
      1 ≤ t.quantile + 2 * t.epsilon ∧ exactThreshold [t] n t.quantile < n

/-- The error reaches up to the greatest rank, or the buffer never was full, or nothing is too low
and the threshold is harmless, or both the threshold and the brackets are within what is permitted. -/
def Precise (t : Target ℚ) (n : ℕ) : Prop :=
  1 ≤ t.quantile + t.epsilon ∨ n < capacity ∨ t.quantile ≤ t.epsilon ∧ Harmless t n ∨
    exactThreshold [t] n t.quantile ≤ ⌈(t.quantile + t.epsilon) * n⌉ + 1 ∧
      Steady t.quantile t.epsilon n

section Accurate

variable {t : Target ℚ} {values : List Float}

theorem accurate_of_thresholds (ht : t.Valid) (finite : ∀ v ∈ values, v.isFinite = true)
    (hv : values ≠ [])
    (low : capacity ≤ values.length → 1 ≤ t.quantile + t.epsilon ∨
      exactThreshold [t] values.length t.quantile ≤
        ⌈(t.quantile + t.epsilon) * values.length⌉ + 1)
    (narrow : capacity ≤ values.length → 1 ≤ t.quantile + t.epsilon ∨
      t.quantile ≤ t.epsilon ∨ Steady t.quantile t.epsilon values.length) :
    Accurate t values := by
  have valid : ∀ t' ∈ [t], t'.Valid := by simpa using ht
  have numbers : ∀ v ∈ values, v.isNaN = false := fun v hv =>
    Binary64.isNaN_of_isFinite (finite v hv)
  have between := @between_quantile Float _ _ [t] (insertions values) t valid
    (List.mem_singleton_self t)
  rw [inserted_insertions, run_insertions] at between
  rw [accurate_iff ht finite hv]
  refine between numbers hv low (fun _ => ?_) narrow
  refine le_exactThreshold (List.cons_ne_nil _ _) fun t' ht' => ?_
  obtain rfl := List.mem_singleton.1 ht'
  exact ht.le_allowance_ceil _

/-- With an error as great as the quantile nothing is too low, and harmless thresholds lead to
nothing too high. -/
theorem accurate_of_harmless (ht : t.Valid) (hq : t.quantile ≤ t.epsilon)
    (finite : ∀ v ∈ values, v.isFinite = true) (full : capacity ≤ values.length)
    (harmless : Harmless t values.length) : Accurate t values := by
  have pos : 0 < values.length := (by decide : 0 < capacity).trans_le full
  have hv : values ≠ [] := List.length_pos_iff.1 pos
  rcases harmless with all | low | ⟨wide, below_top⟩
  · have numbers : ∀ v ∈ inserted (insertions values : List (Use Float ℚ)), v.isNaN = false := by
      rw [inserted_insertions]
      exact fun v hv => Binary64.isNaN_of_isFinite (finite v hv)
    have mem := @quantile_mem Float ℚ _ _ [t] _ (insertions values) numbers t.quantile
    rw [inserted_insertions, run_insertions] at mem
    rw [accurate_iff ht finite hv]
    refine ⟨?_, (below_lt_length_of_mem (mem hv)).trans_le ?_⟩
    · rw [lowerRank_eq_one hq]
      exact atMost_pos_of_mem (mem hv)
    · unfold upperRank
      omega
  · exact accurate_of_thresholds ht finite hv (fun _ => .inr low) fun _ => .inr (.inl hq)
  · exact accurate_of_known ht hq wide finite full below_top

theorem accurate_of_precise (ht : t.Valid) (finite : ∀ v ∈ values, v.isFinite = true)
    (hv : values ≠ []) (precise : Precise t values.length) : Accurate t values := by
  rcases Nat.lt_or_ge values.length capacity with short | full
  · exact accurate_of_thresholds ht finite hv (fun full => absurd full short.not_ge)
      fun full => absurd full short.not_ge
  · rcases precise with top | short | ⟨hq, harmless⟩ | ⟨low, steady⟩
    · exact accurate_of_thresholds ht finite hv (fun _ => .inl top) fun _ => .inl top
    · exact absurd full short.not_ge
    · exact accurate_of_harmless ht hq finite full harmless
    · exact accurate_of_thresholds ht finite hv (fun _ => .inr low) fun _ => .inr (.inr steady)

end Accurate

/-! ## Thresholds that do harm -/

section Harm

variable {t : Target ℚ} {n : ℕ}

theorem below_ascent_step (n : ℕ) : below (ascent (step n) (n + 1)) (1 : Float) = n := by
  have zero_less : place (0 : Float) < place (1 : Float) := Int.cast_lt.2 (by decide +kernel)
  rw [ascent_step, below, List.countP_append, List.countP_replicate, List.countP_replicate,
    if_pos (decide_eq_true zero_less), if_neg (by simp), Nat.add_zero]

/-- A threshold above all ranks leads to the greatest value. -/
theorem not_accurate_of_le (ht : t.Valid) (full : capacity ≤ n + 1)
    (top : ((n + 1 : ℕ) : ℤ) ≤ exactThreshold [t] (n + 1) t.quantile)
    (upper : upperRank t.quantile t.epsilon (n + 1) ≤ n) :
    ¬Accurate t (ascent (step n) (n + 1)) := by
  have valid : ∀ t' ∈ [t], t'.Valid := by simpa using ht
  have length := length_ascent (step n) (n + 1)
  have hv : ascent (step n) (n + 1) ≠ [] := List.ne_nil_of_length_eq_add_one length
  have numbers : ∀ v ∈ ascent (step n) (n + 1), v.isNaN = false := fun v hv =>
    Binary64.isNaN_of_isFinite (isFinite_of_mem_ascent v hv)
  have samples := summary_insertAll_ne_nil [t] (full.trans_eq length.symm)
  have greatest := @length_le_atMost_or_narrow Float _ _ [t] (insertions (ascent (step n) (n + 1)))
    valid
  have mem := @quantile_mem Float ℚ _ _ [t] _ (insertions (ascent (step n) (n + 1)))
  rw [inserted_insertions, run_insertions, length] at greatest
  rw [inserted_insertions, run_insertions] at mem
  have mem := mem numbers t.quantile hv
  rw [accurate_iff ht isFinite_of_mem_ascent hv, length]
  rintro ⟨-, high⟩
  rcases greatest numbers t.quantile samples with all | ⟨b, c, -, -, -, above, le⟩
  · obtain ⟨i, -, eq⟩ := List.mem_map.1 mem
    rw [← eq, step] at all high
    split_ifs at all high
    · rw [atMost_ascent_step (Nat.le_succ n)] at all
      omega
    · rw [below_ascent_step] at high
      omega
  · omega

theorem exists_not_accurate_of_harm (ht : t.Valid) (hq : t.quantile ≤ t.epsilon)
    (full : capacity ≤ n) (harm : ¬Harmless t n) :
    ∃ values : List Float, (∀ v ∈ values, v.isFinite = true) ∧ values ≠ [] ∧
      ¬Accurate t values := by
  rw [Harmless, not_or, not_or, not_and_or, not_le, not_le, not_le, not_lt] at harm
  obtain ⟨below_top, exceeds, short | top⟩ := harm
  · exact exists_not_accurate_of_exceeds ht hq short exceeds
  · obtain ⟨n, rfl⟩ := Nat.exists_eq_add_one.2 ((by decide : 0 < capacity).trans_le full)
    refine ⟨_, isFinite_of_mem_ascent, ?_, not_accurate_of_le ht full top ?_⟩
    · exact List.ne_nil_of_length_eq_add_one (length_ascent _ _)
    · unfold upperRank
      omega

end Harm

/-- A target is met by every run if and only if the permitted ranks reach up to the greatest, or its
error is at least its quantile and thresholds do no harm. Any target is met by runs that are short
or steady enough. -/
theorem accurate_of_build {q ε : ℚ} {t : Target ℚ} (h : Target.build q ε = .ok t) :
    ((∀ values : List Float, (∀ v ∈ values, v.isFinite = true) → values ≠ [] →
      Accurate t values) ↔ 1 ≤ q + ε ∨ q ≤ ε ∧ ∀ n ≥ capacity, Harmless t n) ∧
    ∀ values : List Float, (∀ v ∈ values, v.isFinite = true) → values ≠ [] →
      Precise t values.length → Accurate t values := by
  obtain ⟨ht, rfl⟩ := Target.build_eq_ok_iff.1 h
  refine ⟨⟨fun accurate => ?_, fun holds values finite hv => ?_⟩,
    fun values finite hv precise => accurate_of_precise ht finite hv precise⟩
  · by_contra! harm
    obtain ⟨short, harm⟩ := harm
    rcases le_or_gt q ε with hq | hq
    · obtain ⟨n, full, harm⟩ := harm hq
      obtain ⟨values, finite, hv, missed⟩ := exists_not_accurate_of_harm ht hq full harm
      exact missed (accurate values finite hv)
    · obtain ⟨values, finite, hv, missed⟩ := exists_not_accurate_of_lt ht hq short
      exact missed (accurate values finite hv)
  · refine accurate_of_precise ht finite hv ?_
    rcases holds with top | ⟨hq, harmless⟩
    · exact .inl top
    · rcases Nat.lt_or_ge values.length capacity with short | full
      · exact .inr (.inl short)
      · exact .inr (.inr (.inl ⟨hq, harmless _ full⟩))

/-- The median with an error of a quarter is not always accurate. -/
theorem exists_not_accurate_half_quarter :
    Target.build (1 / 2) (1 / 4) = .ok (⟨1 / 2, 1 / 4⟩ : Target ℚ) ∧
      ¬∀ values : List Float, (∀ v ∈ values, v.isFinite = true) → values ≠ [] →
        Accurate ⟨1 / 2, 1 / 4⟩ values := by
  have built : Target.build (1 / 2) (1 / 4) = .ok (⟨1 / 2, 1 / 4⟩ : Target ℚ) :=
    Target.build_eq_ok_iff.2 ⟨⟨by norm_num, by norm_num, by norm_num⟩, rfl⟩
  refine ⟨built, fun accurate => ?_⟩
  have reach := (accurate_of_build built).1.1 accurate
  norm_num at reach

/-- It misses a zero and 499 ones, for which it answers with the zero. -/
theorem not_accurate_zero_ones :
    ¬Accurate ⟨1 / 2, 1 / 4⟩ (0 :: List.replicate 499 1) := by
  have ht : Target.Valid ⟨1 / 2, 1 / 4⟩ := ⟨by norm_num, by norm_num, by norm_num⟩
  have values : 0 :: List.replicate 499 1 = ascent (step 1) (capacity * (0 + 1)) :=
    (ascent_step 1 499).symm
  have low : lowerRank (1 / 2) (1 / 4) (capacity * (0 + 1)) = 124 := by decide +kernel
  have stay : marks [(⟨1 / 2, 1 / 4⟩ : Target ℚ)] (0 + 1) = [1, 500] := by decide +kernel
  have limit : exactThreshold [(⟨1 / 2, 1 / 4⟩ : Target ℚ)] (capacity * (0 + 1)) (1 / 2) = 375 := by
    decide +kernel
  obtain ⟨m, answers, answer⟩ := exists_answers (climbs_step 1) [⟨1 / 2, 1 / 4⟩] (1 / 2) 0
  have first : m = 1 := by
    have mem := answers.mem
    have le := answers.le
    rw [stay, List.mem_pair] at mem
    rw [limit] at le
    omega
  rw [values, accurate_iff ht isFinite_of_mem_ascent (by rw [← values]; exact List.cons_ne_nil _ _)]
  rintro ⟨at_most, -⟩
  rw [length_ascent, low, answer, first, step, if_pos le_rfl, atMost_ascent_step (by decide)]
    at at_most
  exact absurd at_most (by decide)

end Sketch

end Telemetry
