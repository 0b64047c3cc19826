import Telemetry.Proofs.Sketch.Answer
import Telemetry.Proofs.Sketch.Budget

/-!
# How far answers are off

A target asks for an answer whose rank among all `n` values is off by no more than `ε * n`, with one
rank of slack on either side: between `lowerRank` and `upperRank`. A sketch that never merged always
complies (`between_exactQuantile`). For the others the arithmetic of ranks is exact here, and each
side has its own reason. Above, the threshold bounds the rank (`below_lt_upperRank`). Below, what
counts is how wide the bracket after the answer can be: `lowerRank_le_of_steady` holds as long as
`n` is small against `1 / ε ^ 2`, and `lowerRank_le_of_top` if the threshold is above all ranks.
-/

namespace Telemetry

open LawfulMeasure

namespace Sketch

variable {ν : Type} [Measure ν] [LawfulMeasure ν]

/-- The least rank permitted to the answer for a quantile of `n` values. -/
def lowerRank (q ε : ℚ) (n : ℕ) : ℕ := max 1 (⌊(q - ε) * n⌋ - 1).toNat

/-- The greatest rank permitted to the answer for a quantile of `n` values. -/
def upperRank (q ε : ℚ) (n : ℕ) : ℕ := min n (⌈(q + ε) * n⌉ + 1).toNat

/-- The value can have a rank from `lower` to `upper`. -/
def Between (values : List ν) (lower upper : ℕ) (v : ν) : Prop :=
  lower ≤ atMost values v ∧ below values v < upper

section Ranks

variable {q ε : ℚ} {n : ℕ}

theorem one_le_lowerRank : 1 ≤ lowerRank q ε n := le_max_left _ _

theorem sub_two_le_lowerRank (q ε : ℚ) (n : ℕ) : (q - ε) * n - 2 ≤ lowerRank q ε n := by
  have floor := Int.lt_floor_add_one ((q - ε) * n)
  have le : ⌊(q - ε) * n⌋ - 1 ≤ (lowerRank q ε n : ℤ) := by
    unfold lowerRank
    omega
  have le := Int.cast_le (R := ℚ).2 le
  push_cast at le
  linarith

theorem lowerRank_le (hn : 0 < n) (hq : q < 1) (hε : 0 < ε) : lowerRank q ε n ≤ n := by
  have le : ((q - ε) * n : ℚ) ≤ n := by
    have : (0 : ℚ) < n := Nat.cast_pos.2 hn
    nlinarith
  have floor_le : ⌊(q - ε) * n⌋ ≤ n := by
    have := Int.floor_le_floor le
    rwa [Int.floor_natCast] at this
  unfold lowerRank
  omega

theorem upperRank_le : upperRank q ε n ≤ n := min_le_left _ _

theorem one_le_upperRank (hn : 0 < n) (hq : 0 < q) (hε : 0 < ε) : 1 ≤ upperRank q ε n := by
  have : (0 : ℚ) < n := Nat.cast_pos.2 hn
  have ceil_pos : 0 < ⌈(q + ε) * n⌉ := Int.ceil_pos.2 (by positivity)
  unfold upperRank
  omega

/-- With an error as great as the quantile no rank is too low. -/
theorem lowerRank_eq_one (h : q ≤ ε) : lowerRank q ε n = 1 := by
  have neg : ⌊(q - ε) * n⌋ ≤ 0 := by
    refine Int.floor_nonpos (mul_nonpos_of_nonpos_of_nonneg (sub_nonpos.2 h) n.cast_nonneg)
  unfold lowerRank
  omega

/-- With an error that reaches up to 1 no rank is too high. -/
theorem upperRank_eq (h : 1 ≤ q + ε) : upperRank q ε n = n := by
  have le : (n : ℤ) ≤ ⌈(q + ε) * n⌉ := by
    have := Int.ceil_le_ceil (le_mul_of_one_le_left (n.cast_nonneg (α := ℚ)) h)
    rwa [Int.ceil_natCast] at this
  unfold upperRank
  omega

end Ranks

/-! ## Answers from all values -/

theorem between_exactQuantile {values : List ν} {q ε : ℚ} (hv : values ≠ []) (hq : 0 < q)
    (hq' : q < 1) (hε : 0 < ε) :
    Between values (lowerRank q ε values.length) (upperRank q ε values.length)
      (exactQuantile (sorted values) q) := by
  have hn : 0 < values.length := List.length_pos_iff.2 hv
  have hn' : (0 : ℚ) < values.length := Nat.cast_pos.2 hn
  have answer : exactQuantile (sorted values) q = (sorted values).getD
      (min (⌊(values.length : ℚ) * q⌋.toNat - 1) (values.length - 1)) Measure.zero := by
    rw [exactQuantile, length_sorted]
    rfl
  have hk : min (⌊(values.length : ℚ) * q⌋.toNat - 1) (values.length - 1) <
      (sorted values).length := by
    rw [length_sorted]
    omega
  rw [answer, List.getD_eq_getElem _ _ hk]
  have at_most := (lt_atMost_iff (sorted_pairwise values) hk).2 le_rfl
  have under := (below_le_iff (sorted_pairwise values) hk).2 le_rfl
  rw [atMost_congr (sorted_perm values)] at at_most
  rw [below_congr (sorted_perm values)] at under
  have low : ⌊(q - ε) * values.length⌋ ≤ ⌊values.length * q⌋ := Int.floor_le_floor (by nlinarith)
  have high : ⌊values.length * q⌋ ≤ ⌈(q + ε) * values.length⌉ :=
    (Int.floor_le_ceil _).trans (Int.ceil_le_ceil (by nlinarith))
  have pos : 0 < ⌈(q + ε) * values.length⌉ := Int.ceil_pos.2 (by positivity)
  have top : ⌊values.length * q⌋ ≤ (values.length : ℤ) := by
    have := Int.floor_le_floor (show (values.length : ℚ) * q ≤ values.length by nlinarith)
    rwa [Int.floor_natCast] at this
  refine ⟨?_, ?_⟩
  · refine le_trans ?_ at_most
    unfold lowerRank
    omega
  · refine lt_of_le_of_lt under ?_
    unfold upperRank
    omega

/-! ## Answers from samples -/

/-- There are too few values for brackets to grow past what the error permits. -/
structure Steady (q ε : ℚ) (n : ℕ) : Prop where
  left : 2 * ε ≤ 1 - q
  right : 2 * ε ≤ q
  left_lt : 2 * ε ^ 2 * n + 4 * ε < 3 * (1 - q)
  right_lt : 2 * ε ^ 2 * n + 2 * ε < 3 * q

/-- No bracket from two ranks below the permitted ones up to above the threshold is as narrow as
the target wants it. -/
theorem Steady.not_narrow {t : Target ℚ} {n : ℕ} (ht : t.Valid)
    (steady : Steady t.quantile t.epsilon n) {a h r : ℚ} (ha : a ≤ (t.quantile - t.epsilon) * n - 2)
    (hh : (t.quantile + t.epsilon) * n + 1 ≤ h) (har : a ≤ r) (hrh : r ≤ h) :
    t.allowance n r < h - a := by
  obtain ⟨hq, hq', hε⟩ := ht
  have hq'' : 0 < 1 - t.quantile := sub_pos.2 hq'
  obtain ⟨left, right, left_lt, right_lt⟩ := steady
  rw [Target.allowance_eq]
  split_ifs
  · rw [div_lt_iff₀ hq]
    nlinarith [mul_le_mul_of_nonneg_right hh (sub_nonneg.2 right)]
  · rw [div_lt_iff₀ hq'']
    nlinarith [mul_le_mul_of_nonneg_right ha (sub_nonneg.2 left)]

section Sampled

variable {targets : List (Target ℚ)} {uses : List (Use ν ℚ)} {φ : ℚ}

omit [LawfulMeasure ν] in
theorem threshold_settle (φ : ℚ) (h : ((empty targets).run uses).summary ≠ []) :
    ((empty targets).run uses).settle.threshold φ =
      exactThreshold targets (inserted uses).length φ := by
  have settled := (holds_run targets (uses ++ [.quantile φ])).targets_eq
  rw [run_quantile uses φ h] at settled
  rw [threshold_eq, settled, (holds_run targets uses).merged_settle]

/-- Less than a threshold's worth of values is below an answer. -/
theorem below_lt_threshold (numbers : ∀ v ∈ inserted uses, IsNumber v) (φ : ℚ)
    (h : ((empty targets).run uses).summary ≠ []) :
    (below (inserted uses) (((empty targets).run uses).quantile φ).1 : ℤ) <
        max 1 (exactThreshold targets (inserted uses).length φ) ∧
      below (inserted uses) (((empty targets).run uses).quantile φ).1 < (inserted uses).length := by
  have faithful := faithful_settle numbers φ h
  obtain ⟨pre, b, post, split, answer, reach, -⟩ := quantile_sampled numbers φ h
  have sound := faithful.sound b (split ▸ List.mem_append_right _ List.mem_cons_self)
  rw [answer]
  refine ⟨lt_of_lt_of_le sound.below_lt_high ?_, below_lt_length_of_mem sound.mem⟩
  rcases reach with rfl | reach
  · exact le_max_of_le_left (faithful.first_bracket split).2.le
  · refine le_max_of_le_right ?_
    rw [threshold_settle φ h] at reach
    exact Int.cast_le.1 (not_lt.1 reach)

/-- An answer is the greatest value, or a narrow bracket follows that reaches above the
threshold. -/
theorem length_le_atMost_or_narrow (valid : ∀ t ∈ targets, t.Valid)
    (numbers : ∀ v ∈ inserted uses, IsNumber v) (φ : ℚ)
    (h : ((empty targets).run uses).summary ≠ []) :
    (inserted uses).length ≤ atMost (inserted uses) (((empty targets).run uses).quantile φ).1 ∨
      ∃ b c : Bracket ν, Bracket.Narrow
          (fun r => tolerance targets (inserted uses).length (Precision.ofInt r)) b c ∧
        0 < b.low ∧
        b.low ≤ atMost (inserted uses) (((empty targets).run uses).quantile φ).1 ∧
        exactThreshold targets (inserted uses).length φ < c.high ∧
        c.high ≤ (inserted uses).length := by
  have faithful := faithful_settle numbers φ h
  obtain ⟨pre, b, post, split, answer, -, next⟩ := quantile_sampled numbers φ h
  have sound := split ▸ faithful.sound
  have hb : b ∈ pre ++ b :: post := List.mem_append_right _ List.mem_cons_self
  have sound_b := sound b hb
  rw [answer]
  cases post with
  | nil =>
    left
    exact (faithful.last_bracket split).1 ▸ sound_b.low_le_atMost
  | cons c post =>
    right
    have above := next c rfl
    rw [threshold_settle φ h] at above
    have narrow := narrow_run valid (uses ++ [.quantile φ])
    rw [inserted_quantile, run_quantile uses φ h, (holds_run targets uses).merged_settle,
      split] at narrow
    refine ⟨b, c, ?_, ?_, sound_b.low_le_atMost, Int.cast_lt.1 above, ?_⟩
    · exact (List.isChain_append_cons_cons.1 (narrow numbers)).2.1
    · exact Sample.before_lt_low faithful.width_pos (split ▸ hb)
    · exact (sound c (List.mem_append_right _ (by simp))).high_le

/-- With a threshold above all ranks the answer is the greatest value. -/
theorem length_le_atMost_of_top (valid : ∀ t ∈ targets, t.Valid)
    (numbers : ∀ v ∈ inserted uses, IsNumber v) (h : ((empty targets).run uses).summary ≠ [])
    (top : (inserted uses).length ≤ exactThreshold targets (inserted uses).length φ) :
    (inserted uses).length ≤ atMost (inserted uses) (((empty targets).run uses).quantile φ).1 := by
  rcases length_le_atMost_or_narrow valid numbers φ h with all | ⟨b, c, -, -, -, above, le⟩
  · exact all
  · omega

/-! ## Both sides -/

variable {t : Target ℚ}

theorem below_lt_upperRank (ht : t.Valid) (numbers : ∀ v ∈ inserted uses, IsNumber v)
    (h : ((empty targets).run uses).summary ≠ [])
    (low : exactThreshold targets (inserted uses).length t.quantile ≤
      ⌈(t.quantile + t.epsilon) * (inserted uses).length⌉ + 1) :
    below (inserted uses) (((empty targets).run uses).quantile t.quantile).1 <
      upperRank t.quantile t.epsilon (inserted uses).length := by
  obtain ⟨lt_threshold, lt_length⟩ := below_lt_threshold numbers t.quantile h
  have pos := one_le_upperRank (Nat.zero_lt_of_lt lt_length) ht.quantile_pos ht.epsilon_pos
  unfold upperRank at pos ⊢
  omega

theorem lowerRank_le_of_top (valid : ∀ t ∈ targets, t.Valid) (ht : t.Valid)
    (numbers : ∀ v ∈ inserted uses, IsNumber v) (h : ((empty targets).run uses).summary ≠ [])
    (top : (inserted uses).length ≤ exactThreshold targets (inserted uses).length t.quantile) :
    lowerRank t.quantile t.epsilon (inserted uses).length ≤
      atMost (inserted uses) (((empty targets).run uses).quantile t.quantile).1 := by
  have pos : 0 < (inserted uses).length :=
    Nat.zero_lt_of_lt (below_lt_threshold numbers t.quantile h).2
  exact (lowerRank_le pos ht.quantile_lt_one ht.epsilon_pos).trans
    (length_le_atMost_of_top valid numbers h top)

theorem lowerRank_le_of_steady (valid : ∀ t ∈ targets, t.Valid) (hmem : t ∈ targets)
    (numbers : ∀ v ∈ inserted uses, IsNumber v) (h : ((empty targets).run uses).summary ≠ [])
    (high : (t.quantile + t.epsilon) * (inserted uses).length ≤
      exactThreshold targets (inserted uses).length t.quantile)
    (steady : Steady t.quantile t.epsilon (inserted uses).length) :
    lowerRank t.quantile t.epsilon (inserted uses).length ≤
      atMost (inserted uses) (((empty targets).run uses).quantile t.quantile).1 := by
  have ht := valid t hmem
  have pos : 0 < (inserted uses).length :=
    Nat.zero_lt_of_lt (below_lt_threshold numbers t.quantile h).2
  rcases length_le_atMost_or_narrow valid numbers t.quantile h with
    all | ⟨b, c, narrow, first, low, above, -⟩
  · exact (lowerRank_le pos ht.quantile_lt_one ht.epsilon_pos).trans all
  · refine le_trans ?_ low
    by_contra short
    -- so `b` ends two ranks below the permitted ones, and `c` is too wide
    have short : (b.low : ℤ) ≤ ⌊(t.quantile - t.epsilon) * (inserted uses).length⌋ - 2 := by
      unfold lowerRank at short
      omega
    have short' : (b.low : ℚ) ≤ (t.quantile - t.epsilon) * (inserted uses).length - 2 := by
      have floor_le := Int.floor_le ((t.quantile - t.epsilon) * (inserted uses).length)
      have short := Int.cast_le (R := ℚ).2 short
      push_cast at short
      linarith
    have above' : (t.quantile + t.epsilon) * (inserted uses).length + 1 ≤ c.high := by
      have above := Int.cast_le (R := ℚ).2 (Int.add_one_le_of_lt above)
      push_cast at above
      linarith
    rcases narrow.within with one | ⟨r, low_le, le_high, within⟩
    · have one := Int.cast_le (R := ℚ).2 one
      push_cast at one
      have hε := ht.epsilon_pos
      nlinarith [mul_nonneg hε.le (Nat.cast_nonneg (α := ℚ) (inserted uses).length)]
    · have wide := steady.not_narrow ht short' above' (Int.cast_le (R := ℚ).2 low_le)
        (Int.cast_le.2 le_high)
      have own := tolerance_le_allowance hmem (inserted uses).length r
      push_cast at within
      exact absurd (within.trans own) wide.not_ge

/-- An answer has a permitted rank if the threshold is right and no bracket can be too wide. Only
sketches with at least a full buffer of values have a threshold at all. -/
theorem between_quantile (valid : ∀ t ∈ targets, t.Valid) (hmem : t ∈ targets)
    (numbers : ∀ v ∈ inserted uses, IsNumber v) (hv : inserted uses ≠ [])
    (low : capacity ≤ (inserted uses).length → 1 ≤ t.quantile + t.epsilon ∨
      exactThreshold targets (inserted uses).length t.quantile ≤
        ⌈(t.quantile + t.epsilon) * (inserted uses).length⌉ + 1)
    (high : capacity ≤ (inserted uses).length →
      (t.quantile + t.epsilon) * (inserted uses).length ≤
        exactThreshold targets (inserted uses).length t.quantile)
    (narrow : capacity ≤ (inserted uses).length → 1 ≤ t.quantile + t.epsilon ∨
      t.quantile ≤ t.epsilon ∨ Steady t.quantile t.epsilon (inserted uses).length) :
    Between (inserted uses) (lowerRank t.quantile t.epsilon (inserted uses).length)
      (upperRank t.quantile t.epsilon (inserted uses).length)
      (((empty targets).run uses).quantile t.quantile).1 := by
  have ht := valid t hmem
  by_cases samples : ((empty targets).run uses).summary = []
  · rw [quantile_exact numbers t.quantile samples]
    exact between_exactQuantile hv ht.quantile_pos ht.quantile_lt_one ht.epsilon_pos
  · have filled :=
      (capacity_le_merged_run targets uses samples).trans (holds_run targets uses).merged_le
    refine ⟨?_, ?_⟩
    · rcases narrow filled with top | wide | steady
      · refine lowerRank_le_of_top valid ht numbers samples ?_
        have above : ((inserted uses).length : ℚ) ≤
            exactThreshold targets (inserted uses).length t.quantile :=
          (le_mul_of_one_le_left (Nat.cast_nonneg _) top).trans (high filled)
        exact_mod_cast above
      · rw [lowerRank_eq_one wide]
        exact atMost_pos_of_mem (quantile_mem numbers t.quantile hv)
      · exact lowerRank_le_of_steady valid hmem numbers samples (high filled) steady
    · rcases low filled with top | low
      · rw [upperRank_eq top]
        exact (below_lt_threshold numbers t.quantile samples).2
      · exact below_lt_upperRank ht numbers samples low

end Sampled

/-! ## Doubles between two entries -/

/-- The value lies between two entries of the ascending list, counted from 1. -/
def WithinRanks (values : List Float) (lower upper : ℕ) (v : Float) : Prop :=
  ∃ a b, (sorted values)[lower - 1]? = some a ∧ (sorted values)[upper - 1]? = some b ∧
    a ≤ v ∧ v ≤ b

theorem withinRanks_iff {values : List Float} {lower upper : ℕ} {v : Float}
    (numbers : ∀ w ∈ values, w.isNaN = false) (hv : v.isNaN = false) (hl : 1 ≤ lower)
    (hl' : lower ≤ values.length) (hu : 1 ≤ upper) (hu' : upper ≤ values.length) :
    WithinRanks values lower upper v ↔ Between values lower upper v := by
  have number : ∀ w ∈ sorted values, w.isNaN = false := fun w hw =>
    numbers w ((sorted_perm values).subset hw)
  have hl'' : lower - 1 < (sorted values).length := by
    rw [length_sorted]
    omega
  have hu'' : upper - 1 < (sorted values).length := by
    rw [length_sorted]
    omega
  have low : lower ≤ atMost values v ↔ (sorted values)[lower - 1] ≤ v := by
    rw [Binary64.le_iff_place_le (number _ (List.getElem_mem _)) hv,
      ← Int.cast_le (R := ℚ), ← atMost_congr (sorted_perm values)]
    refine Iff.trans ?_ (lt_atMost_iff (sorted_pairwise values) hl'')
    omega
  have high : below values v < upper ↔ v ≤ (sorted values)[upper - 1] := by
    rw [Binary64.le_iff_place_le hv (number _ (List.getElem_mem _)),
      ← Int.cast_le (R := ℚ), ← below_congr (sorted_perm values)]
    refine Iff.trans ?_ (below_le_iff (sorted_pairwise values) hu'')
    omega
  rw [Between, low, high]
  constructor
  · rintro ⟨a, b, ha, hb, le, le'⟩
    rw [List.getElem?_eq_getElem hl''] at ha
    rw [List.getElem?_eq_getElem hu''] at hb
    obtain rfl := Option.some.inj ha
    obtain rfl := Option.some.inj hb
    exact ⟨le, le'⟩
  · rintro ⟨le, le'⟩
    exact ⟨_, _, List.getElem?_eq_getElem hl'', List.getElem?_eq_getElem hu'', le, le'⟩

/-- An answer lies between the permitted entries if it can have a permitted rank. -/
theorem withinRanks_quantile_iff {targets : List (Target ℚ)} {uses : List (Use Float ℚ)}
    {t : Target ℚ} (ht : t.Valid) (finite : ∀ v ∈ inserted uses, v.isFinite = true)
    (hv : inserted uses ≠ []) (φ : ℚ) :
    WithinRanks (inserted uses) (lowerRank t.quantile t.epsilon (inserted uses).length)
        (upperRank t.quantile t.epsilon (inserted uses).length)
        (((empty targets).run uses).quantile φ).1 ↔
      Between (inserted uses) (lowerRank t.quantile t.epsilon (inserted uses).length)
        (upperRank t.quantile t.epsilon (inserted uses).length)
        (((empty targets).run uses).quantile φ).1 := by
  have numbers : ∀ v ∈ inserted uses, v.isNaN = false := fun v hv =>
    Binary64.isNaN_of_isFinite (finite v hv)
  have pos : 0 < (inserted uses).length := List.length_pos_iff.2 hv
  exact withinRanks_iff numbers (numbers _ (quantile_mem numbers φ hv)) one_le_lowerRank
    (lowerRank_le pos ht.quantile_lt_one ht.epsilon_pos)
    (one_le_upperRank pos ht.quantile_pos ht.epsilon_pos) upperRank_le

end Sketch

end Telemetry
