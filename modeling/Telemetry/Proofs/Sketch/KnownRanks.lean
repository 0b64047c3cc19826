import Telemetry.Proofs.Sketch.Single

/-!
# Known ranks

With a great error (`Generous`) a value by itself is always joined with what follows, so that no
sample but the first and the last ever comes from one that was put in front of another. Then the
ranks of all samples are known (`Faithful.delta_eq_zero`), and those that stay are too low for a
threshold to lead above the permitted ranks, unless it leads to the greatest (`accurate_of_known`).
-/

namespace Telemetry

open LawfulMeasure

variable {ν : Type}

namespace Sample

section Known

variable {before : ℕ} {samples : List (Sample ν)} {b : Bracket ν}

/-- The sample behind a bracket: its delta is how far the ranks are apart, and its width how far the
bracket's end is from the one before. -/
theorem exists_sample_of_bracket (hb : b ∈ brackets before samples) :
    ∃ s ∈ samples, b.high = b.low + s.delta ∧
      (b.low = before + s.width ∨ ∃ a ∈ brackets before samples, b.low = a.low + s.width) := by
  induction samples generalizing before with
  | nil => cases hb
  | cons c samples ih =>
    rw [brackets_cons] at hb ⊢
    rcases List.mem_cons.1 hb with rfl | hb
    · refine ⟨c, List.mem_cons_self, ?_, .inl rfl⟩
      dsimp only
      rw [span, Nat.cast_add, add_assoc]
    · obtain ⟨s, hs, delta, start⟩ := ih hb
      refine ⟨s, List.mem_cons_of_mem _ hs, delta, .inr ?_⟩
      rcases start with start | ⟨a, ha, start⟩
      · exact ⟨_, List.mem_cons_self, start⟩
      · exact ⟨a, List.mem_cons_of_mem _ ha, start⟩

theorem delta_eq_zero_of_brackets (h : ∀ b ∈ brackets before samples, b.high = b.low) :
    ∀ s ∈ samples, s.delta = 0 := by
  induction samples generalizing before with
  | nil => simp
  | cons c samples ih =>
    have h := List.forall_mem_cons.1 h
    refine List.forall_mem_cons.2 ⟨?_, ih h.2⟩
    have known := h.1
    simp only [span] at known
    omega

/-- Samples of known rank, apart from single values. -/
def Known (samples : List (Sample ν)) : Prop := ∀ s ∈ samples, s.delta = 0 ∨ s.width = 1

theorem Known.weaveOne [Measure ν] (h : Known samples) (v : ν) :
    Known (weaveOne true v samples) := by
  rcases weaveOne_split true v samples with ⟨-, eq⟩ | ⟨pre, s, rest, rfl, -, -, eq⟩
  · rw [eq]
    exact List.forall_mem_append.2 ⟨h, List.forall_mem_singleton.2 (.inl rfl)⟩
  · rw [eq]
    have h := List.forall_mem_append.1 h
    exact List.forall_mem_append.2 ⟨h.1, List.forall_mem_cons.2 ⟨.inr rfl, h.2⟩⟩

end Known

section Condense

variable [Measure ν] [LawfulMeasure ν] {merged : List ν} {samples : List (Sample ν)} {limit : ℤ → ℚ}
  {b : Bracket ν} {pre post : List (Bracket ν)}

/-- A bracket that stays is the first, or reaches up to the greatest rank, or was too far from the
end of the next one. -/
theorem Faithful.limit_lt (h : Faithful merged samples)
    (split : brackets 0 (Sample.condense limit merged.length samples) = pre ++ b :: post) :
    pre = [] ∧ b.low = 1 ∧ b.high = 1 ∨
      pre ≠ [] ∧ (b.low = merged.length ∧ b.high = merged.length ∨
        1 < b.low ∧ ∀ a ∈ brackets 0 samples, a.low < b.low →
          limit (b.low - 1) < (merged.length - a.low : ℤ)) := by
  have condensed := h.condense limit merged.length
  cases pre with
  | nil => exact .inl ⟨rfl, condensed.first_bracket split⟩
  | cons p pre =>
    refine .inr ⟨List.cons_ne_nil _ _, ?_⟩
    cases post with
    | nil => exact .inl (condensed.last_bracket split)
    | cons x post =>
      right
      refine ⟨?_, fun a ha lt => ?_⟩
      · exact condensed.one_lt_low split (List.mem_append_right _ List.mem_cons_self)
      · have far := limit_lt_of_condense h.width_pos h.total split (List.cons_ne_nil _ _) ha lt
        refine far.trans_le (Int.cast_le.2 ?_)
        have sound := condensed.sound x (split ▸ List.mem_append_right _ (by simp))
        have := sound.high_le
        omega

/-- With a limit as generous as this, single values are always joined, and all ranks are known. -/
theorem Faithful.delta_eq_zero (h : Faithful merged samples) (known : Known samples)
    (generous : ∀ r : ℤ, (merged.length - r : ℤ) ≤ limit r) :
    ∀ s ∈ Sample.condense limit merged.length samples, s.delta = 0 := by
  refine delta_eq_zero_of_brackets fun b (hb : b ∈ brackets 0 _) => ?_
  obtain ⟨pre, post, split⟩ := List.append_of_mem hb
  rcases h.limit_lt split with ⟨-, low, high⟩ | ⟨-, ⟨low, high⟩ | ⟨low, far⟩⟩
  · rw [low, high, Nat.cast_one]
  · rw [low, high]
  · obtain ⟨s, hs, delta, start⟩ :=
      exists_sample_of_bracket ((brackets_condense_sublist _ _ _).subset hb)
    rcases known s hs with zero | width
    · rw [delta, zero, add_zero]
    · rcases start with start | ⟨a, ha, start⟩
      · omega
      · have far := far a ha (by omega)
        have near := generous (b.low - 1)
        rw [start, width] at far near
        push_cast at far near
        linarith

end Condense

end Sample

namespace Sketch

open Sample

section Runs

variable [Measure ν] [LawfulMeasure ν] {t : Target ℚ} {values : List ν}

/-- A limit under which single values are always joined. -/
def Generous (t : Target ℚ) : Prop := ∀ (n : ℕ) (r : ℤ), ((n - r : ℤ) : ℚ) ≤ t.allowance n r

theorem known_invariant (generous : Generous t) :
    SummaryInvariant [t] fun (merged : List ν) samples =>
      Faithful merged samples ∧ Known samples where
  nil := ⟨.nil, by simp [Known]⟩
  mem h := h.1.mem
  perm h hm := ⟨h.1.perm hm, h.2⟩
  weaveOne h numbers hv := ⟨h.1.weaveOne numbers hv, h.2.weaveOne _⟩
  condense {merged _} h := ⟨h.1.condense _ _, fun s hs =>
    .inl (h.1.delta_eq_zero h.2 (generous merged.length) s hs)⟩

/-- What is merged last are samples that stand for all values. -/
theorem exists_woven (generous : Generous t) (numbers : ∀ v ∈ values, IsNumber v)
    (full : capacity ≤ values.length) :
    ∃ samples, Faithful values samples ∧ Known samples ∧
      At [t] (values.length, Sample.condense (fun r => t.allowance values.length r) values.length
        samples) [] ((empty [t]).insertAll values).settle := by
  obtain ⟨init, batch, state, rfl, -, at_init, at_end, -⟩ := exists_mergeBatch [t] full
  have numbers := List.forall_mem_append.1 numbers
  have holds := holds_run [t] (insertions init)
  have known := (known_invariant generous).run (insertions init)
  rw [inserted_insertions, run_insertions] at holds known
  have drop := holds.buffer_eq.symm.trans at_init.buffer_eq
  have merged : ((empty [t]).insertAll init).merged = init.length :=
    le_antisymm holds.merged_le (List.drop_eq_nil_iff.1 drop)
  have state_eq := at_init.state_eq
  rw [merged] at state_eq
  obtain rfl := state_eq
  rw [merged, List.take_length] at known
  have woven := (known_invariant generous).weave_sorted (known numbers.1) numbers.1 numbers.2
  refine ⟨_, woven.1, woven.2, ?_⟩
  rw [List.length_append]
  exact at_end

end Runs

theorem generous_of_le {t : Target ℚ} (ht : t.Valid) (wide : 1 ≤ t.quantile + 2 * t.epsilon) :
    Generous t := by
  intro n r
  have hε := ht.epsilon_pos
  have hq' : 0 < 1 - t.quantile := sub_pos.2 ht.quantile_lt_one
  rw [ht.allowance_eq_max, mul_max_of_nonneg _ _ (by positivity)]
  push_cast
  rcases le_total ((n : ℚ) - r) 0 with neg | pos
  · have hr : (0 : ℚ) ≤ r := n.cast_nonneg.trans (sub_nonpos.1 neg)
    refine le_max_of_le_left (neg.trans ?_)
    exact mul_nonneg (by positivity) (div_nonneg hr ht.quantile_pos.le)
  · refine le_max_of_le_right ?_
    rw [← mul_div_assoc, le_div_iff₀ hq']
    nlinarith

/-- Only up to a permitted rank does a great error not allow that all ranks are joined. -/
theorem le_ceil_of_allowance_lt {t : Target ℚ} (ht : t.Valid) (hq : t.quantile ≤ t.epsilon)
    (wide : 1 ≤ t.quantile + 2 * t.epsilon) {n : ℕ} {r : ℤ}
    (near : t.allowance n (r - 1 : ℤ) < n) : r ≤ ⌈(t.quantile + t.epsilon) * n⌉ := by
  have hq' := ht.quantile_pos
  have near := (ht.mul_le_allowance _ _).trans_lt near
  rw [← mul_div_assoc, div_lt_iff₀ hq'] at near
  push_cast at near
  have share : t.quantile ≤ 2 * t.epsilon * (t.quantile + t.epsilon) := by
    rcases le_or_gt (1 / 2) t.epsilon with half | less
    · nlinarith
    · calc t.quantile ≤ (1 - t.quantile) * (2 * t.quantile) := by nlinarith
        _ ≤ 2 * t.epsilon * (t.quantile + t.epsilon) :=
          mul_le_mul (by linarith) (by linarith) (by linarith) (by linarith)
  have permitted : (r : ℚ) - 1 < (t.quantile + t.epsilon) * n := by
    by_contra! high
    nlinarith [ht.epsilon_pos]
  have permitted : r - 1 < ⌈(t.quantile + t.epsilon) * n⌉ := by
    exact_mod_cast permitted.trans_le (Int.le_ceil _)
  omega

/-- A known rank that stays, other than the greatest, is not above the permitted ones. -/
theorem low_le_ceil_of_far {t : Target ℚ} (ht : t.Valid) (hq : t.quantile ≤ t.epsilon)
    (wide : 1 ≤ t.quantile + 2 * t.epsilon) {merged : List Float} {samples : List (Sample Float)}
    (faithful : Faithful merged samples) (ne : samples ≠ []) {r : ℕ} (low : 1 < r)
    (far : ∀ a ∈ brackets 0 samples, a.low < r →
      t.allowance merged.length (r - 1 : ℤ) < (merged.length - a.low : ℤ)) :
    (r : ℤ) ≤ ⌈(t.quantile + t.epsilon) * merged.length⌉ := by
  refine le_ceil_of_allowance_lt ht hq wide ?_
  obtain ⟨first, rest, rfl⟩ := List.exists_cons_of_ne_nil ne
  have start := (faithful.first_bracket (brackets_cons ..)).1
  have far := far _ List.mem_cons_self (start.trans_lt low)
  rw [start] at far
  push_cast at far ⊢
  linarith

/-- Known ranks that stay are either low or the greatest. -/
theorem accurate_of_known {t : Target ℚ} (ht : t.Valid) (hq : t.quantile ≤ t.epsilon)
    (wide : 1 ≤ t.quantile + 2 * t.epsilon) {values : List Float}
    (finite : ∀ v ∈ values, v.isFinite = true) (full : capacity ≤ values.length)
    (below_top : exactThreshold [t] values.length t.quantile < values.length) :
    Accurate t values := by
  have hε := ht.epsilon_pos
  have pos : 0 < values.length := (by decide : 0 < capacity).trans_le full
  have hv : values ≠ [] := List.length_pos_iff.1 pos
  have numbers : ∀ v ∈ values, v.isNaN = false := fun v hv =>
    Binary64.isNaN_of_isFinite (finite v hv)
  have generous := generous_of_le ht wide
  obtain ⟨samples, faithful, known, state⟩ := exists_woven generous numbers full
  obtain ⟨pre, b, post, split, answer, reach, -⟩ :=
    find_split (state.find_eq (φ := t.quantile) (summary_insertAll_ne_nil [t] full))
  have sound := (faithful.condense (fun r => t.allowance values.length r) values.length).sound b
    (split ▸ List.mem_append_right _ List.mem_cons_self)
  rw [accurate_iff ht finite hv, ← answer]
  refine ⟨?_, ?_⟩
  · rw [lowerRank_eq_one hq]
    exact atMost_pos_of_mem sound.mem
  · have below_lt := sound.below_lt_high
    have below_lt' := below_lt_length_of_mem sound.mem
    have upper_pos := one_le_upperRank (n := values.length) pos ht.quantile_pos hε
    rcases faithful.limit_lt split with ⟨-, -, high⟩ | ⟨behind, ⟨-, high⟩ | ⟨low, far⟩⟩
    · omega
    · have reach := reach.resolve_left behind
      dsimp only at reach
      omega
    · have hb : b ∈ brackets 0 (Sample.condense (fun r => t.allowance values.length r)
          values.length samples) := split ▸ List.mem_append_right _ List.mem_cons_self
      obtain ⟨s, hs, delta, -⟩ := exists_sample_of_bracket hb
      rw [faithful.delta_eq_zero known (generous values.length) s hs, add_zero] at delta
      have ne : samples ≠ [] := by
        rintro rfl
        cases hb
      have permitted := low_le_ceil_of_far ht hq wide faithful ne low far
      unfold upperRank
      omega

end Sketch

end Telemetry
