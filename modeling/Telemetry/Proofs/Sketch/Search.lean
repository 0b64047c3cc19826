import Telemetry.Proofs.Sketch.Accuracy
import Telemetry.Proofs.Sketch.Extremes

/-!
# The search for an answer

A search walks along the samples and stops in front of the first one that reaches above the
threshold. It finds what a look at all samples would find, the last one that does not reach above,
because the greatest ranks of the samples rise along the list: a value takes over the greatest rank
of the sample it goes in front of, and from there on all ranks move up by one (`Rising.weaveOne`).
With what the ranks say of the values, this bounds how many values are below an answer
(`quantile_eq_lastWithin`).
-/

namespace Telemetry

open LawfulMeasure

variable {ν ρ : Type}

namespace Sample

/-! ## Searching -/

/-- The greatest ranks of samples rise along the list. -/
def Rising (samples : List (Sample ν)) : Prop :=
  (brackets 0 samples).Pairwise fun b c => b.high < c.high

/-- The value of the last of all samples whose greatest rank is not above the threshold, or of the
first sample if there is none. -/
def lastWithin (threshold : ℤ) (samples : List (Sample ν)) : Option ν :=
  (((brackets 0 samples).filter fun b => b.high ≤ threshold).getLast?.or
    (brackets 0 samples).head?).map Bracket.value

variable {merged : List ν} {samples : List (Sample ν)} {v : ν}

/-- Among rising ranks, the sample before the first one above the threshold is the last one that is
not above it, or the first. -/
theorem lastWithin_eq {threshold : ℤ} {pre post : List (Bracket ν)} {b : Bracket ν}
    (h : Rising samples) (split : brackets 0 samples = pre ++ b :: post)
    (reach : pre = [] ∨ b.high ≤ threshold) (next : ∀ c ∈ post.head?, threshold < c.high) :
    lastWithin threshold samples = some b.value := by
  rw [Rising, split] at h
  obtain ⟨-, rising, -⟩ := List.pairwise_append.1 h
  have above : post.filter (fun c => c.high ≤ threshold) = [] := by
    refine List.filter_eq_nil_iff.2 fun c hc => ?_
    cases post with
    | nil => cases hc
    | cons first rest =>
      have first_above := next first rfl
      have after := (List.pairwise_cons.1 (List.pairwise_cons.1 rising).2).1
      rcases List.mem_cons.1 hc with rfl | hc
      · simpa using first_above
      · simpa using first_above.trans (after c hc)
  rw [lastWithin, split, List.filter_append, List.filter_cons, above]
  by_cases within : b.high ≤ threshold
  · simp [within]
  · obtain rfl := reach.resolve_right within
    simp [within]

/-! ## Rising ranks -/

theorem Rising.condense [Precision ρ] (h : Rising samples) (limit : ℤ → ρ) (m : ℕ) :
    Rising (condense limit m samples) :=
  h.sublist (brackets_condense_sublist limit m samples)

variable [Measure ν] [LawfulMeasure ν]

/-- A value that comes last has a greater rank than all samples. -/
theorem Rising.append_exact (h : Rising samples) (faithful : Faithful merged samples) :
    Rising (samples ++ [exact v]) := by
  rw [Rising, brackets_append]
  refine List.pairwise_append.2 ⟨h, List.pairwise_singleton _ _, fun b hb c hc => ?_⟩
  obtain rfl := List.mem_singleton.1 hc
  have high := (faithful.sound b hb).high_le
  have total := faithful.total
  simp only [exact, span]
  omega

/-- A value takes over the greatest rank of the sample it goes in front of. -/
theorem Rising.inFront {pre rest : List (Sample ν)} {s : Sample ν}
    (h : Rising (pre ++ s :: rest)) (faithful : Faithful merged (pre ++ s :: rest)) :
    Rising (pre ++ ⟨v, 1, if pre.isEmpty then 0 else s.span - 1⟩ :: s :: rest) := by
  rw [Rising, brackets_append] at h
  obtain ⟨h_pre, h_rest, h_cross⟩ := List.pairwise_append.1 h
  rw [Rising, brackets_append, brackets_cons, span_inFront faithful.head, brackets_add]
  have least : ∀ b ∈ brackets (0 + totalWidth pre) (s :: rest),
      (0 + totalWidth pre : ℕ) + s.span ≤ b.high := by
    refine List.forall_mem_cons.2 ⟨le_rfl, fun b hb => ?_⟩
    exact ((List.pairwise_cons.1 h_rest).1 b hb).le
  refine List.pairwise_append.2 ⟨h_pre, List.pairwise_cons.2 ⟨?_, ?_⟩, fun p hp => ?_⟩
  · exact List.forall_mem_map.2 fun b hb => Int.lt_add_one_of_le (least b hb)
  · exact List.pairwise_map.2 (h_rest.imp fun less => Int.add_lt_add_right less 1)
  · have before_s := h_cross p hp _ List.mem_cons_self
    refine List.forall_mem_cons.2 ⟨before_s, List.forall_mem_map.2 fun b hb => ?_⟩
    exact (h_cross p hp b hb).trans (Int.lt_succ b.high)

theorem Rising.weaveOne (h : Rising samples) (faithful : Faithful merged samples) (v : ν) :
    Rising (weaveOne true v samples) := by
  rcases weaveOne_split true v samples with ⟨-, eq⟩ | ⟨pre, s, rest, rfl, -, -, eq⟩
  · rw [eq]
    exact h.append_exact faithful
  · rw [eq, Bool.true_and]
    exact h.inFront faithful

end Sample

namespace Sketch

variable [Measure ν] [LawfulMeasure ν] [Precision ρ]

theorem rising_invariant (targets : List (Target ρ)) :
    SummaryInvariant targets fun (merged : List ν) samples =>
      Sample.Faithful merged samples ∧ Sample.Rising samples where
  nil := ⟨.nil, List.Pairwise.nil⟩
  mem h := h.1.mem
  perm h hm := ⟨h.1.perm hm, h.2⟩
  weaveOne h numbers hv := ⟨h.1.weaveOne numbers hv, h.2.weaveOne h.1 _⟩
  condense h := ⟨h.1.condense _ _, h.2.condense _ _⟩

theorem rising_run (targets : List (Target ρ)) (uses : List (Use ν ρ))
    (numbers : ∀ v ∈ inserted uses, IsNumber v) :
    Sample.Rising ((empty targets).run uses).summary :=
  ((rising_invariant targets).run uses numbers).2

/-- A read for a quantile changes what the samples are, but not that their ranks rise. -/
theorem rising_settle {targets : List (Target ρ)} {uses : List (Use ν ρ)}
    (numbers : ∀ v ∈ inserted uses, IsNumber v)
    (h : ((empty targets).run uses).summary ≠ []) (φ : ρ) :
    Sample.Rising ((empty targets).run uses).settle.summary := by
  rw [← run_quantile uses φ h]
  exact rising_run targets _ (by rwa [inserted_quantile])

/-- After any run over numbers that left samples, whatever the targets are: once what is buffered is
merged, the greatest ranks of the samples rise, and the answer for a quantile is the value of the
last of all samples that is within the threshold, or of the first sample. So no more inserted values
are below the answer than the threshold allows. -/
theorem quantile_eq_lastWithin {targets : List (Target ℚ)} {uses : List (Use Float ℚ)}
    (numbers : ∀ v ∈ inserted uses, v.isNaN = false)
    (samples : ((empty targets).run uses).summary ≠ []) (φ : ℚ) :
    let s := ((empty targets).run uses).settle
    let rank : ℤ := ⌈φ * s.merged⌉
    let threshold : ℤ := rank + ⌈s.limit rank / 2⌉
    let answer := (((empty targets).run uses).quantile φ).1
    Sample.Rising s.summary ∧
      Sample.lastWithin threshold s.summary = some answer ∧
      ((inserted uses).countP (fun v => decide (v < answer)) : ℤ) ≤ max threshold 1 - 1 := by
  intro s rank threshold answer
  have exact_threshold : s.threshold φ = threshold := threshold_eq s φ
  have faithful : Sample.Faithful (inserted uses) s.summary := faithful_settle numbers φ samples
  have rising : Sample.Rising s.summary := rising_settle numbers samples φ
  obtain ⟨pre, b, post, split, found, reach, next⟩ := quantile_sampled numbers φ samples
  have found : answer = b.value := found
  rw [show ((empty targets).run uses).settle = s from rfl, exact_threshold] at reach next
  have reach : pre = [] ∨ b.high ≤ threshold :=
    reach.imp_right fun h => Int.cast_le.1 (not_lt.1 h)
  have next : ∀ c ∈ post.head?, threshold < c.high := fun c hc => Int.cast_lt.1 (next c hc)
  have sound := faithful.sound b (by simp [s, split])
  refine ⟨rising, ?_, ?_⟩
  · rw [found]
    exact Sample.lastWithin_eq rising split reach next
  · have same : exactThreshold targets (inserted uses).length φ = threshold :=
      Int.cast_injective ((threshold_settle φ samples).symm.trans exact_threshold)
    have under : (below (inserted uses) answer : ℤ) <
        max 1 (exactThreshold targets (inserted uses).length φ) :=
      (below_lt_threshold numbers φ samples).1
    have number : answer.isNaN = false := by
      rw [found]
      exact numbers _ sound.mem
    rw [same, below_eq_countP numbers number] at under
    rw [max_comm]
    exact Int.le_sub_one_of_lt under

theorem quantile_eq_lastWithin_descent :
    let uses : List (Use Float ℚ) := insertions descent
    (∀ v ∈ inserted uses, v.isNaN = false) ∧
      ((empty Target.standard).run uses).summary ≠ [] ∧
      let s := ((empty Target.standard).run uses).settle
      let rank : ℤ := ⌈(9 / 10 : ℚ) * s.merged⌉
      let threshold : ℤ := rank + ⌈s.limit rank / 2⌉
      let answer := (((empty Target.standard).run uses).quantile (9 / 10)).1
      Sample.Rising s.summary ∧
        Sample.lastWithin threshold s.summary = some answer ∧
        ((inserted uses).countP (fun v => decide (v < answer)) : ℤ) ≤ max threshold 1 - 1 := by
  intro uses
  have samples : ((empty Target.standard).run uses).summary ≠ [] := by
    rw [run_insertions]
    refine summary_insertAll_ne_nil _ ?_
    rw [descent, List.length_map, List.length_range]
  exact ⟨isNaN_of_mem_descent, samples,
    quantile_eq_lastWithin isNaN_of_mem_descent samples (9 / 10)⟩

end Sketch

end Telemetry
