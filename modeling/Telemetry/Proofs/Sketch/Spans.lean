import Telemetry.Proofs.Sketch.Batch
import Telemetry.Proofs.Sketch.Budget
import Telemetry.Proofs.Sketch.StandardTargets

/-!
# How many ranks samples span

What `narrow_run` says of brackets, said of the samples themselves: each but the first spans one
rank, or no more than what the targets allow now at a rank that it reaches (`span_le_limit_run`).
This is the error budget of a summary. It holds between any two uses, whatever was allowed when the
samples were joined.
-/

namespace Telemetry

namespace Sample

variable {ν : Type} {samples : List (Sample ν)} {f : ℤ → ℚ}

theorem span_le_of_isChain_narrow {i : ℕ} {x : Sample ν}
    (h : (brackets 0 samples).IsChain (Bracket.Narrow f)) (after : 0 < i)
    (hx : samples[i]? = some x) :
    x.span ≤ 1 ∨ ∃ r : ℤ, totalWidth (samples.take i) ≤ r ∧
      r ≤ totalWidth (samples.take i) + x.span ∧ (x.span : ℚ) ≤ f r := by
  obtain ⟨hi, rfl⟩ := List.getElem?_eq_some_iff.1 hx
  have split : samples.take i ++ samples[i] :: samples.drop (i + 1) = samples := by
    rw [← List.drop_eq_getElem_cons, List.take_append_drop]
  rw [← split, brackets_append, brackets_cons, Nat.zero_add] at h
  obtain ⟨-, -, neighbours⟩ := List.isChain_append.1 h
  have before : brackets 0 (samples.take i) ≠ [] := by
    intro nil
    have length := congrArg List.length (map_value_brackets 0 (samples.take i))
    rw [nil, List.map_nil, List.length_nil, List.length_map, List.length_take,
      min_eq_left hi.le] at length
    exact Nat.ne_of_lt after length
  have last := List.getLast?_eq_some_getLast before
  have low := low_of_mem_getLast? last
  have within := (neighbours _ last _ rfl).within
  rw [low, Nat.zero_add] at within
  simpa using within

/-- Samples of several values are more than one. -/
theorem Faithful.exists_second [Measure ν] [LawfulMeasure ν] {merged : List ν}
    (h : Faithful merged samples) (several : 1 < merged.length) : ∃ x, samples[1]? = some x := by
  have total := h.total
  cases samples with
  | nil =>
    rw [totalWidth_nil] at total
    omega
  | cons s rest =>
    have head := h.head s rfl
    cases rest with
    | nil =>
      rw [totalWidth_cons, totalWidth_nil, head.1] at total
      omega
    | cons x rest => exact ⟨x, rfl⟩

end Sample

namespace Sketch

/-- After any run over numbers, with targets that were accepted, each sample after the first spans
one rank, or no more than what the targets allow now at a rank that it reaches. -/
theorem span_le_limit_run {targets : List (Target ℚ)} {uses : List (Use Float ℚ)}
    (accepted : ∀ t ∈ targets, ∃ q ε, Target.build q ε = .ok t)
    (numbers : ∀ v ∈ inserted uses, v.isNaN = false) :
    let s := (empty targets).run uses
    ∀ (i : ℕ) (x : Sample Float), 0 < i → s.summary[i]? = some x →
      let start : ℤ := Sample.totalWidth (s.summary.take i)
      x.span ≤ 1 ∨ ∃ r : ℤ, start ≤ r ∧ r ≤ start + x.span ∧ (x.span : ℚ) ≤ s.limit r := by
  intro s i x after hx start
  have valid : ∀ t ∈ targets, t.Valid := by
    intro t ht
    obtain ⟨q, ε, built⟩ := accepted t ht
    exact (Target.build_eq_ok_iff.1 built).1
  have allowed : ∀ r, s.limit r = tolerance targets s.merged r := by
    intro r
    rw [limit, (holds_run targets uses).targets_eq]
  simp only [allowed]
  exact Sample.span_le_of_isChain_narrow (narrow_run valid uses numbers) after hx

/-- A first batch leaves a second sample, which is within the budget. -/
theorem span_le_limit_oneBatch :
    (∀ t ∈ (Target.standard : List (Target ℚ)), ∃ q ε, Target.build q ε = .ok t) ∧
      (∀ v ∈ inserted oneBatch, v.isNaN = false) ∧
      let s := (empty Target.standard).run oneBatch
      ∃ x, s.summary[1]? = some x ∧
        let start : ℤ := Sample.totalWidth (s.summary.take 1)
        x.span ≤ 1 ∨ ∃ r : ℤ, start ≤ r ∧ r ≤ start + x.span ∧ (x.span : ℚ) ≤ s.limit r := by
  have accepted : ∀ t ∈ (Target.standard : List (Target ℚ)),
      ∃ q ε, Target.build q ε = .ok t := fun t ht =>
    ⟨t.quantile, t.epsilon, Target.build_eq_ok_iff.2 ⟨Target.valid_standard t ht, rfl⟩⟩
  have ones : oneBatch = insertions (List.replicate capacity (1 : Float)) :=
    (List.map_replicate).symm
  have numbers : ∀ v ∈ inserted oneBatch, v.isNaN = false := by
    intro v hv
    obtain rfl := eq_one_of_mem_oneBatch v hv
    decide
  have samples : ((empty Target.standard).run oneBatch).summary ≠ [] := by
    rw [ones, run_insertions]
    exact summary_insertAll_ne_nil _ (List.length_replicate).ge
  have filled := capacity_le_merged_run Target.standard oneBatch samples
  have several : 1 < ((inserted oneBatch).take
      ((empty Target.standard).run oneBatch).merged).length := by
    rw [(holds_run _ _).length_take]
    exact lt_of_lt_of_le (by decide) filled
  obtain ⟨x, hx⟩ := (faithful_run Target.standard oneBatch numbers).exists_second several
  exact ⟨accepted, numbers, x, hx, span_le_limit_run accepted numbers 1 x Nat.one_pos hx⟩

end Sketch

end Telemetry
