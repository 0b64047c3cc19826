import Telemetry.Proofs.Sketch.Soundness

/-!
# How a sketch answers

As long as nothing was merged, a sketch answers from all of its values (`quantile_exact`). Later it
merges what is buffered and answers with the bracket right before the first one that reaches above
the threshold (`quantile_sampled`). By then the summary stands for all values (`faithful_settle`).
-/

namespace Telemetry

open LawfulMeasure

variable {ν ρ : Type}

theorem Sketch.inserted_quantile (uses : List (Sketch.Use ν ρ)) (φ : ρ) :
    Sketch.inserted (uses ++ [.quantile φ]) = Sketch.inserted uses := by
  rw [Sketch.inserted, List.filterMap_append, List.filterMap_cons_none rfl, List.filterMap_nil,
    List.append_nil, Sketch.inserted]

theorem Sketch.inserted_toSamples (uses : List (Sketch.Use ν ρ)) :
    Sketch.inserted (uses ++ [.toSamples]) = Sketch.inserted uses := by
  rw [Sketch.inserted, List.filterMap_append, List.filterMap_cons_none rfl, List.filterMap_nil,
    List.append_nil, Sketch.inserted]

variable [Precision ρ]

namespace Sample

/-- Where a search stops: no bracket before the answer's own reaches above the threshold, unless
that is the first, and the next one does. -/
theorem seek_split (threshold : ρ) (before : ℕ) (held : Sample ν) (rest : List (Sample ν)) :
    ∃ pre b post, brackets before (held :: rest) = pre ++ b :: post ∧
      seek threshold before held rest = b.value ∧
      (pre = [] ∨ ¬threshold < Precision.ofInt b.high) ∧
      ∀ c ∈ post.head?, threshold < Precision.ofInt c.high := by
  induction rest generalizing before held with
  | nil => exact ⟨[], _, [], rfl, rfl, .inl rfl, by simp⟩
  | cons s rest ih =>
    by_cases above : threshold < Precision.ofInt ((before + held.width : ℕ) + s.span)
    · refine ⟨[], _, _, rfl, if_pos above, .inl rfl, fun c hc => ?_⟩
      obtain rfl := Option.some.inj hc
      exact above
    · obtain ⟨pre, b, post, split, answer, reach, next⟩ := ih (before + held.width) s
      refine ⟨_ :: pre, b, post, congrArg _ split, (if_neg above).trans answer, .inr ?_, next⟩
      rcases reach with rfl | reach
      · obtain rfl := (List.cons.inj split).1
        exact above
      · exact reach

end Sample

namespace Sketch

variable [Measure ν] {targets : List (Target ρ)} {s : Sketch ν ρ} {values : List ν}

theorem quantile_snd (φ : ρ) (h : s.summary ≠ []) : (s.quantile φ).2 = s.settle := by
  rw [quantile, if_neg (mt List.isEmpty_iff.1 h)]
  dsimp only
  split <;> rfl

theorem toSamples_of_ne_nil (h : s.summary ≠ []) :
    s.toSamples = (s.settle.condense.summary, s.settle.condense) :=
  if_neg (mt List.isEmpty_iff.1 h)

theorem summary_settle_ne_nil (samples : s.summary ≠ []) : s.settle.summary ≠ [] := by
  rw [settle]
  split_ifs
  · exact samples
  · exact fun nil => samples (Sample.weave_eq_nil_iff.1 (Sample.condense_eq_nil_iff.1 nil)).1

/-- Settling leaves nothing in the buffer. -/
theorem Holds.merged_settle (h : Holds targets values s) : s.settle.merged = values.length := by
  rw [← h.merged_add_size, settle]
  split_ifs with empty
  · rw [Array.isEmpty_iff.1 empty, Array.size_empty, Nat.add_zero]
  · rfl

theorem run_quantile (uses : List (Use ν ρ)) (φ : ρ)
    (h : ((empty targets : Sketch ν ρ).run uses).summary ≠ []) :
    (empty targets).run (uses ++ [.quantile φ]) = ((empty targets).run uses).settle := by
  rw [← quantile_snd φ h, run, List.foldl_append]
  rfl

theorem run_toSamples (uses : List (Use ν ρ))
    (h : ((empty targets : Sketch ν ρ).run uses).summary ≠ []) :
    (empty targets).run (uses ++ [.toSamples]) = ((empty targets).run uses).settle.condense := by
  rw [run, List.foldl_append]
  exact congrArg Prod.snd (toSamples_of_ne_nil h)

variable [LawfulMeasure ν] {uses : List (Use ν ρ)}

theorem faithful_settle (numbers : ∀ v ∈ inserted uses, IsNumber v) (φ : ρ)
    (h : ((empty targets).run uses).summary ≠ []) :
    Sample.Faithful (inserted uses) ((empty targets).run uses).settle.summary := by
  have faithful := faithful_run targets (uses ++ [.quantile φ])
  rw [inserted_quantile, run_quantile uses φ h, (holds_run targets uses).merged_settle,
    List.take_length] at faithful
  exact faithful numbers

theorem quantile_exact (numbers : ∀ v ∈ inserted uses, IsNumber v) (φ : ρ)
    (h : ((empty targets).run uses).summary = []) :
    (((empty targets).run uses).quantile φ).1 = exactQuantile (sorted (inserted uses)) φ := by
  have holds := holds_run targets uses
  have merged : ((empty targets).run uses).merged = 0 := by
    have total := (faithful_run targets uses numbers).total
    rw [h, holds.length_take] at total
    exact total.symm
  have buffer := holds.buffer_eq
  rw [merged, List.drop_zero] at buffer
  rw [quantile, if_pos (List.isEmpty_iff.2 h), sortedBuffer, buffer]
  rfl

theorem quantile_sampled (numbers : ∀ v ∈ inserted uses, IsNumber v) (φ : ρ)
    (h : ((empty targets).run uses).summary ≠ []) :
    ∃ pre b post, Sample.brackets 0 ((empty targets).run uses).settle.summary = pre ++ b :: post ∧
      (((empty targets).run uses).quantile φ).1 = b.value ∧
      (pre = [] ∨ ¬((empty targets).run uses).settle.threshold φ < Precision.ofInt b.high) ∧
      ∀ c ∈ post.head?, ((empty targets).run uses).settle.threshold φ < Precision.ofInt c.high := by
  have total := (faithful_settle numbers φ h).total
  have filled := (capacity_le_merged_run targets uses h).trans (holds_run targets uses).merged_le
  rw [quantile, if_neg (mt List.isEmpty_iff.1 h)]
  cases samples : ((empty targets).run uses).settle.summary with
  | nil =>
    rw [samples, Sample.totalWidth_nil] at total
    rw [← total] at filled
    exact absurd filled (by decide)
  | cons first rest =>
    simp only [samples]
    exact Sample.seek_split _ 0 first rest

omit [LawfulMeasure ν] in
/-- The exact answer stands among the values. -/
theorem getElem?_exactQuantile {values : List ν} (h : values ≠ []) (φ : ρ) :
    values[min (Precision.truncate (Precision.ofInt values.length * φ) - 1) (values.length - 1)]? =
      some (exactQuantile values φ) := by
  have pos := List.length_pos_iff.2 h
  rw [exactQuantile, List.getD_eq_getElem _ _ (by omega), List.getElem?_eq_getElem]

omit [LawfulMeasure ν] in
theorem exactQuantile_mem {values : List ν} (φ : ρ) (h : values ≠ []) :
    exactQuantile values φ ∈ values :=
  List.mem_of_getElem? (getElem?_exactQuantile h φ)

/-- An answer is one of the inserted values. -/
theorem quantile_mem (numbers : ∀ v ∈ inserted uses, IsNumber v) (φ : ρ)
    (hv : inserted uses ≠ []) :
    (((empty targets).run uses).quantile φ).1 ∈ inserted uses := by
  by_cases samples : ((empty targets).run uses).summary = []
  · rw [quantile_exact numbers φ samples]
    have perm := sorted_perm (inserted uses)
    refine perm.subset (exactQuantile_mem φ fun nil => hv ?_)
    rw [nil] at perm
    exact perm.nil_eq.symm
  · obtain ⟨pre, b, post, split, answer, -⟩ := quantile_sampled numbers φ samples
    rw [answer]
    exact ((faithful_settle numbers φ samples).sound b (by simp [split])).mem

end Sketch

end Telemetry
