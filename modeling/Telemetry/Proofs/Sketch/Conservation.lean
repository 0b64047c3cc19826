import Telemetry.Proofs.Rounding
import Telemetry.Proofs.Sketch.Answer

/-!
# Nothing is lost

Every inserted value waits in the buffer or is one of those that a sample stands for. Weaving puts
a sample of width one in for each value, and joining hands the width of one sample to its right
neighbour, so that the widths add up to the number of merged values (`weighed_run`). The buffer
never stays full (`size_lt_capacity_run`), and the sum is that of all values in their order of
arrival, whatever was read in between (`sum_run`).
-/

namespace Telemetry

variable {ν ρ : Type}

/-! ## The widths of woven samples -/

namespace Sample

theorem width_le_totalWidth {s : Sample ν} {samples : List (Sample ν)} (hs : s ∈ samples) :
    s.width ≤ totalWidth samples := by
  obtain ⟨before, after, rfl⟩ := List.mem_iff_append.1 hs
  rw [totalWidth_append, totalWidth_cons]
  omega

variable [Measure ν] {values : List ν} {samples : List (Sample ν)} {atHead : Bool}

theorem totalWidth_weave :
    totalWidth (weave atHead values samples) = totalWidth samples + values.length := by
  refine weave_rec (P := fun _ values samples out =>
    totalWidth out = totalWidth samples + values.length) ?done ?last ?front ?pass
  case done => exact fun _ _ => rfl
  case last =>
    intro _ v values out ih
    rw [totalWidth_cons, ih, List.length_cons, Nat.add_comm, Nat.add_assoc, exact]
  case front =>
    intro _ v values s rest out _ ih
    rw [totalWidth_cons, ih, List.length_cons, Nat.add_comm, Nat.add_assoc]
  case pass =>
    intro _ v values s rest out _ ih
    rw [totalWidth_cons, ih, totalWidth_cons, Nat.add_assoc]

theorem width_pos_weave (h : ∀ s ∈ samples, 1 ≤ s.width) :
    ∀ s ∈ weave atHead values samples, 1 ≤ s.width := by
  refine weave_rec (P := fun _ _ samples out =>
    (∀ s ∈ samples, 1 ≤ s.width) → ∀ s ∈ out, 1 ≤ s.width) ?done ?last ?front ?pass h
  case done => exact fun _ _ h => h
  case last => exact fun _ _ _ _ ih h => List.forall_mem_cons.2 ⟨le_rfl, ih h⟩
  case front => exact fun _ _ _ _ _ _ _ ih h => List.forall_mem_cons.2 ⟨le_rfl, ih h⟩
  case pass =>
    intro _ v values s rest out _ ih h
    have h := List.forall_mem_cons.1 h
    exact List.forall_mem_cons.2 ⟨h.1, ih h.2⟩

end Sample

namespace Sketch

/-! ## What the samples stand for -/

/-- The samples stand for as many values as were merged, each for at least one. -/
structure Weighed (s : Sketch ν ρ) : Prop where
  width_pos : ∀ x ∈ s.summary, 1 ≤ x.width
  total : Sample.totalWidth s.summary = s.merged

variable {s : Sketch ν ρ}

/-- Without values there are no samples, and the other way round. -/
theorem Weighed.summary_eq_nil_iff (h : s.Weighed) : s.summary = [] ↔ s.merged = 0 := by
  rw [← h.total]
  constructor
  · intro nil
    rw [nil, Sample.totalWidth_nil]
  · intro zero
    refine List.eq_nil_iff_forall_not_mem.2 fun x hx => ?_
    have pos := h.width_pos x hx
    have le := Sample.width_le_totalWidth hx
    omega

variable [Measure ν]

theorem Weighed.weaveBuffer (h : s.Weighed) : s.weaveBuffer.Weighed where
  width_pos := Sample.width_pos_weave h.width_pos
  total := by
    have size : s.sortedBuffer.length = s.buffer.size := by
      rw [(sortedBuffer_perm s).length_eq, Array.length_toList]
    change Sample.totalWidth (Sample.weave true s.sortedBuffer s.summary) = s.merged + s.buffer.size
    rw [Sample.totalWidth_weave, h.total, size]

variable [Precision ρ]

omit [Measure ν] in
theorem Weighed.condense (h : s.Weighed) : s.condense.Weighed where
  width_pos := Sample.width_pos_condense h.width_pos
  total := Sample.totalWidth_condense.trans h.total

theorem Weighed.settle (h : s.Weighed) : s.settle.Weighed := by
  unfold Sketch.settle
  split_ifs
  · exact h
  · exact h.weaveBuffer.condense

theorem weighed_run (targets : List (Target ρ)) (uses : List (Use ν ρ)) :
    ((empty targets).run uses).Weighed :=
  run_induction (P := fun _ (s : Sketch ν ρ) => s.Weighed) ⟨by simp [empty], rfl⟩
    (fun _ _ _ h => ⟨h.width_pos, h.total⟩) (fun _ _ _ h => h.weaveBuffer)
    (fun _ _ h => h.condense) uses

/-- The samples that are read stand for all values, merged or not. -/
theorem Weighed.totalWidth_toSamples {targets : List (Target ρ)} {values : List ν}
    (h : s.Weighed) (holds : Holds targets values s) :
    Sample.totalWidth s.toSamples.1 = values.length := by
  unfold toSamples
  split_ifs with empty
  · have merged := h.summary_eq_nil_iff.1 (List.isEmpty_iff.1 empty)
    have size := holds.merged_add_size
    rw [merged, Nat.zero_add] at size
    rw [Sample.totalWidth_exact, (sortedBuffer_perm s).length_eq, Array.length_toList, size]
  · exact h.settle.condense.total.trans holds.merged_settle

/-! ## The buffer -/

theorem size_settle (s : Sketch ν ρ) : s.settle.buffer.size = 0 := by
  unfold settle
  split_ifs with empty
  · rw [Array.isEmpty_iff.1 empty, Array.size_empty]
  · rfl

/-- The buffer is merged as soon as it is full. -/
theorem size_lt_capacity_run (targets : List (Target ρ)) (uses : List (Use ν ρ)) :
    ((empty targets).run uses).buffer.size < capacity := by
  have settled : ∀ s : Sketch ν ρ, s.settle.buffer.size < capacity := fun s => by
    rw [size_settle]
    exact Nat.zero_lt_succ _
  induction uses using List.reverseRecOn with
  | nil => exact Nat.zero_lt_succ _
  | append_singleton uses u ih =>
    rw [run, List.foldl_append]
    cases u with
    | insert v =>
      change (((empty targets).run uses).insert v).buffer.size < capacity
      rw [insert_eq]
      split_ifs with full
      · exact settled _
      · exact not_le.1 full
    | quantile φ =>
      exact quantile_of_settle (P := fun s => s.buffer.size < capacity) (fun _ _ => settled _) φ ih
    | toSamples | sampledSum =>
      exact toSamples_of_settle (P := fun s => s.buffer.size < capacity) (fun _ _ => settled _)
        (fun _ h => h) ih

/-- Samples exist from the first full buffer on, and not before. -/
theorem summary_run_eq_nil_iff (targets : List (Target ρ)) (uses : List (Use ν ρ)) :
    ((empty targets).run uses).summary = [] ↔ (inserted uses).length < capacity := by
  have all := (holds_run targets uses).merged_add_size
  constructor
  · intro nil
    have merged := (weighed_run targets uses).summary_eq_nil_iff.1 nil
    have room := size_lt_capacity_run targets uses
    omega
  · intro few
    by_contra samples
    have filled := capacity_le_merged_run targets uses samples
    omega

/-- As long as there are no samples, all values wait in the buffer. -/
theorem sortedBuffer_run_of_nil {targets : List (Target ρ)} {uses : List (Use ν ρ)}
    (nil : ((empty targets).run uses).summary = []) :
    ((empty targets).run uses).sortedBuffer = LawfulMeasure.sorted (inserted uses) := by
  have merged := (weighed_run targets uses).summary_eq_nil_iff.1 nil
  rw [sortedBuffer, (holds_run targets uses).buffer_eq, merged, List.drop_zero]
  rfl

/-! ## The sum -/

theorem sum_run (targets : List (Target ρ)) (uses : List (Use ν ρ)) :
    ((empty targets).run uses).sum = (inserted uses).foldl (· + ·) Measure.zero := by
  refine run_induction
    (P := fun values (s : Sketch ν ρ) => s.sum = values.foldl (· + ·) Measure.zero) rfl ?_
    (fun _ _ _ h => h) (fun _ _ h => h) uses
  intro values s v h
  rw [List.foldl_append, ← h]
  rfl

theorem sum_settle (s : Sketch ν ρ) : s.settle.sum = s.sum := by
  unfold settle
  split_ifs <;> rfl

theorem sum_insertAll (s : Sketch ν ρ) (values : List ν) :
    (s.insertAll values).sum = values.foldl (· + ·) s.sum := by
  have step : ∀ (s : Sketch ν ρ) (v : ν), (s.insert v).sum = s.sum + v := by
    intro s v
    rw [insert_eq]
    split_ifs
    · exact sum_settle _
    · rfl
  induction values generalizing s with
  | nil => rfl
  | cons v rest ih =>
    rw [List.foldl_cons, ← step]
    exact ih (s.insert v)

theorem sum_quantiles (s : Sketch ν ρ) (φs : List ρ) : (s.quantiles φs).2.sum = s.sum :=
  quantiles_of_settle (P := fun s' => s'.sum = s.sum) (fun s' h => (sum_settle s').trans h) φs rfl

/-! ## All together -/

/-- After any run, whatever the targets and the values are, each inserted value is counted once: it
waits in the buffer, which is never full, or a sample stands for it. The samples that are read stand
for all of them, and the sum is taken in the order of arrival. As long as the number of values is
below `2 ^ 53`, the doubles of the widths are exact. -/
theorem observations_conserved (targets : List (Target ρ)) (uses : List (Use ν ρ)) :
    let s : Sketch ν ρ := (empty targets).run uses
    s.count = (inserted uses).length ∧
      s.buffer.size < capacity ∧
      (∀ x ∈ s.summary, 1 ≤ x.width) ∧
      Sample.totalWidth s.summary = s.merged ∧
      s.merged + s.buffer.size = s.count ∧
      (s.summary = [] ↔ s.merged = 0) ∧
      Sample.totalWidth s.toSamples.1 = s.count ∧
      s.sum = (inserted uses).foldl (· + ·) Measure.zero ∧
      ((inserted uses).length < 2 ^ 53 →
        ∀ x ∈ s.summary, Binary64.toRat (Float.ofNat x.width) = x.width) := by
  intro s
  have holds : Holds targets (inserted uses) s := holds_run targets uses
  have weighed : s.Weighed := weighed_run targets uses
  refine ⟨holds.count_eq, size_lt_capacity_run targets uses, weighed.width_pos, weighed.total,
    holds.merged_add_size.trans holds.count_eq.symm, weighed.summary_eq_nil_iff, ?_,
    sum_run targets uses, fun few x hx => ?_⟩
  · rw [weighed.totalWidth_toSamples holds, holds.count_eq]
  · have le := Sample.width_le_totalWidth hx
    rw [weighed.total] at le
    exact Binary64.toRat_ofNat ((le.trans holds.merged_le).trans_lt few)

end Sketch

end Telemetry
