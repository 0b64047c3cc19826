import Telemetry.Proofs.Sketch.Answer
import Telemetry.Proofs.Sketch.Relabel
import Telemetry.Proofs.Sketch.Tolerance

/-!
# Insertions in batches

Insertions without reads fill the buffer again and again, and each full buffer is merged as one
sorted batch. So what a sketch holds then is told by a fold over the batches (`at_batches`), with
what is left of the values in the buffer. Once everything is merged, the answers follow from what
the sketch holds (`At.find_eq`).
-/

namespace Telemetry.Sketch

variable {ν ρ : Type}

/-- Insertions and nothing else. -/
def insertions (values : List ν) : List (Use ν ρ) := values.map .insert

theorem inserted_insertions (values : List ν) :
    inserted (insertions values : List (Use ν ρ)) = values := by
  rw [inserted, insertions, List.filterMap_map]
  exact List.filterMap_some

/-- What a sketch holds, apart from its running totals. -/
structure At (targets : List (Target ρ)) (state : ℕ × List (Sample ν)) (buffer : List ν)
    (s : Sketch ν ρ) : Prop where
  targets_eq : s.targets = targets
  state_eq : (s.merged, s.summary) = state
  buffer_eq : s.buffer.toList = buffer

variable {targets : List (Target ρ)} {state : ℕ × List (Sample ν)} {buffer values : List ν}
  {s : Sketch ν ρ} {v : ν} [Measure ν]

theorem At.push (h : At targets state buffer s) (v : ν) :
    At targets state (buffer ++ [v]) (s.push v) where
  targets_eq := h.targets_eq
  state_eq := h.state_eq
  buffer_eq := by
    change (s.buffer.push v).toList = _
    rw [Array.toList_push, h.buffer_eq]

variable [Precision ρ]

theorem run_insertions (s : Sketch ν ρ) (values : List ν) :
    s.run (insertions values) = s.insertAll values := by
  rw [run, insertions, List.foldl_map]
  rfl

/-- The number of merged values and the samples after a batch is merged. -/
def mergeBatch (targets : List (Target ρ)) (state : ℕ × List (Sample ν)) (batch : List ν) :
    ℕ × List (Sample ν) :=
  let merged := state.1 + batch.length
  (merged, Sample.condense (fun r => tolerance targets merged (Precision.ofInt r)) merged
    (Sample.weave true (LawfulMeasure.sorted batch) state.2))

theorem mergeBatch_eq (targets : List (Target ρ)) (n : ℕ) (samples : List (Sample ν))
    (batch : List ν) : mergeBatch targets (n, samples) batch =
      (n + batch.length, (mergeBatch targets (n, samples) batch).2) := rfl

theorem mergeBatch_ne_nil (state : ℕ × List (Sample ν)) {batch : List ν} (hb : batch ≠ []) :
    (mergeBatch targets state batch).2 ≠ [] := by
  intro nil
  have sorted_nil := (Sample.weave_eq_nil_iff.1 (Sample.condense_eq_nil_iff.1 nil)).2
  have perm := LawfulMeasure.sorted_perm batch
  rw [sorted_nil] at perm
  exact hb perm.nil_eq.symm

/-- The number of merged values and the samples after several batches. -/
def mergeBatches (targets : List (Target ρ)) (batches : List (List ν)) : ℕ × List (Sample ν) :=
  batches.foldl (mergeBatch targets) (0, [])

theorem mergeBatches_concat (targets : List (Target ρ)) (batches : List (List ν)) (batch : List ν) :
    mergeBatches targets (batches ++ [batch]) =
      mergeBatch targets (mergeBatches targets batches) batch := by
  rw [mergeBatches, List.foldl_append]
  rfl

theorem At.settle (h : At targets state buffer s) (hb : buffer ≠ []) :
    At targets (mergeBatch targets state buffer) [] s.settle := by
  obtain ⟨rfl, rfl, rfl⟩ := h
  have filled : s.buffer.isEmpty = false := by
    rw [Bool.eq_false_iff]
    exact fun empty => hb (by rw [Array.isEmpty_iff.1 empty])
  rw [Sketch.settle, if_neg (by rw [filled]; exact Bool.false_ne_true)]
  exact ⟨rfl, rfl, rfl⟩

theorem At.insert (h : At targets state buffer s) (room : buffer.length + 1 < capacity) :
    At targets state (buffer ++ [v]) (s.insert v) := by
  have size : (s.push v).buffer.size = buffer.length + 1 := by
    rw [← Array.length_toList, (h.push v).buffer_eq, List.length_append, List.length_singleton]
  rw [insert_eq, if_neg (by rw [size]; exact not_le.2 room)]
  exact h.push v

theorem At.insert_full (h : At targets state buffer s) (full : buffer.length + 1 = capacity) :
    At targets (mergeBatch targets state (buffer ++ [v])) [] (s.insert v) := by
  have size : (s.push v).buffer.size = buffer.length + 1 := by
    rw [← Array.length_toList, (h.push v).buffer_eq, List.length_append, List.length_singleton]
  rw [insert_eq, if_pos (by rw [size]; exact full.ge)]
  exact (h.push v).settle (by simp)

/-- An empty buffer has nothing to merge. -/
theorem At.settle_nil (h : At targets state [] s) : At targets state [] s.settle := by
  have empty : s.buffer.isEmpty = true :=
    Array.isEmpty_iff.2 (Array.toList_eq_nil_iff.1 h.buffer_eq)
  rwa [Sketch.settle, if_pos empty]

/-- Fewer values than fill the buffer only wait there. -/
theorem At.insertAll (h : At targets state [] s) (room : values.length < capacity) :
    At targets state values (s.insertAll values) := by
  induction values using List.reverseRecOn with
  | nil => exact h
  | append_singleton values v ih =>
    rw [List.length_append, List.length_singleton] at room
    rw [Sketch.insertAll, List.foldl_append]
    exact (ih (by omega)).insert room

theorem At.insertAll_full (h : At targets state [] s) (full : values.length = capacity) :
    At targets (mergeBatch targets state values) [] (s.insertAll values) := by
  rcases values.eq_nil_or_concat' with rfl | ⟨init, v, rfl⟩
  · cases full
  · rw [List.length_append, List.length_singleton] at full
    rw [Sketch.insertAll, List.foldl_append]
    exact (h.insertAll (by omega)).insert_full full

/-- Full batches and a rest that is smaller. -/
theorem at_batches (targets : List (Target ρ)) {batches : List (List ν)}
    (full : ∀ batch ∈ batches, batch.length = capacity) (room : values.length < capacity) :
    At targets (mergeBatches targets batches) values
      ((empty targets).insertAll (batches.flatten ++ values)) := by
  have merged : At targets (mergeBatches targets batches) []
      ((empty targets).insertAll batches.flatten) := by
    induction batches using List.reverseRecOn with
    | nil => exact ⟨rfl, rfl, rfl⟩
    | append_singleton batches batch ih =>
      have full := List.forall_mem_append.1 full
      rw [List.flatten_append, List.flatten_singleton, Sketch.insertAll, List.foldl_append,
        mergeBatches_concat]
      exact (ih full.1).insertAll_full (full.2 batch List.mem_cons_self)
  rw [Sketch.insertAll, List.foldl_append]
  exact merged.insertAll room

/-- What is held after values that make up full batches. -/
theorem exists_at (targets : List (Target ρ)) {k : ℕ} (full : values.length = capacity * k) :
    ∃ state, At targets state [] ((empty targets).insertAll values) ∧ (0 < k → state.2 ≠ []) := by
  induction k generalizing values with
  | zero =>
    obtain rfl := List.length_eq_zero_iff.1 full
    exact ⟨(0, []), ⟨rfl, rfl, rfl⟩, fun h => absurd h (lt_irrefl 0)⟩
  | succ k ih =>
    have batch : (values.drop (capacity * k)).length = capacity := by
      rw [List.length_drop, full, Nat.mul_succ, Nat.add_sub_cancel_left]
    obtain ⟨state, at_init, -⟩ := @ih (values.take (capacity * k)) (by
      rw [List.length_take, full, Nat.mul_succ, min_eq_left (Nat.le_add_right _ _)])
    have merged := at_init.insertAll_full batch
    rw [insertAll, insertAll, ← List.foldl_append, List.take_append_drop] at merged
    refine ⟨_, merged, fun _ => mergeBatch_ne_nil _ fun nil => ?_⟩
    rw [nil] at batch
    cases batch

/-- Enough values are all merged in the end, and the last of them in one batch. -/
theorem exists_mergeBatch (targets : List (Target ρ)) (full : capacity ≤ values.length) :
    ∃ init batch state, values = init ++ batch ∧ batch ≠ [] ∧
      At targets state [] ((empty targets).insertAll init) ∧
      At targets (mergeBatch targets state batch) [] ((empty targets).insertAll values).settle ∧
      ((empty targets).insertAll values).summary ≠ [] := by
  have split := Nat.div_add_mod (values.length - 1) capacity
  have mod_lt := Nat.mod_lt (values.length - 1) (show 0 < capacity by decide)
  generalize (values.length - 1) / capacity = k at split
  have pos : 0 < capacity := by decide
  obtain ⟨state, at_init, samples⟩ := exists_at targets
    (show (values.take (capacity * k)).length = capacity * k by
      rw [List.length_take]
      omega)
  have length : (values.drop (capacity * k)).length = (values.length - 1) % capacity + 1 := by
    rw [List.length_drop]
    omega
  have filled : values.drop (capacity * k) ≠ [] := List.ne_nil_of_length_eq_add_one length
  refine ⟨_, _, state, (List.take_append_drop (capacity * k) values).symm, filled, at_init, ?_⟩
  have insert_rest : (empty targets).insertAll values =
      ((empty targets).insertAll (values.take (capacity * k))).insertAll
        (values.drop (capacity * k)) := by
    rw [insertAll, insertAll, insertAll, ← List.foldl_append, List.take_append_drop]
  rw [insert_rest]
  rcases Nat.lt_or_ge (values.drop (capacity * k)).length capacity with lt | ge
  · have wait := at_init.insertAll lt
    refine ⟨wait.settle filled, fun nil => samples ?_ ?_⟩
    · refine Nat.pos_of_ne_zero fun zero => ?_
      rw [zero, Nat.mul_zero, List.drop_zero] at lt
      omega
    · exact (congrArg Prod.snd wait.state_eq).symm.trans nil
  · have merged := at_init.insertAll_full (show (values.drop (capacity * k)).length = capacity by
      omega)
    have samples : (mergeBatch targets state (values.drop (capacity * k))).2 ≠ [] :=
      mergeBatch_ne_nil state filled
    exact ⟨merged.settle_nil,
      fun nil => samples ((congrArg Prod.snd merged.state_eq).symm.trans nil)⟩

theorem summary_insertAll_ne_nil (targets : List (Target ρ)) (full : capacity ≤ values.length) :
    ((empty targets).insertAll values).summary ≠ [] := by
  obtain ⟨-, -, -, -, -, -, -, samples⟩ := exists_mergeBatch targets full
  exact samples

/-! ## Answers -/

section Found

variable {φ : ρ}

/-- The threshold for the quantile `φ` of `n` merged values. -/
def thresholdOf (targets : List (Target ρ)) (n : ℕ) (φ : ρ) : ρ :=
  let rank := Precision.ceiling (φ * Precision.ofInt n)
  rank + Precision.ceiling (tolerance targets n rank / Precision.ofInt 2)

/-- The value that is found in merged samples for the quantile `φ`. -/
def foundIn (targets : List (Target ρ)) (φ : ρ) (state : ℕ × List (Sample ν)) : Option ν :=
  match state.2 with
  | [] => none
  | first :: rest => some (Sample.seek (thresholdOf targets state.1 φ) 0 first rest)

omit [Measure ν] in
theorem foundIn_map {α : Type} (f : α → ν) (n : ℕ) (samples : List (Sample α)) :
    foundIn targets φ (n, samples.map (Sample.map f)) = (foundIn targets φ (n, samples)).map f := by
  cases samples with
  | nil => rfl
  | cons first rest => exact congrArg some (Sample.seek_map f _ 0 first rest)

theorem At.foundIn_eq (h : At targets state [] s.settle) (samples : s.summary ≠ []) :
    foundIn targets φ state = some (s.quantile φ).1 := by
  obtain ⟨rfl, rfl, -⟩ := h
  rw [quantile, if_neg (mt List.isEmpty_iff.1 samples)]
  dsimp only
  cases settled : s.settle.summary with
  | nil => exact absurd settled (summary_settle_ne_nil samples)
  | cons first rest =>
    rw [foundIn]
    rfl

end Found

section Find

variable {targets : List (Target ℚ)} {s : Sketch ν ℚ} {φ : ℚ}

omit [Measure ν] [Precision ρ] in
/-- The value that answers for the quantile `φ` from merged samples. -/
def find (targets : List (Target ℚ)) (φ : ℚ) (state : ℕ × List (Sample ν)) : Option ν :=
  match state.2 with
  | [] => none
  | first :: rest => some (Sample.seek (exactThreshold targets state.1 φ : ℚ) 0 first rest)

omit [Measure ν] [Precision ρ] in
theorem thresholdOf_eq (n : ℕ) : thresholdOf targets n φ = exactThreshold targets n φ :=
  threshold_eq (⟨targets, #[], [], n, 0, ()⟩ : Sketch Unit ℚ) φ

omit [Measure ν] [Precision ρ] in
/-- Without rounding it is the exact threshold that decides. -/
theorem find_eq_foundIn (state : ℕ × List (Sample ν)) :
    find targets φ state = foundIn targets φ state := by
  rw [find, foundIn, thresholdOf_eq]

omit [Measure ν] [Precision ρ] in
theorem find_map {α : Type} (f : α → ν) (n : ℕ) (samples : List (Sample α)) :
    find targets φ (n, samples.map (Sample.map f)) = (find targets φ (n, samples)).map f := by
  rw [find_eq_foundIn, find_eq_foundIn, foundIn_map]

omit [Measure ν] [Precision ρ] in
/-- The bracket that the answer has among those of the samples. -/
theorem find_split {v : ν} (found : find targets φ state = some v) :
    ∃ pre b post, Sample.brackets 0 state.2 = pre ++ b :: post ∧ b.value = v ∧
      (pre = [] ∨ b.high ≤ exactThreshold targets state.1 φ) ∧
      ∀ c ∈ post.head?, exactThreshold targets state.1 φ < c.high := by
  cases samples : state.2 with
  | nil =>
    simp only [find, samples] at found
    cases found
  | cons first rest =>
    simp only [find, samples] at found
    obtain ⟨pre, b, post, split, answer, reach, next⟩ :=
      Sample.seek_split (exactThreshold targets state.1 φ : ℚ) 0 first rest
    refine ⟨pre, b, post, split, answer.symm.trans (Option.some.inj found), ?_, fun c hc => ?_⟩
    · exact reach.imp_right fun h => Int.cast_le.1 (not_lt.1 h)
    · exact Int.cast_lt.1 (next c hc)

theorem At.find_eq (h : At targets state [] s.settle) (samples : s.summary ≠ []) :
    find targets φ state = some (s.quantile φ).1 := by
  rw [find_eq_foundIn, h.foundIn_eq samples]

end Find

end Telemetry.Sketch
