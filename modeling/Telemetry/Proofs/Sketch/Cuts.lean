import Telemetry.Proofs.Sketch.Batch
import Telemetry.Proofs.Sketch.Reads

/-!
# How a run cuts its values

A run merges its values in batches. A batch ends when the buffer is full, and a read ends one early
unless it is the first. What a sketch holds is told by these cuts alone (`at_run`), and of each
batch only the sorted values count. So sketches with the same batches, up to the order inside them,
answer alike (`Alike.answers_fst`, `answer_eq_of_cut`).
-/

namespace Telemetry

variable {ν ρ : Type} [Measure ν]

open LawfulMeasure

namespace Sketch

/-! ## Sketches that answer alike -/

/-- The same samples, and the same values waiting in some order. -/
structure Alike (s t : Sketch ν ρ) : Prop where
  targets_eq : s.targets = t.targets
  merged_eq : s.merged = t.merged
  summary_eq : s.summary = t.summary
  buffer_perm : s.buffer.toList.Perm t.buffer.toList

section Alike

variable {s t : Sketch ν ρ}

omit [Measure ν] in
theorem Alike.size_eq (h : s.Alike t) : s.buffer.size = t.buffer.size := h.buffer_perm.length_eq

variable [LawfulMeasure ν] [SortsStrictly ν]

theorem Alike.sortedBuffer_eq (h : s.Alike t) : s.sortedBuffer = t.sortedBuffer :=
  sorted_congr h.buffer_perm

theorem Alike.weaveBuffer (h : s.Alike t) : s.weaveBuffer.Alike t.weaveBuffer where
  targets_eq := h.targets_eq
  merged_eq := congrArg₂ (· + ·) h.merged_eq h.size_eq
  summary_eq := congrArg₂ (Sample.weave true) h.sortedBuffer_eq h.summary_eq
  buffer_perm := .refl _

variable [Precision ρ]

omit [Measure ν] [LawfulMeasure ν] [SortsStrictly ν] in
theorem Alike.condense (h : s.Alike t) : s.condense.Alike t.condense where
  targets_eq := h.targets_eq
  merged_eq := h.merged_eq
  summary_eq := by
    simp only [Sketch.condense, limit, h.targets_eq, h.merged_eq, h.summary_eq]
  buffer_perm := h.buffer_perm

theorem Alike.settle (h : s.Alike t) : s.settle.Alike t.settle := by
  have empty : s.buffer.isEmpty = t.buffer.isEmpty := by
    rw [Array.isEmpty, Array.isEmpty, h.size_eq]
  unfold Sketch.settle
  rw [empty]
  split_ifs
  · exact h
  · exact h.weaveBuffer.condense

theorem Alike.quantile (h : s.Alike t) (φ : ρ) :
    (s.quantile φ).1 = (t.quantile φ).1 ∧ (s.quantile φ).2.Alike (t.quantile φ).2 := by
  have settled := h.settle
  have threshold_eq : s.settle.threshold φ = t.settle.threshold φ := by
    simp only [threshold, limit, settled.targets_eq, settled.merged_eq]
  unfold Sketch.quantile
  rw [h.summary_eq]
  split_ifs
  · rw [h.sortedBuffer_eq]
    exact ⟨rfl, h⟩
  · dsimp only
    rw [settled.summary_eq, threshold_eq]
    split <;> exact ⟨rfl, settled⟩

theorem Alike.quantiles (h : s.Alike t) (φs : List ρ) :
    (s.quantiles φs).1 = (t.quantiles φs).1 ∧ (s.quantiles φs).2.Alike (t.quantiles φs).2 := by
  induction φs generalizing s t with
  | nil => exact ⟨rfl, h⟩
  | cons φ rest ih =>
    obtain ⟨same, after⟩ := h.quantile φ
    obtain ⟨others, afterwards⟩ := ih after
    exact ⟨congrArg₂ List.cons same others, afterwards⟩

theorem Alike.toSamples (h : s.Alike t) :
    s.toSamples.1 = t.toSamples.1 ∧ s.toSamples.2.Alike t.toSamples.2 := by
  unfold Sketch.toSamples
  rw [h.summary_eq]
  split_ifs
  · rw [h.sortedBuffer_eq]
    exact ⟨rfl, h⟩
  · exact ⟨h.settle.condense.summary_eq, h.settle.condense⟩

theorem Alike.answer (h : s.Alike t) (r : Read ρ) :
    (r.answer s).1 = (r.answer t).1 ∧ (r.answer s).2.Alike (r.answer t).2 := by
  cases r with
  | quantile φ => exact ⟨congrArg Answer.value (h.quantile φ).1, (h.quantile φ).2⟩
  | toSamples => exact ⟨congrArg Answer.samples h.toSamples.1, h.toSamples.2⟩
  | sampledSum =>
    exact ⟨congrArg (fun xs => Answer.value (Sample.total xs)) h.toSamples.1, h.toSamples.2⟩

/-- Nothing that is asked can tell the two apart. -/
theorem Alike.answers_fst (h : s.Alike t) (reads : List (Read ρ)) :
    (s.answers reads).1 = (t.answers reads).1 := by
  induction reads generalizing s t with
  | nil => rfl
  | cons r rest ih =>
    obtain ⟨same, after⟩ := h.answer r
    exact congrArg₂ List.cons same (ih after)

theorem mergeBatch_congr (targets : List (Target ρ)) (state : ℕ × List (Sample ν))
    {batch other : List ν} (h : batch.Perm other) :
    mergeBatch targets state batch = mergeBatch targets state other := by
  rw [mergeBatch, mergeBatch, h.length_eq, sorted_congr h]

theorem mergeBatches_congr (targets : List (Target ρ)) {batches others : List (List ν)}
    (h : List.Forall₂ List.Perm batches others) :
    mergeBatches targets batches = mergeBatches targets others := by
  unfold mergeBatches
  generalize ((0, []) : ℕ × List (Sample ν)) = state
  induction h generalizing state with
  | nil => rfl
  | cons perm _ ih =>
    rw [List.foldl_cons, List.foldl_cons, mergeBatch_congr targets state perm, ih]

end Alike

omit [Measure ν] in
theorem At.alike {targets : List (Target ρ)} {state : ℕ × List (Sample ν)} {buffer other : List ν}
    {s t : Sketch ν ρ} (hs : At targets state buffer s) (ht : At targets state other t)
    (perm : buffer.Perm other) : s.Alike t where
  targets_eq := hs.targets_eq.trans ht.targets_eq.symm
  merged_eq := congrArg Prod.fst (hs.state_eq.trans ht.state_eq.symm)
  summary_eq := congrArg Prod.snd (hs.state_eq.trans ht.state_eq.symm)
  buffer_perm := by rwa [hs.buffer_eq, ht.buffer_eq]

/-! ## Cuts -/

/-- The use inserts nothing. -/
def Use.IsRead {ν ρ : Type} (u : Use ν ρ) : Prop := ∀ v, u ≠ .insert v

omit [Measure ν] in
theorem Use.isRead_or_insert (u : Use ν ρ) : u.IsRead ∨ ∃ v, u = .insert v := by
  by_cases read : u.IsRead
  · exact .inl read
  · obtain ⟨v, insertion⟩ := not_forall.1 read
    exact .inr ⟨v, not_not.1 insertion⟩

omit [Measure ν] in
theorem inserted_append (uses others : List (Use ν ρ)) :
    inserted (uses ++ others) = inserted uses ++ inserted others := List.filterMap_append

omit [Measure ν] in
theorem inserted_concat_of_isRead (uses : List (Use ν ρ)) {u : Use ν ρ} (read : u.IsRead) :
    inserted (uses ++ [u]) = inserted uses := by
  rw [inserted_append]
  cases u with
  | insert v => exact absurd rfl (read v)
  | quantile | toSamples | sampledSum => exact List.append_nil _

/-- The batches that were merged, in their order, and the values that wait. -/
structure Cut (ν : Type) where
  batches : List (List ν)
  waiting : List ν

namespace Cut

variable {ν ρ : Type}

/-- One more value, which may be the last of its batch. -/
def push (c : Cut ν) (v : ν) : Cut ν :=
  if capacity ≤ c.waiting.length + 1 then ⟨c.batches ++ [c.waiting ++ [v]], []⟩
  else ⟨c.batches, c.waiting ++ [v]⟩

/-- What a read does: waiting values become a batch if there was one before. -/
def close (c : Cut ν) : Cut ν :=
  if c.batches = [] ∨ c.waiting = [] then c else ⟨c.batches ++ [c.waiting], []⟩

/-- The cut after a use. -/
def use (c : Cut ν) : Use ν ρ → Cut ν
  | .insert v => c.push v
  | .quantile _ | .toSamples | .sampledSum => c.close

theorem use_of_isRead (c : Cut ν) {u : Use ν ρ} (read : u.IsRead) : c.use u = c.close := by
  cases u with
  | insert v => exact absurd rfl (read v)
  | quantile | toSamples | sampledSum => rfl

theorem close_close (c : Cut ν) : c.close.close = c.close := by
  unfold close
  split_ifs with calm waits
  · rfl
  · rfl
  · exact absurd (.inr rfl) waits

section Merged

variable {c : Cut ν} (merged : c.batches ≠ [])

include merged

theorem close_eq_concat (waits : c.waiting ≠ []) : c.close = ⟨c.batches ++ [c.waiting], []⟩ :=
  if_neg (not_or.2 ⟨merged, waits⟩)

theorem waiting_close : c.close.waiting = [] := by
  unfold close
  split_ifs with calm
  · exact calm.resolve_left merged
  · rfl

theorem batches_push_ne_nil (v : ν) : (c.push v).batches ≠ [] := by
  unfold push
  split_ifs
  · exact List.append_ne_nil_of_left_ne_nil merged _
  · exact merged

/-- A last value ends in the last batch, whether it fills the buffer or not. -/
theorem close_push (v : ν) : (c.push v).close = ⟨c.batches ++ [c.waiting ++ [v]], []⟩ := by
  unfold push
  split_ifs
  · exact if_pos (.inr rfl)
  · exact close_eq_concat merged (List.append_ne_nil_of_right_ne_nil _ (List.cons_ne_nil v []))

end Merged

end Cut

/-- How a run cuts its values. -/
def cut (uses : List (Use ν ρ)) : Cut ν := uses.foldl Cut.use ⟨[], []⟩

omit [Measure ν] in
theorem cut_concat (uses : List (Use ν ρ)) (u : Use ν ρ) :
    cut (uses ++ [u]) = (cut uses).use u := by
  rw [cut, List.foldl_append]
  rfl

omit [Measure ν] in
/-- Cutting keeps all values in their order. -/
theorem flatten_cut (uses : List (Use ν ρ)) :
    (cut uses).batches.flatten ++ (cut uses).waiting = inserted uses := by
  induction uses using List.reverseRecOn with
  | nil => rfl
  | append_singleton uses u ih =>
    rw [cut_concat]
    rcases u.isRead_or_insert with read | ⟨v, rfl⟩
    · rw [inserted_concat_of_isRead uses read, Cut.use_of_isRead _ read, ← ih, Cut.close]
      split_ifs
      · rfl
      · rw [List.flatten_concat, List.append_nil]
    · rw [inserted_append, ← ih, Cut.use, Cut.push]
      change _ = _ ++ [v]
      split_ifs
      · rw [List.flatten_concat, List.append_nil, List.append_assoc]
      · rw [List.append_assoc]

omit [Measure ν] in
theorem ne_nil_of_mem_cut (uses : List (Use ν ρ)) : ∀ batch ∈ (cut uses).batches, batch ≠ [] := by
  induction uses using List.reverseRecOn with
  | nil => simp [cut]
  | append_singleton uses u ih =>
    rw [cut_concat]
    rcases u.isRead_or_insert with read | ⟨v, rfl⟩
    · rw [Cut.use_of_isRead _ read, Cut.close]
      split_ifs with calm
      · exact ih
      · exact List.forall_mem_append.2
          ⟨ih, List.forall_mem_singleton.2 fun nil => calm (.inr nil)⟩
    · rw [Cut.use, Cut.push]
      split_ifs
      · exact List.forall_mem_append.2 ⟨ih, by simp⟩
      · exact ih

/-- Full batches, and fewer values that wait. -/
structure Cut.Full {ν : Type} (values : List ν) (c : Cut ν) : Prop where
  full : ∀ batch ∈ c.batches, batch.length = capacity
  room : c.waiting.length < capacity
  values_eq : c.batches.flatten ++ c.waiting = values

omit [Measure ν] in
theorem cut_insertions_concat (values : List ν) (v : ν) :
    cut (insertions (values ++ [v]) : List (Use ν ρ)) =
      (cut (insertions values : List (Use ν ρ))).push v := by
  rw [insertions, List.map_append, List.map_singleton, cut_concat]
  rfl

omit [Measure ν] in
/-- Insertions alone fill each batch. -/
theorem full_cut_insertions (values : List ν) :
    (cut (insertions values : List (Use ν ρ))).Full values := by
  suffices sizes : (∀ batch ∈ (cut (insertions values : List (Use ν ρ))).batches,
      batch.length = capacity) ∧
        (cut (insertions values : List (Use ν ρ))).waiting.length < capacity from
    ⟨sizes.1, sizes.2, (flatten_cut _).trans (inserted_insertions values)⟩
  induction values using List.reverseRecOn with
  | nil => exact ⟨by simp [insertions, cut], Nat.zero_lt_succ _⟩
  | append_singleton values v ih =>
    obtain ⟨full, room⟩ := ih
    rw [cut_insertions_concat, Cut.push]
    split_ifs with filled
    · refine ⟨List.forall_mem_append.2 ⟨full, List.forall_mem_singleton.2 ?_⟩,
        Nat.zero_lt_succ _⟩
      rw [List.length_append, List.length_singleton]
      omega
    · rw [List.length_append, List.length_singleton]
      exact ⟨full, not_le.1 filled⟩

section Runs

variable [Precision ρ] {targets : List (Target ρ)} {s : Sketch ν ρ} {c : Cut ν}

theorem mergeBatches_snd_eq_nil_iff (targets : List (Target ρ))
    (full : ∀ batch ∈ c.batches, batch ≠ []) :
    (mergeBatches targets c.batches).2 = [] ↔ c.batches = [] := by
  rcases c.batches.eq_nil_or_concat' with nil | ⟨init, batch, eq⟩
  · simp [nil, mergeBatches]
  · rw [eq] at full ⊢
    rw [mergeBatches_concat]
    have filled := full batch (by simp)
    simp [mergeBatch_ne_nil _ filled]

theorem At.push_cut (h : At targets (mergeBatches targets c.batches) c.waiting s) (v : ν) :
    At targets (mergeBatches targets (c.push v).batches) (c.push v).waiting (s.insert v) := by
  have size : c.waiting.length + 1 = (s.push v).buffer.size := by
    rw [← Array.length_toList, (h.push v).buffer_eq, List.length_append, List.length_singleton]
  rw [insert_eq, Cut.push, size]
  split_ifs
  · rw [mergeBatches_concat]
    exact (h.push v).settle (by simp)
  · exact h.push v

theorem At.close_cut (h : At targets (mergeBatches targets c.batches) c.waiting s)
    (full : ∀ batch ∈ c.batches, batch ≠ []) :
    At targets (mergeBatches targets c.close.batches) c.close.waiting s.rested := by
  have samples : s.summary = [] ↔ c.batches = [] := by
    rw [← mergeBatches_snd_eq_nil_iff targets full, ← h.state_eq]
  by_cases nil : c.batches = []
  · rw [rested_of_nil (samples.2 nil), Cut.close, if_pos (.inl nil)]
    exact h
  · rw [rested_of_ne_nil (mt samples.1 nil)]
    by_cases waits : c.waiting = []
    · rw [Cut.close, if_pos (.inr waits), waits]
      exact (waits ▸ h).settle_nil
    · rw [Cut.close_eq_concat nil waits, mergeBatches_concat]
      exact h.settle waits

variable [LawfulPrecision ρ]

/-- A read merges what waits and has no other effect. -/
theorem apply_of_isRead (h : s.Condensed) {u : Use ν ρ} (read : u.IsRead) :
    u.apply s = s.rested := by
  cases u with
  | insert v => exact absurd rfl (read v)
  | quantile φ => exact Read.answer_snd h (.quantile φ)
  | toSamples => exact Read.answer_snd h .toSamples
  | sampledSum => exact Read.answer_snd h .sampledSum

/-- After any run a sketch holds what its cuts say. -/
theorem at_run (targets : List (Target ρ)) (uses : List (Use ν ρ)) :
    At targets (mergeBatches targets (cut uses).batches) (cut uses).waiting
      ((empty targets).run uses) := by
  induction uses using List.reverseRecOn with
  | nil => exact ⟨rfl, rfl, rfl⟩
  | append_singleton uses u ih =>
    rw [cut_concat, run, List.foldl_append]
    rcases u.isRead_or_insert with read | ⟨v, rfl⟩
    · rw [Cut.use_of_isRead _ read]
      change At targets _ _ (u.apply ((empty targets).run uses))
      rw [apply_of_isRead (condensed_run targets uses) read]
      exact ih.close_cut (ne_nil_of_mem_cut uses)
    · exact ih.push_cut v

/-- Runs that cut the same values in the same way, when the last read is counted in, answer
alike. -/
theorem answer_eq_of_cut [LawfulMeasure ν] [SortsStrictly ν] (targets : List (Target ρ))
    {uses others : List (Use ν ρ)} (same : (cut uses).close = (cut others).close) (r : Read ρ) :
    (r.answer ((empty targets).run uses)).1 = (r.answer ((empty targets).run others)).1 := by
  have left := (at_run targets uses).close_cut (ne_nil_of_mem_cut uses)
  have right := (at_run targets others).close_cut (ne_nil_of_mem_cut others)
  rw [← r.answer_rested (condensed_run targets uses),
    ← r.answer_rested (condensed_run targets others)]
  rw [same] at left
  exact ((left.alike right (.refl _)).answer r).1

end Runs

end Sketch

end Telemetry
