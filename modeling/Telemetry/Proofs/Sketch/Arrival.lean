import Telemetry.Proofs.Sketch.Cuts

/-!
# The order of arrival in a batch

Without reads each batch holds as many values as fill the buffer, and the last one what is left.
If two lists of values have the same ones block by block, in whatever order, then so have their
batches (`Cut.Full.perm`), and the sketches that take them in answer alike
(`answers_eq_of_blocks_perm`).
-/

namespace Telemetry.Sketch

section Blocks

variable {ν : Type} {values others : List ν} {k : ℕ}

/-- The values from the `k`-th batch on, as many as fill a buffer. -/
def block (k : ℕ) (values : List ν) : List ν := (values.drop (capacity * k)).take capacity

theorem block_zero_of_length_lt (room : values.length < capacity) : block 0 values = values := by
  rw [block, Nat.mul_zero, List.drop_zero, List.take_of_length_le room.le]

variable {batch : List ν} (full : batch.length = capacity)

include full

theorem block_zero_append : block 0 (batch ++ values) = batch := by
  rw [block, Nat.mul_zero, List.drop_zero, ← full, List.take_left]

theorem block_succ_append : block (k + 1) (batch ++ values) = block k values := by
  rw [block, block, Nat.mul_succ, Nat.add_comm, ← full, List.drop_append, full,
    Nat.add_sub_cancel_left, List.drop_eq_nil_of_le (by omega), List.nil_append]

end Blocks

section Cuts

variable {ν : Type} {values others : List ν}

/-- The batches are the blocks. -/
theorem Cut.Full.perm {c d : Cut ν} (hc : c.Full values) (hd : d.Full others)
    (blocks : ∀ k, (block k values).Perm (block k others)) :
    List.Forall₂ List.Perm c.batches d.batches ∧ c.waiting.Perm d.waiting := by
  obtain ⟨batches, waiting⟩ := c
  obtain ⟨batches', waiting'⟩ := d
  obtain ⟨full, room, rfl⟩ := hc
  obtain ⟨full', room', rfl⟩ := hd
  dsimp only at *
  induction batches generalizing batches' with
  | nil =>
    have start := blocks 0
    rw [List.flatten_nil, List.nil_append, block_zero_of_length_lt room] at start
    cases batches' with
    | nil =>
      rw [List.flatten_nil, List.nil_append, block_zero_of_length_lt room'] at start
      exact ⟨.nil, start⟩
    | cons batch rest =>
      have length := full' batch List.mem_cons_self
      rw [List.flatten_cons, List.append_assoc, block_zero_append length] at start
      rw [start.length_eq, length] at room
      exact absurd room (lt_irrefl _)
  | cons batch rest ih =>
    have full := List.forall_mem_cons.1 full
    have start := blocks 0
    rw [List.flatten_cons, List.append_assoc, block_zero_append full.1] at start
    cases batches' with
    | nil =>
      rw [List.flatten_nil, List.nil_append, block_zero_of_length_lt room'] at start
      rw [← start.length_eq, full.1] at room'
      exact absurd room' (lt_irrefl _)
    | cons batch' rest' =>
      have full' := List.forall_mem_cons.1 full'
      rw [List.flatten_cons, List.append_assoc, block_zero_append full'.1] at start
      have later : ∀ k, (block k (rest.flatten ++ waiting)).Perm
          (block k (rest'.flatten ++ waiting')) := by
        intro k
        have next := blocks (k + 1)
        rwa [List.flatten_cons, List.append_assoc, block_succ_append full.1, List.flatten_cons,
          List.append_assoc, block_succ_append full'.1] at next
      obtain ⟨same, waits⟩ := ih rest' full.2 full'.2 later
      exact ⟨.cons start same, waits⟩

end Cuts

/-- Two lists of values, each block of one in another order than in the other, leave sketches that
give the same answers to all reads, down to the bits, and hold the same number of values. -/
theorem answers_eq_of_blocks_perm (targets : List (Target Float)) {values others : List Float}
    (blocks : ∀ k, ((values.drop (capacity * k)).take capacity).Perm
      ((others.drop (capacity * k)).take capacity)) (reads : List (Read Float)) :
    let s : Sketch Float Float := (empty targets).insertAll values
    let t : Sketch Float Float := (empty targets).insertAll others
    (s.answers reads).1 = (t.answers reads).1 ∧ s.count = t.count := by
  intro s t
  have cut_left := full_cut_insertions (ρ := Float) values
  have cut_right := full_cut_insertions (ρ := Float) others
  obtain ⟨batches, waiting⟩ := cut_left.perm cut_right blocks
  have left := at_run targets (insertions values)
  have right := at_run targets (insertions others)
  rw [run_insertions] at left right
  rw [mergeBatches_congr targets batches] at left
  have alike : s.Alike t := left.alike right waiting
  refine ⟨alike.answers_fst reads, ?_⟩
  have merged := alike.merged_eq
  have size := alike.size_eq
  have holds := holds_run targets (insertions values)
  have holds' := holds_run targets (insertions others)
  rw [run_insertions] at holds holds'
  have count : s.count = s.merged + s.buffer.size :=
    holds.count_eq.trans holds.merged_add_size.symm
  have count' : t.count = t.merged + t.buffer.size :=
    holds'.count_eq.trans holds'.merged_add_size.symm
  rw [count, count', merged, size]

/-- A first batch in either direction, with one more value after it. -/
theorem answers_eq_of_blocks_perm_reverse :
    let batch := (List.range capacity).map Float.ofNat
    let s : Sketch Float Float := (empty Target.standard).insertAll (batch ++ [0])
    let t : Sketch Float Float := (empty Target.standard).insertAll (batch.reverse ++ [0])
    (∀ k, (((batch ++ [0]).drop (capacity * k)).take capacity).Perm
      (((batch.reverse ++ [0]).drop (capacity * k)).take capacity)) ∧
        ∀ reads, (s.answers reads).1 = (t.answers reads).1 ∧ s.count = t.count := by
  intro batch s t
  have full : batch.length = capacity := by rw [List.length_map, List.length_range]
  have full' : batch.reverse.length = capacity := List.length_reverse.trans full
  have blocks : ∀ k, (block k (batch ++ [0])).Perm (block k (batch.reverse ++ [0])) := by
    intro k
    cases k with
    | zero =>
      rw [block_zero_append full, block_zero_append full']
      exact (List.reverse_perm batch).symm
    | succ k => rw [block_succ_append full, block_succ_append full']
  exact ⟨blocks, answers_eq_of_blocks_perm Target.standard blocks⟩

end Telemetry.Sketch
