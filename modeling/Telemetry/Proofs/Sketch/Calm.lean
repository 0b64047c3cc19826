import Telemetry.Proofs.Sketch.Cuts

/-!
# Reads that move no cut

A read merges the values that wait, so the batches after it begin elsewhere. Two kinds of numbers of
values are calm: those below a first batch, where a read merges nothing yet, and those that make up
full batches, where nothing waits. A run that is read at calm numbers only is cut as one that is not
read at all (`close_cut_of_calm`). What a run answers is found in the samples that its cuts leave
(`foundIn_cut`).
-/

namespace Telemetry.Sketch

variable {ν ρ : Type}

/-! ## Calm numbers of values -/

/-- As many values as leave a read nothing to merge: less than a batch, or only full ones. -/
def Calm (n : ℕ) : Prop := n < capacity ∨ capacity ∣ n

/-- Whenever a run is read before its last value, the number of values so far is in `A`. -/
def ReadsAt (A : ℕ → Prop) (uses : List (Use ν ρ)) : Prop :=
  ∀ pre u post, uses = pre ++ u :: post → u.IsRead → inserted post ≠ [] → A (inserted pre).length

section Cuts

variable {values : List ν} {c : Cut ν} {uses : List (Use ν ρ)}

theorem Cut.Full.length_eq (h : c.Full values) :
    values.length = capacity * c.batches.length + c.waiting.length := by
  have lengths : c.batches.map List.length = List.replicate c.batches.length capacity :=
    List.map_eq_replicate_iff.2 h.full
  rw [← h.values_eq, List.length_append, List.length_flatten, lengths, List.sum_replicate,
    smul_eq_mul, Nat.mul_comm]

theorem Cut.Full.calm_iff (h : c.Full values) :
    Calm values.length ↔ c.batches = [] ∨ c.waiting = [] := by
  have room := h.room
  rw [Calm, h.length_eq, ← List.length_eq_zero_iff, ← List.length_eq_zero_iff]
  simp only [capacity] at *
  omega

/-- There is only one way to cut a batch and less than another one. -/
theorem Cut.Full.eq_singleton {batch rest : List ν} (h : c.Full (batch ++ rest))
    (full : batch.length = capacity) (room : rest.length < capacity) : c = ⟨[batch], rest⟩ := by
  obtain ⟨batches, waiting⟩ := c
  have length := h.length_eq
  have left := h.room
  rw [List.length_append, full] at length
  have single : batches.length = 1 := by
    simp only [capacity] at *
    omega
  obtain ⟨first, rfl⟩ := List.length_eq_one_iff.1 single
  have values := h.values_eq
  rw [List.flatten_singleton] at values
  obtain ⟨rfl, rfl⟩ := List.append_inj values ((h.full first List.mem_cons_self).trans full.symm)
  rfl

/-- Reads at calm numbers only, the last ones included. -/
theorem cut_eq_of_calm (calm : ∀ pre u post, uses = pre ++ u :: post → u.IsRead →
    Calm (inserted pre).length) : cut uses = cut (insertions (inserted uses) : List (Use ν ρ)) := by
  induction uses using List.reverseRecOn with
  | nil => rfl
  | append_singleton uses u ih =>
    have before := ih fun pre w post eq => calm pre w (post ++ [u]) (by simp [eq])
    rw [cut_concat, before]
    rcases u.isRead_or_insert with read | ⟨v, rfl⟩
    · rw [inserted_concat_of_isRead uses read, Cut.use_of_isRead _ read]
      exact if_pos ((full_cut_insertions _).calm_iff.1 (calm uses u [] rfl read))
    · rw [inserted_append]
      exact (cut_insertions_concat _ v).symm

/-- Reads after the last value close the cut and do not matter. -/
theorem close_cut_of_calm (calm : ReadsAt Calm uses) :
    (cut uses).close = (cut (insertions (inserted uses) : List (Use ν ρ))).close := by
  induction uses using List.reverseRecOn with
  | nil => rfl
  | append_singleton uses u ih =>
    rcases u.isRead_or_insert with read | ⟨v, rfl⟩
    · have before : ReadsAt Calm uses := fun pre w post eq hw later =>
        calm pre w (post ++ [u]) (by simp [eq]) hw (by simp [inserted_append, later])
      rw [cut_concat, Cut.use_of_isRead _ read, Cut.close_close, ih before,
        inserted_concat_of_isRead uses read]
    · refine congrArg Cut.close (cut_eq_of_calm fun pre w post eq hw => ?_)
      rcases post.eq_nil_or_concat' with rfl | ⟨post, last, rfl⟩
      · obtain ⟨-, same⟩ := List.append_inj' eq rfl
        exact absurd (List.singleton_inj.1 same).symm (hw v)
      · refine calm pre w _ eq hw ?_
        rw [← List.cons_append, ← List.append_assoc] at eq
        obtain ⟨-, same⟩ := List.append_inj' eq rfl
        obtain rfl := List.singleton_inj.1 same
        rw [inserted_append]
        exact List.append_ne_nil_of_right_ne_nil _ (List.cons_ne_nil v [])

end Cuts

/-! ## What is found after a cut -/

variable [Measure ν] [Precision ρ] [LawfulPrecision ρ] {uses : List (Use ν ρ)}

theorem foundIn_cut (targets : List (Target ρ)) (merged : (cut uses).batches ≠ []) (φ : ρ) :
    foundIn targets φ (mergeBatches targets (cut uses).close.batches) =
      some (((empty targets).run uses).quantile φ).1 := by
  have filled := ne_nil_of_mem_cut uses
  have held := at_run targets uses
  have samples : ((empty targets).run uses).summary ≠ [] := fun nil =>
    merged ((mergeBatches_snd_eq_nil_iff targets filled).1
      ((congrArg Prod.snd held.state_eq).symm.trans nil))
  have closed := held.close_cut filled
  rw [rested_of_ne_nil samples, Cut.waiting_close merged] at closed
  exact closed.foundIn_eq samples

/-- What is found after one more value. -/
theorem foundIn_push (targets : List (Target ρ)) (merged : (cut uses).batches ≠ []) (v : ν)
    (φ : ρ) :
    foundIn targets φ (mergeBatch targets (mergeBatches targets (cut uses).batches)
        ((cut uses).waiting ++ [v])) =
      some (((empty targets).run (uses ++ [.insert v])).quantile φ).1 := by
  have pushed : cut (uses ++ [.insert v]) = (cut uses).push v := cut_concat uses _
  have found := foundIn_cut targets (pushed ▸ Cut.batches_push_ne_nil merged v) φ
  rwa [pushed, Cut.close_push merged, mergeBatches_concat] at found

end Telemetry.Sketch
