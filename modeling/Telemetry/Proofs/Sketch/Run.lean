import Telemetry.Proofs.Sketch.Weave
import Telemetry.Sketch

/-!
# Runs of a sketch

A run is a list of uses, insertions and reads in any order. Whatever the uses, the sketch moves in
three ways only: a value joins the buffer, the buffer is woven into the samples, or samples are
joined. `run_induction` reduces a fact about every run to one case for each move. For a fact about
the samples and the values merged so far it is enough that a single value woven in and a single pass
of joining keep it (`SummaryInvariant.run`).
-/

namespace Telemetry.Sketch

variable {ν ρ : Type}

/-! ## Where the values are -/

/-- The values inserted first are merged; the later ones still wait in the buffer. -/
structure Holds (targets : List (Target ρ)) (values : List ν) (s : Sketch ν ρ) : Prop where
  targets_eq : s.targets = targets
  count_eq : s.count = values.length
  merged_le : s.merged ≤ values.length
  buffer_eq : s.buffer.toList = values.drop s.merged

section Holds

variable {targets : List (Target ρ)} {values : List ν} {s : Sketch ν ρ}

theorem Holds.merged_add_size (h : Holds targets values s) :
    s.merged + s.buffer.size = values.length := by
  have := congrArg List.length h.buffer_eq
  rw [Array.length_toList, List.length_drop] at this
  have := h.merged_le
  omega

theorem Holds.length_take (h : Holds targets values s) :
    (values.take s.merged).length = s.merged := by
  rw [List.length_take, min_eq_left h.merged_le]

theorem Holds.take_append_buffer (h : Holds targets values s) :
    values.take s.merged ++ s.buffer.toList = values := by
  rw [h.buffer_eq, List.take_append_drop]

theorem Holds.condense [Precision ρ] (h : Holds targets values s) :
    Holds targets values s.condense :=
  ⟨h.targets_eq, h.count_eq, h.merged_le, h.buffer_eq⟩

variable [Measure ν]

/-- The sketch with one more value in its buffer. -/
def push (s : Sketch ν ρ) (v : ν) : Sketch ν ρ :=
  { s with buffer := s.buffer.push v, count := s.count + 1, sum := s.sum + v }

theorem Holds.push (h : Holds targets values s) (v : ν) :
    Holds targets (values ++ [v]) (s.push v) where
  targets_eq := h.targets_eq
  count_eq := by
    rw [List.length_append, ← h.count_eq]
    rfl
  merged_le := by
    rw [List.length_append]
    exact Nat.le_add_right_of_le h.merged_le
  buffer_eq := by
    change (s.buffer.push v).toList = (values ++ [v]).drop s.merged
    rw [Array.toList_push, h.buffer_eq, List.drop_append_of_le_length h.merged_le]

theorem Holds.weaveBuffer (h : Holds targets values s) : Holds targets values s.weaveBuffer where
  targets_eq := h.targets_eq
  count_eq := h.count_eq
  merged_le := h.merged_add_size.le
  buffer_eq := by
    change [] = values.drop (s.merged + s.buffer.size)
    rw [h.merged_add_size, List.drop_length]

theorem sortedBuffer_perm (s : Sketch ν ρ) : s.sortedBuffer.Perm s.buffer.toList :=
  LawfulMeasure.sorted_perm _

theorem sortedBuffer_pairwise [LawfulMeasure ν] (s : Sketch ν ρ) :
    s.sortedBuffer.Pairwise fun v w => place v ≤ place w :=
  LawfulMeasure.sorted_pairwise _

end Holds

/-! ## Uses -/

variable [Measure ν] [Precision ρ]

/-- What can be done with a sketch. -/
inductive Use (ν ρ : Type) where
  | insert (v : ν)
  | quantile (φ : ρ)
  | toSamples
  | sampledSum

/-- The sketch after a use. -/
def Use.apply (s : Sketch ν ρ) : Use ν ρ → Sketch ν ρ
  | insert v => s.insert v
  | quantile φ => (s.quantile φ).2
  | toSamples => s.toSamples.2
  | sampledSum => s.sampledSum.2

/-- The sketch after several uses in turn. -/
def run (s : Sketch ν ρ) (uses : List (Use ν ρ)) : Sketch ν ρ := uses.foldl Use.apply s

/-- The values that a run inserts, in order. -/
def inserted (uses : List (Use ν ρ)) : List ν :=
  uses.filterMap fun
    | .insert v => some v
    | _ => none

theorem insert_eq (s : Sketch ν ρ) (v : ν) :
    s.insert v = if capacity ≤ (s.push v).buffer.size then (s.push v).settle else s.push v := rfl

/-! ## The moves -/

/-- The buffer may be woven in: it is full, or there are samples already. -/
def Due (s : Sketch ν ρ) : Prop := capacity ≤ s.buffer.size ∨ s.summary ≠ []

section Moves

variable {P : Sketch ν ρ → Prop} {s : Sketch ν ρ}

theorem settle_of_moves (weave : ∀ s, s.Due → P s → P s.weaveBuffer)
    (condense : ∀ s, P s → P s.condense) (due : s.Due) (h : P s) : P s.settle := by
  unfold settle
  split_ifs
  · exact h
  · exact condense _ (weave _ due h)

theorem quantile_of_settle (settle : s.Due → P s → P s.settle) (φ : ρ) (h : P s) :
    P (s.quantile φ).2 := by
  unfold quantile
  split_ifs with empty
  · exact h
  · have settled := settle (.inr fun nil => empty (List.isEmpty_iff.2 nil)) h
    dsimp only
    split <;> exact settled

theorem quantiles_of_settle (settle : ∀ s, P s → P s.settle) (φs : List ρ) (h : P s) :
    P (s.quantiles φs).2 := by
  induction φs generalizing s with
  | nil => exact h
  | cons φ rest ih => exact ih (quantile_of_settle (fun _ => settle s) φ h)

theorem toSamples_of_settle (settle : s.Due → P s → P s.settle)
    (condense : ∀ s, P s → P s.condense) (h : P s) : P s.toSamples.2 := by
  unfold toSamples
  split_ifs with empty
  · exact h
  · exact condense _ (settle (.inr fun nil => empty (List.isEmpty_iff.2 nil)) h)

end Moves

/-- What holds before any use and is kept by every move holds after every run. -/
theorem run_induction {P : List ν → Sketch ν ρ → Prop} {targets : List (Target ρ)}
    (start : P [] (empty targets))
    (push : ∀ values s v, P values s → P (values ++ [v]) (s.push v))
    (weave : ∀ values s, s.Due → P values s → P values s.weaveBuffer)
    (condense : ∀ values s, P values s → P values s.condense) (uses : List (Use ν ρ)) :
    P (inserted uses) ((empty targets).run uses) := by
  induction uses using List.reverseRecOn with
  | nil => exact start
  | append_singleton uses u ih =>
    have settle : ∀ {values s}, s.Due → P values s → P values s.settle := fun {values _} =>
      settle_of_moves (weave values) (condense values)
    rw [run, List.foldl_append, inserted, List.filterMap_append]
    cases u with
    | insert v =>
      change P (_ ++ [v]) (((empty targets).run uses).insert v)
      rw [insert_eq]
      split_ifs with full
      · exact settle (.inl full) (push _ _ _ ih)
      · exact push _ _ _ ih
    | quantile φ =>
      rw [List.filterMap_cons_none rfl, List.filterMap_nil, List.append_nil]
      exact quantile_of_settle settle φ ih
    | toSamples =>
      rw [List.filterMap_cons_none rfl, List.filterMap_nil, List.append_nil]
      exact toSamples_of_settle settle (condense _) ih
    | sampledSum =>
      rw [List.filterMap_cons_none rfl, List.filterMap_nil, List.append_nil]
      exact toSamples_of_settle settle (condense _) ih

theorem holds_run (targets : List (Target ρ)) (uses : List (Use ν ρ)) :
    Holds targets (inserted uses) ((empty targets).run uses) :=
  run_induction (P := Holds targets) ⟨rfl, rfl, le_rfl, rfl⟩ (fun _ _ v h => h.push v)
    (fun _ _ _ h => h.weaveBuffer) (fun _ _ h => h.condense) uses

/-- Samples stand for at least a full buffer of values. -/
theorem capacity_le_merged_run (targets : List (Target ρ)) (uses : List (Use ν ρ))
    (h : ((empty targets : Sketch ν ρ).run uses).summary ≠ []) :
    capacity ≤ ((empty targets : Sketch ν ρ).run uses).merged := by
  revert h
  refine run_induction (P := fun _ (s : Sketch ν ρ) => s.summary ≠ [] → capacity ≤ s.merged)
    (fun h => absurd rfl h) (fun _ _ _ h => h) ?_ ?_ uses
  · rintro - s (full | samples) h -
    · exact full.trans (Nat.le_add_left _ _)
    · exact (h samples).trans (Nat.le_add_right _ _)
  · intro _ s h samples
    refine h fun nil => samples ?_
    rw [condense, nil]
    rfl

/-! ## Counts -/

theorem count_settle (s : Sketch ν ρ) : s.settle.count = s.count := by
  unfold settle
  split_ifs <;> rfl

theorem count_insert (s : Sketch ν ρ) (v : ν) : (s.insert v).count = s.count + 1 := by
  rw [insert_eq]
  split_ifs
  · exact count_settle _
  · rfl

theorem count_insertAll (s : Sketch ν ρ) (values : List ν) :
    (s.insertAll values).count = s.count + values.length := by
  induction values generalizing s with
  | nil => rfl
  | cons v rest ih =>
    show ((s.insert v).insertAll rest).count = _
    rw [ih, count_insert, List.length_cons, Nat.add_assoc, Nat.add_comm 1]

theorem count_quantiles (s : Sketch ν ρ) (φs : List ρ) : (s.quantiles φs).2.count = s.count :=
  quantiles_of_settle (P := fun s' => s'.count = s.count) (fun s' h => (count_settle s').trans h)
    φs rfl

/-! ## Summaries -/

section Summary

variable [LawfulMeasure ν] {P : List ν → List (Sample ν) → Prop} {targets : List (Target ρ)}

/-- What holds of no values and no samples, and is kept when a number is woven in. -/
structure WeaveInvariant (P : List ν → List (Sample ν) → Prop) : Prop where
  nil : P [] []
  mem {merged samples} : P merged samples → ∀ s ∈ samples, s.value ∈ merged
  perm {merged others samples} : P merged samples → merged.Perm others → P others samples
  weaveOne {v merged samples} : P merged samples → (∀ w ∈ merged, IsNumber w) → IsNumber v →
    P (v :: merged) (Sample.weaveOne true v samples)

/-- What is also kept when samples are joined as far as the targets allow. -/
structure SummaryInvariant (targets : List (Target ρ)) (P : List ν → List (Sample ν) → Prop) :
    Prop extends WeaveInvariant P where
  condense {merged samples} : P merged samples →
    P merged (Sample.condense (fun r => tolerance targets merged.length (Precision.ofInt r))
      merged.length samples)

/-- What is kept when a number is woven in is kept when a sorted batch is. -/
theorem WeaveInvariant.weave_sorted (invariant : WeaveInvariant P) {merged batch : List ν}
    {samples : List (Sample ν)} (h : P merged samples) (numbers : ∀ w ∈ merged, IsNumber w)
    (batch_numbers : ∀ v ∈ batch, IsNumber v) :
    P (merged ++ batch) (Sample.weave true (LawfulMeasure.sorted batch) samples) := by
  have in_order := LawfulMeasure.sorted_perm batch
  refine invariant.perm (Sample.weave_induction
    (P := fun merged samples => (∀ w ∈ merged, IsNumber w) ∧ P merged samples)
    (fun v _ _ hv _ h => ⟨List.forall_mem_cons.2 ⟨hv, h.1⟩, invariant.weaveOne h.2 h.1 hv⟩)
    (fun v hv => batch_numbers v (in_order.subset hv)) (LawfulMeasure.sorted_pairwise batch)
    (fun s hs => numbers _ (invariant.mem h s hs)) ⟨numbers, h⟩).2 ?_
  exact (((List.reverse_perm _).trans in_order).append_right _).trans List.perm_append_comm

/-- An invariant holds of every summary with the values merged into it. -/
theorem SummaryInvariant.run (invariant : SummaryInvariant targets P) (uses : List (Use ν ρ))
    (numbers : ∀ v ∈ inserted uses, IsNumber v) :
    P ((inserted uses).take ((empty targets).run uses).merged)
      ((empty targets).run uses).summary := by
  have h : Holds targets (inserted uses) ((empty targets).run uses) ∧
      ((∀ v ∈ inserted uses, IsNumber v) →
        P ((inserted uses).take ((empty targets).run uses).merged)
          ((empty targets).run uses).summary) := by
    refine run_induction (P := fun values (s : Sketch ν ρ) => Holds targets values s ∧
      ((∀ v ∈ values, IsNumber v) → P (values.take s.merged) s.summary)) ?_ ?_ ?_ ?_ uses
    · exact ⟨⟨rfl, rfl, le_rfl, rfl⟩, fun _ => invariant.nil⟩
    · rintro values s v ⟨holds, ih⟩
      refine ⟨holds.push v, fun numbers => ?_⟩
      change P ((values ++ [v]).take s.merged) s.summary
      rw [List.take_append_of_le_length holds.merged_le]
      exact ih (List.forall_mem_append.1 numbers).1
    · rintro values s - ⟨holds, ih⟩
      refine ⟨holds.weaveBuffer, fun numbers => ?_⟩
      have woven : P (values.take s.merged ++ s.buffer.toList) s.weaveBuffer.summary :=
        invariant.weave_sorted (ih numbers) (fun v hv => numbers v (List.mem_of_mem_take hv))
          fun v hv => numbers v (List.mem_of_mem_drop (holds.buffer_eq ▸ hv))
      change P (values.take (s.merged + s.buffer.size)) _
      rw [holds.merged_add_size, List.take_length]
      rwa [holds.take_append_buffer] at woven
    · rintro values s ⟨holds, ih⟩
      refine ⟨holds.condense, fun numbers => ?_⟩
      have joined := invariant.condense (ih numbers)
      rw [holds.length_take, ← holds.targets_eq] at joined
      exact joined
  exact h.2 numbers

end Summary

end Telemetry.Sketch
