import Telemetry.Proofs.Rounding
import Telemetry.Proofs.Sketch.Batch

/-!
# The least and the greatest value

Faithful samples begin with the least merged value, which is a sample of its own, and end with the
greatest (`Faithful.least_of_head`, `Faithful.greatest_of_getLast`). There the ranks leave no room:
fewer values than one are below the first sample's, and as many as there are do not exceed the last
one's. So neither is ever lost, however the samples between them are joined (`extremes_run`).
-/

namespace Telemetry

open LawfulMeasure

variable {ν ρ : Type} [Measure ν] [LawfulMeasure ν]

namespace LawfulMeasure

variable {values : List ν} {v : ν}

/-- A value that no other is less than. -/
theorem place_le_of_below_eq_zero (h : below values v = 0) :
    ∀ w ∈ values, place v ≤ place w := by
  intro w hw
  have not_less := List.countP_eq_zero.1 h w hw
  rw [decide_eq_true_eq] at not_less
  exact not_lt.1 not_less

/-- A value that no other exceeds. -/
theorem place_le_of_length_le_atMost (h : values.length ≤ atMost values v) :
    ∀ w ∈ values, place w ≤ place v := by
  intro w hw
  have all := List.countP_eq_length.1 ((atMost_le_length values v).antisymm h)
  exact of_decide_eq_true (all w hw)

end LawfulMeasure

namespace Sample

variable {merged : List ν} {samples : List (Sample ν)} {s : Sample ν}

theorem Faithful.least_of_head (h : Faithful merged samples) (hs : s ∈ samples.head?) :
    ∀ v ∈ merged, place s.value ≤ place v := by
  cases samples with
  | nil => cases hs
  | cons first rest =>
    obtain rfl : first = s := Option.some.inj hs
    obtain ⟨width, delta⟩ := h.head first rfl
    have below_lt := (h.sound _ List.mem_cons_self).below_lt_high
    simp only [span, width, delta] at below_lt
    exact place_le_of_below_eq_zero (by omega)

/-- What is known of the ranks of the last sample: nothing is above it, and its delta is 0. -/
theorem Faithful.greatest_of_getLast (h : Faithful merged samples) (hs : s ∈ samples.getLast?) :
    s.delta = 0 ∧ ∀ v ∈ merged, place v ≤ place s.value := by
  rcases samples.eq_nil_or_concat' with rfl | ⟨init, last, rfl⟩
  · cases hs
  · rw [List.getLast?_concat] at hs
    obtain rfl := Option.some.inj hs
    have sound := h.sound _ (last_mem_brackets 0 init last)
    have total := h.total
    have low := sound.low_le_atMost
    have order := sound.low_le_high
    have high := sound.high_le
    rw [Nat.zero_add, total] at low
    simp only [totalWidth_append, totalWidth_cons, totalWidth_nil, span] at total order high
    exact ⟨by omega, place_le_of_length_le_atMost low⟩

end Sample

namespace Sketch

variable [Precision ρ]

/-- After any run over numbers, whatever the targets are, the first sample is the least merged value
with its exact rank, and the last one is the greatest. Every answer for a quantile, if there are
values, is one of them. -/
theorem extremes_run (targets : List (Target ρ)) (uses : List (Use Float ρ))
    (numbers : ∀ v ∈ inserted uses, v.isNaN = false) :
    let s := (empty targets).run uses
    let merged := (inserted uses).take s.merged
    merged ++ s.buffer.toList = inserted uses ∧
      (∀ x ∈ s.summary.head?,
        x.width = 1 ∧ x.delta = 0 ∧ x.value ∈ merged ∧ ∀ v ∈ merged, x.value ≤ v) ∧
      (∀ x ∈ s.summary.getLast?, x.delta = 0 ∧ x.value ∈ merged ∧ ∀ v ∈ merged, v ≤ x.value) ∧
      (inserted uses ≠ [] → ∀ φ, (s.quantile φ).1 ∈ inserted uses) := by
  intro s merged
  have faithful : Sample.Faithful merged s.summary := faithful_run targets uses numbers
  have number : ∀ v ∈ merged, v.isNaN = false := fun v hv => numbers v (List.mem_of_mem_take hv)
  have le_of_place_le : ∀ v ∈ merged, ∀ w ∈ merged, place v ≤ place w → v ≤ w := by
    intro v hv w hw le
    rw [Binary64.le_iff_place_le (number v hv) (number w hw)]
    exact Int.cast_le.1 le
  refine ⟨(holds_run targets uses).take_append_buffer, fun x hx => ?_, fun x hx => ?_,
    fun filled φ => quantile_mem numbers φ filled⟩
  · obtain ⟨width, delta⟩ := faithful.head x hx
    have mem := faithful.mem x (List.mem_of_mem_head? hx)
    exact ⟨width, delta, mem,
      fun v hv => le_of_place_le _ mem v hv (faithful.least_of_head hx v hv)⟩
  · obtain ⟨delta, greatest⟩ := faithful.greatest_of_getLast hx
    have mem := faithful.mem x (List.mem_of_getLast? hx)
    exact ⟨delta, mem, fun v hv => le_of_place_le v hv _ mem (greatest v hv)⟩

/-- A batch in descending order: each value is less than all before it. -/
def descent : List Float := (List.range capacity).map fun i => Float.ofNat (capacity - i)

theorem isNaN_of_mem_descent {ρ : Type} :
    ∀ v ∈ inserted (insertions descent : List (Use Float ρ)), v.isNaN = false := by
  intro v hv
  rw [inserted_insertions] at hv
  obtain ⟨i, -, rfl⟩ := List.mem_map.1 hv
  exact Binary64.isNaN_ofNat _

/-- A batch in descending order leaves samples, of which the first and the last are known. -/
theorem extremes_run_descent :
    let uses : List (Use Float Float) := insertions descent
    let s := (empty Target.standard).run uses
    (∀ v ∈ inserted uses, v.isNaN = false) ∧
      (∃ x ∈ s.summary.head?,
        x.width = 1 ∧ x.delta = 0 ∧ ∀ v ∈ (inserted uses).take s.merged, x.value ≤ v) ∧
      ∃ x ∈ s.summary.getLast?, x.delta = 0 ∧ ∀ v ∈ (inserted uses).take s.merged, v ≤ x.value := by
  intro uses s
  have numbers : ∀ v ∈ inserted uses, v.isNaN = false := isNaN_of_mem_descent
  have samples : s.summary ≠ [] := by
    have filled : capacity ≤ descent.length := by rw [descent, List.length_map, List.length_range]
    have run_eq : s = (empty Target.standard).insertAll descent := run_insertions _ _
    rw [run_eq]
    exact summary_insertAll_ne_nil _ filled
  obtain ⟨-, first, last, -⟩ := extremes_run Target.standard uses numbers
  refine ⟨numbers, ⟨_, List.head?_eq_some_head samples, ?_⟩,
    ⟨_, List.getLast?_eq_some_getLast samples, ?_⟩⟩
  · obtain ⟨width, delta, -, least⟩ := first _ (List.head?_eq_some_head samples)
    exact ⟨width, delta, least⟩
  · obtain ⟨delta, -, greatest⟩ := last _ (List.getLast?_eq_some_getLast samples)
    exact ⟨delta, greatest⟩

end Sketch

end Telemetry
