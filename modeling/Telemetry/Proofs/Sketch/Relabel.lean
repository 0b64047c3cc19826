import Telemetry.Proofs.Measure
import Telemetry.Proofs.Sketch.Bracket

/-!
# Samples of other values

Joining samples and searching them looks at widths and deltas only. So both can be done on any
stand-ins for the values, and the values put in afterwards.
-/

namespace Telemetry

variable {α β ρ : Type}

/-- What is taken and dropped from the start depends on the outcomes of the test only. -/
theorem takeWhile_dropWhile_map_of_eq {f : α → β} {p : β → Bool} {q : α → Bool} {values : List α}
    (h : ∀ v ∈ values, p (f v) = q v) :
    (values.map f).takeWhile p = (values.takeWhile q).map f ∧
      (values.map f).dropWhile p = (values.dropWhile q).map f := by
  induction values with
  | nil => exact ⟨rfl, rfl⟩
  | cons v values ih =>
    have h := List.forall_mem_cons.1 h
    rw [List.map_cons, List.takeWhile_cons, List.dropWhile_cons, List.takeWhile_cons,
      List.dropWhile_cons, h.1]
    cases q v with
    | false => exact ⟨rfl, rfl⟩
    | true => exact ⟨congrArg _ (ih h.2).1, (ih h.2).2⟩

/-- The bracket of another value. -/
def Bracket.map (f : α → β) (b : Bracket α) : Bracket β := ⟨f b.value, b.low, b.high⟩

namespace Sample

/-- The sample of another value. -/
def map (f : α → β) (s : Sample α) : Sample β := ⟨f s.value, s.width, s.delta⟩

theorem brackets_map (f : α → β) (before : ℕ) (samples : List (Sample α)) :
    brackets before (samples.map (map f)) = (brackets before samples).map (Bracket.map f) := by
  induction samples generalizing before with
  | nil => rfl
  | cons s samples ih =>
    rw [List.map_cons, brackets_cons, brackets_cons, List.map_cons, ← ih]
    rfl

theorem totalWidth_map (f : α → β) (samples : List (Sample α)) :
    totalWidth (samples.map (map f)) = totalWidth samples := by
  induction samples with
  | nil => rfl
  | cons s samples ih =>
    rw [List.map_cons, totalWidth_cons, totalWidth_cons, ih]
    rfl

variable [Precision ρ]

theorem foldr_take_map (f : α → β) (limit : ℤ → ρ) (m : ℤ) (samples : List (Sample α)) :
    (samples.map (map f)).foldr (Folding.take limit) ⟨m, []⟩ =
      ⟨(samples.foldr (Folding.take limit) ⟨m, []⟩).rank,
        (samples.foldr (Folding.take limit) ⟨m, []⟩).kept.map (map f)⟩ := by
  induction samples with
  | nil => rfl
  | cons c samples ih =>
    rw [List.map_cons, List.foldr_cons, List.foldr_cons, ih]
    cases kept : (samples.foldr (Folding.take limit) ⟨m, []⟩).kept with
    | nil =>
      simp only [Folding.take, kept]
      rfl
    | cons x rest =>
      simp only [Folding.take, kept, List.map_cons]
      by_cases fits : Fits limit (samples.foldr (Folding.take limit) ⟨m, []⟩).rank c x
      · rw [if_pos fits, if_pos (show Fits limit _ (map f c) (map f x) from fits)]
        rfl
      · rw [if_neg fits, if_neg (show ¬Fits limit _ (map f c) (map f x) from fits)]
        rfl

theorem condense_map (f : α → β) (limit : ℤ → ρ) (merged : ℕ) (samples : List (Sample α)) :
    condense limit merged (samples.map (map f)) = (condense limit merged samples).map (map f) := by
  cases samples with
  | nil => rfl
  | cons s rest =>
    rw [List.map_cons, condense, foldr_take_map]
    rfl

theorem seek_map (f : α → β) (threshold : ρ) (before : ℕ) (held : Sample α)
    (rest : List (Sample α)) :
    seek threshold before (map f held) (rest.map (map f)) =
      f (seek threshold before held rest) := by
  induction rest generalizing before held with
  | nil => rfl
  | cons s rest ih =>
    rw [List.map_cons, seek, seek, ih]
    exact (apply_ite f _ _ _).symm

end Sample

namespace LawfulMeasure

/-- Values that are in order already are left so. -/
theorem sorted_map [Measure β] {f : α → β} {values : List α}
    (ascending : values.Pairwise fun v w => Measure.sortLe (f v) (f w) = true) :
    sorted (values.map f) = values.map f :=
  List.mergeSort_of_pairwise (List.pairwise_map.2 ascending)

end LawfulMeasure

end Telemetry
