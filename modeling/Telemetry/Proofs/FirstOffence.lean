import Mathlib.Order.Bounds.Basic
import Telemetry.Proofs.Scope

/-!
# The first offence

Label names are looked at in one pass that remembers the names it met. What it reports can be said
of the list alone: a position offends if its name is no label name or came before, and the pass
reports the least position that does (`labelOffence_eq_some_iff`). Hence a descriptor can be built
from all that is legal, with everything in its place, and what is refused is refused for its first
offence (`Descriptor.build_ok_or_first_offence`).
-/

namespace Telemetry

open Name

/-! ## Positions that offend -/

/-- The name at a position is no label name or came before, in `seen` or earlier in the list. -/
def OffendsAt (seen names : List String) (i : ℕ) : Prop :=
  ∃ l, names[i]? = some l ∧ (¬IsLabelName l ∨ l ∈ seen ++ names.take i)

/-- What is wrong with a name that offends. -/
def offenceOf (l : String) : MetricError :=
  if IsLabelName l then .duplicateLabelName l else .invalidLabelName l

/-- The error tells what is wrong at the first position that offends. -/
def IsFirstOffence (seen names : List String) (e : MetricError) : Prop :=
  ∃ i l, IsLeast {i | OffendsAt seen names i} i ∧ names[i]? = some l ∧ e = offenceOf l

section Pass

variable {seen names rest : List String} {name l : String} {e : MetricError} {i : ℕ}

theorem offendsAt_zero : OffendsAt seen (name :: rest) 0 ↔ ¬IsLabelName name ∨ name ∈ seen := by
  simp [OffendsAt]

/-- A name that was met counts as seen for all that follow. -/
theorem offendsAt_succ :
    OffendsAt seen (name :: rest) (i + 1) ↔ OffendsAt (name :: seen) rest i := by
  simp only [OffendsAt, List.getElem?_cons_succ, List.take_succ_cons, List.mem_append,
    List.mem_cons]
  refine exists_congr fun l => and_congr_right fun _ => or_congr_right ?_
  rw [or_left_comm, or_assoc]

theorem isFirstOffence_of_offendsAt_zero (h : OffendsAt seen (name :: rest) 0) :
    IsFirstOffence seen (name :: rest) e ↔ e = offenceOf name := by
  have least : IsLeast {i | OffendsAt seen (name :: rest) i} 0 := ⟨h, fun i _ => Nat.zero_le i⟩
  constructor
  · rintro ⟨i, l, first, hl, rfl⟩
    obtain rfl := first.unique least
    rw [List.getElem?_cons_zero] at hl
    rw [Option.some.inj hl]
  · rintro rfl
    exact ⟨0, name, least, rfl, rfl⟩

/-- Behind a position that does not offend, the first offence is that of the rest. -/
theorem isFirstOffence_cons (h : ¬OffendsAt seen (name :: rest) 0) :
    IsFirstOffence seen (name :: rest) e ↔ IsFirstOffence (name :: seen) rest e := by
  constructor
  · rintro ⟨i, l, ⟨offends, least⟩, hl, he⟩
    cases i with
    | zero => exact absurd offends h
    | succ i =>
      refine ⟨i, l, ⟨offendsAt_succ.1 offends, fun j hj => ?_⟩, hl, he⟩
      exact Nat.le_of_succ_le_succ (least (offendsAt_succ.2 hj))
  · rintro ⟨i, l, ⟨offends, least⟩, hl, he⟩
    refine ⟨i + 1, l, ⟨offendsAt_succ.2 offends, fun j hj => ?_⟩, hl, he⟩
    cases j with
    | zero => exact absurd hj h
    | succ j => exact Nat.succ_le_succ (least (offendsAt_succ.1 hj))

/-- The pass over label names reports their first offence. -/
theorem labelOffence_eq_some_iff :
    labelOffence seen names = some e ↔ IsFirstOffence seen names e := by
  induction names generalizing seen with
  | nil => simp [labelOffence, IsFirstOffence]
  | cons name rest ih =>
    unfold labelOffence
    split_ifs with legal old
    · rw [isFirstOffence_of_offendsAt_zero (offendsAt_zero.2 (.inr old)), offenceOf, if_pos legal,
        Option.some_inj, eq_comm]
    · rw [ih, isFirstOffence_cons fun offends => (offendsAt_zero.1 offends).elim (· legal) old]
    · rw [isFirstOffence_of_offendsAt_zero (offendsAt_zero.2 (.inl legal)), offenceOf,
        if_neg legal, Option.some_inj, eq_comm]

example : labelOffence [] ["zone", "a b", "zone"] = some (.invalidLabelName "a b") := by decide

/-- Where some position offends there is a first one, and otherwise nothing to report. -/
theorem labelOffence_eq_none_iff_forall :
    labelOffence seen names = none ↔ ∀ i, ¬OffendsAt seen names i := by
  constructor
  · intro nothing i offends
    classical
    obtain ⟨l, hl, -⟩ := Nat.find_spec ⟨i, offends⟩
    have first : IsFirstOffence seen names (offenceOf l) :=
      ⟨_, l, ⟨Nat.find_spec ⟨i, offends⟩, fun j hj => Nat.find_min' _ hj⟩, hl, rfl⟩
    rw [← labelOffence_eq_some_iff, nothing] at first
    cases first
  · intro legal
    rw [Option.eq_none_iff_forall_ne_some]
    intro e reported
    obtain ⟨i, l, first, -⟩ := labelOffence_eq_some_iff.1 reported
    exact legal i first.1

/-- Only which names were seen matters, not in what order. -/
theorem labelOffence_congr {seen' : List String} (same : ∀ l, l ∈ seen ↔ l ∈ seen') :
    labelOffence seen names = labelOffence seen' names := by
  induction names generalizing seen seen' with
  | nil => rfl
  | cons name rest ih =>
    have met : ∀ l, l ∈ name :: seen ↔ l ∈ name :: seen' := by simp [same]
    simp only [labelOffence, same, ih met]

/-- Legal names in front are as good as seen. -/
theorem labelOffence_append {front : List String} (legal : labelOffence seen front = none)
    (back : List String) :
    labelOffence seen (front ++ back) = labelOffence (front ++ seen) back := by
  induction front generalizing seen with
  | nil => rfl
  | cons name rest ih =>
    unfold labelOffence at legal
    split_ifs at legal with isLabel old
    rw [List.cons_append, labelOffence, if_neg (not_not.2 isLabel), if_neg old, ih legal]
    exact labelOffence_congr fun l => by simp [or_left_comm]

end Pass

/-! ## Descriptors -/

namespace Descriptor

/-- Descriptors are built from just what is legal, a metric name and label names that are all
different, and then with every part as it was given. Of what is not legal, the metric name is
refused if it is none, and otherwise the label name at the first position that offends. -/
theorem build_ok_or_first_offence (name help : String) (variableLabels : List String)
    (constLabels : List (String × String)) :
    let labels := constLabels.map Prod.fst ++ variableLabels
    ((∃ d, build name help variableLabels constLabels = .ok d) ↔
        IsMetricName name ∧ (∀ l ∈ labels, IsLabelName l) ∧ labels.Nodup) ∧
      (∀ d, build name help variableLabels constLabels = .ok d ↔
        d.name = name ∧ d.help = help ∧ d.variableLabels = variableLabels ∧
          d.constLabels = constLabels) ∧
      ∀ e, build name help variableLabels constLabels = .error e ↔
        ¬IsMetricName name ∧ e = .invalidMetricName name ∨
          IsMetricName name ∧ ∃ i l,
            IsLeast {i | ∃ l, labels[i]? = some l ∧ (¬IsLabelName l ∨ l ∈ labels.take i)} i ∧
              labels[i]? = some l ∧
              e = if IsLabelName l then .duplicateLabelName l else .invalidLabelName l := by
  intro labels
  refine ⟨?_, fun d => build_eq_ok_iff, fun e => ?_⟩
  · rw [exists_build_iff, labelOffence_eq_none_iff]
    simp only [List.not_mem_nil, not_false_eq_true, implies_true, and_true]
    rfl
  · rw [build_eq_error_iff, labelOffence_eq_some_iff]
    rfl

end Descriptor

end Telemetry
