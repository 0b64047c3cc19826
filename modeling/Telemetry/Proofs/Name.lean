import Mathlib.Computability.Language
import Telemetry.Name

/-!
# Names as patterns

The texts that may name a metric or a label are those of a regular expression each. Here the two
expressions are written out as languages over characters (`metricNames`, `labelNames`). The checks
of names accept just the texts in them (`isMetricName_iff`, `isLabelName_iff`), where a label name
must not be reserved besides. What is qualified in one way stays apart (`qualify_inj`).
-/

namespace Telemetry.Name

open Computability

/-! ## Classes of characters -/

/-- The class `[a-zA-Z]`. -/
def IsLetter (c : Char) : Prop := ('a' ≤ c ∧ c ≤ 'z') ∨ ('A' ≤ c ∧ c ≤ 'Z')

/-- The class `[0-9]`. -/
def IsDigit (c : Char) : Prop := '0' ≤ c ∧ c ≤ '9'

theorem isAlpha_iff (c : Char) : c.isAlpha = true ↔ IsLetter c := by
  have upper : c.isUpper = true ↔ 'A' ≤ c ∧ c ≤ 'Z' := decide_eq_true_iff
  have lower : c.isLower = true ↔ 'a' ≤ c ∧ c ≤ 'z' := by
    change (decide ('a' ≤ c) && decide (c ≤ 'z')) = true ↔ _
    rw [Bool.and_eq_true, decide_eq_true_iff, decide_eq_true_iff]
  change (c.isUpper || c.isLower) = true ↔ _
  rw [Bool.or_eq_true, upper, lower]
  exact or_comm

theorem isDigit_iff (c : Char) : c.isDigit = true ↔ IsDigit c := by
  rw [Char.isDigit, Bool.and_eq_true, decide_eq_true_iff, decide_eq_true_iff]
  rfl

theorem isAlphanum_iff (c : Char) : c.isAlphanum = true ↔ IsLetter c ∨ IsDigit c := by
  rw [Char.isAlphanum, Bool.or_eq_true, isAlpha_iff, isDigit_iff]

/-! ## Languages -/

/-- The texts of one character of a class. -/
def oneOf (p : Char → Prop) : Language Char := {w | ∃ c, p c ∧ w = [c]}

/-- The language `[a-zA-Z_:][a-zA-Z0-9_:]*`. -/
def metricNames : Language Char :=
  oneOf (fun c => IsLetter c ∨ c = '_' ∨ c = ':') *
    (oneOf fun c => (IsLetter c ∨ IsDigit c) ∨ c = '_' ∨ c = ':')∗

/-- The language `[a-zA-Z_][a-zA-Z0-9_]*`. -/
def labelNames : Language Char :=
  oneOf (fun c => IsLetter c ∨ c = '_') * (oneOf fun c => (IsLetter c ∨ IsDigit c) ∨ c = '_')∗

section Languages

variable {p q : Char → Prop} {w : List Char}

theorem mem_kstar_oneOf : w ∈ (oneOf p)∗ ↔ ∀ c ∈ w, p c := by
  rw [Language.mem_kstar]
  constructor
  · rintro ⟨words, rfl, single⟩ c hc
    obtain ⟨word, hword, hc⟩ := List.mem_flatten.1 hc
    obtain ⟨d, hd, rfl⟩ := single word hword
    rwa [List.mem_singleton.1 hc]
  · intro all
    refine ⟨w.map fun c => [c], (List.flatMap_singleton' w).symm, fun word hword => ?_⟩
    obtain ⟨c, hc, rfl⟩ := List.mem_map.1 hword
    exact ⟨c, all c hc, rfl⟩

theorem mem_oneOf_mul_kstar :
    w ∈ oneOf p * (oneOf q)∗ ↔ ∃ c rest, w = c :: rest ∧ p c ∧ ∀ d ∈ rest, q d := by
  rw [Language.mem_mul]
  constructor
  · rintro ⟨_, ⟨c, hc, rfl⟩, rest, hrest, rfl⟩
    exact ⟨c, rest, rfl, hc, mem_kstar_oneOf.1 hrest⟩
  · rintro ⟨c, rest, rfl, hc, hrest⟩
    exact ⟨[c], ⟨c, hc, rfl⟩, rest, mem_kstar_oneOf.2 hrest, rfl⟩

end Languages

theorem isMetricName_iff (name : String) : IsMetricName name ↔ name.toList ∈ metricNames := by
  rw [metricNames, mem_oneOf_mul_kstar, IsMetricName]
  simp only [isAlpha_iff, isAlphanum_iff]
  split <;> simp_all

theorem isLabelName_iff (name : String) :
    IsLabelName name ↔ name.toList ∈ labelNames ∧ ¬['_', '_'] <+: name.toList := by
  rw [labelNames, mem_oneOf_mul_kstar, IsLabelName]
  simp only [isAlpha_iff, isAlphanum_iff]
  split <;> simp_all [and_assoc]

/-! ## Qualified names -/

/-- What stands in front of a name in its qualified form. -/
def qualifier (scope subsystem : String) : String :=
  (if scope.isEmpty then "" else scope ++ "_") ++ subsystem ++ "_"

section Qualify

variable {scope subsystem a b : String} (hs : subsystem.isEmpty = false)

include hs

theorem qualify_eq (ha : a.isEmpty = false) :
    qualify scope subsystem a = qualifier scope subsystem ++ a := by
  rw [qualify, if_neg (by rw [ha]; exact Bool.false_ne_true), qualifier]
  by_cases none : scope.isEmpty = true
  · have parts : [scope, subsystem, a].filter (fun part => !part.isEmpty) = [subsystem, a] := by
      simp [none, ha, hs]
    rw [parts, if_pos none, String.empty_append]
    rfl
  · have parts : [scope, subsystem, a].filter (fun part => !part.isEmpty) =
        [scope, subsystem, a] := by
      simp [none, ha, hs]
    rw [parts, if_neg none]
    rfl

theorem qualify_inj (ha : a.isEmpty = false) (hb : b.isEmpty = false) :
    qualify scope subsystem a = qualify scope subsystem b ↔ a = b := by
  rw [qualify_eq hs ha, qualify_eq hs hb, String.append_right_inj]

end Qualify

end Telemetry.Name
