import Mathlib.Algebra.Order.Field.Basic
import Mathlib.Data.Rat.Floor
import Mathlib.Tactic.FieldSimp
import Mathlib.Tactic.Linarith
import Mathlib.Tactic.Ring
import Telemetry.Sketch

/-!
# Exact tolerances

With rational ranks the uncertainty that a target allows is `2 * ε` times the greater of two lines,
one through the ranks from the left and one from the right (`allowance_eq_max`). So it never shrinks
when a value is put in, be it above the rank or below, and neither does what several targets allow
together (`tolerance_le_succ`, `tolerance_le_succ_succ`).
-/

namespace Telemetry

/-! ## The least of a list -/

theorem foldl_ite_eq_foldl_min (xs : List ℚ) (low : ℚ) :
    xs.foldl (fun low y => if y < low then y else low) low = xs.foldl min low := by
  induction xs generalizing low with
  | nil => rfl
  | cons x xs ih =>
    rw [List.foldl_cons, List.foldl_cons, ih, min_comm, min_def_lt]

theorem least_cons (x : ℚ) (xs : List ℚ) : Precision.least (x :: xs) = xs.foldl min x :=
  foldl_ite_eq_foldl_min xs x

theorem foldl_min_le (xs : List ℚ) (low : ℚ) : xs.foldl min low ≤ low := by
  induction xs generalizing low with
  | nil => exact le_rfl
  | cons x xs ih => exact (ih _).trans (min_le_left _ _)

theorem foldl_min_le_of_mem {xs : List ℚ} {x : ℚ} (hx : x ∈ xs) (low : ℚ) :
    xs.foldl min low ≤ x := by
  induction xs generalizing low with
  | nil => cases hx
  | cons y xs ih =>
    rcases List.mem_cons.1 hx with rfl | hx
    · exact (foldl_min_le xs _).trans (min_le_right _ _)
    · exact ih hx _

theorem least_le_of_mem {xs : List ℚ} {x : ℚ} (hx : x ∈ xs) : Precision.least xs ≤ x := by
  cases xs with
  | nil => cases hx
  | cons y xs =>
    rw [least_cons]
    rcases List.mem_cons.1 hx with rfl | hx
    · exact foldl_min_le xs x
    · exact foldl_min_le_of_mem hx y

theorem foldl_min_map_mono {α : Type} {f g : α → ℚ} (xs : List α) (h : ∀ x ∈ xs, f x ≤ g x)
    {low high : ℚ} (hl : low ≤ high) : (xs.map f).foldl min low ≤ (xs.map g).foldl min high := by
  induction xs generalizing low high with
  | nil => exact hl
  | cons x xs ih =>
    have h := List.forall_mem_cons.1 h
    exact ih h.2 (min_le_min hl h.1)

theorem least_map_mono {α : Type} {f g : α → ℚ} (xs : List α) (h : ∀ x ∈ xs, f x ≤ g x) :
    Precision.least (xs.map f) ≤ Precision.least (xs.map g) := by
  cases xs with
  | nil => exact le_rfl
  | cons x xs =>
    have h := List.forall_mem_cons.1 h
    rw [List.map_cons, List.map_cons, least_cons, least_cons]
    exact foldl_min_map_mono xs h.2 h.1

theorem le_foldl_min {xs : List ℚ} {low x : ℚ} (hl : x ≤ low) (h : ∀ y ∈ xs, x ≤ y) :
    x ≤ xs.foldl min low := by
  induction xs generalizing low with
  | nil => exact hl
  | cons y xs ih =>
    have h := List.forall_mem_cons.1 h
    exact ih (le_min hl h.1) h.2

theorem le_least {xs : List ℚ} {x : ℚ} (hxs : xs ≠ []) (h : ∀ y ∈ xs, x ≤ y) :
    x ≤ Precision.least xs := by
  cases xs with
  | nil => exact absurd rfl hxs
  | cons y xs =>
    have h := List.forall_mem_cons.1 h
    rw [least_cons]
    exact le_foldl_min h.1 h.2

/-! ## What targets allow -/

/-- A quantile strictly between 0 and 1 with a positive error. -/
structure Target.Valid (t : Target ℚ) : Prop where
  quantile_pos : 0 < t.quantile
  quantile_lt_one : t.quantile < 1
  epsilon_pos : 0 < t.epsilon

namespace Target

variable {t : Target ℚ}

/-- What is accepted are the valid targets. -/
theorem build_eq_ok_iff {q ε : ℚ} : build q ε = .ok t ↔ t.Valid ∧ t = ⟨q, ε⟩ := by
  constructor
  · intro h
    unfold build at h
    split_ifs at h with hq hε
    obtain rfl := Except.ok.inj h
    exact ⟨⟨hq.1, hq.2, hε⟩, rfl⟩
  · rintro ⟨⟨hq, hq', hε⟩, rfl⟩
    exact (if_pos ⟨hq, hq'⟩).trans (if_pos hε)

theorem allowance_eq (t : Target ℚ) (n r : ℚ) : t.allowance n r =
    if t.quantile * n ≤ r then 2 * t.epsilon * r / t.quantile
    else 2 * t.epsilon * (n - r) / (1 - t.quantile) := rfl

theorem Valid.allowance_eq_max (ht : t.Valid) (n r : ℚ) :
    t.allowance n r = 2 * t.epsilon * max (r / t.quantile) ((n - r) / (1 - t.quantile)) := by
  have hq := ht.quantile_pos
  have hq' : 0 < 1 - t.quantile := sub_pos.2 ht.quantile_lt_one
  have cross : (n - r) / (1 - t.quantile) ≤ r / t.quantile ↔ t.quantile * n ≤ r := by
    rw [div_le_div_iff₀ hq' hq]
    constructor <;> intro h <;> nlinarith
  rw [allowance_eq]
  split_ifs with h
  · rw [max_eq_left (cross.2 h), mul_div_assoc]
  · rw [max_eq_right (le_of_not_ge fun le => h (cross.1 le)), mul_div_assoc]

/-- A further value above rank `r` costs no tolerance there. -/
theorem Valid.allowance_le_succ (ht : t.Valid) (n r : ℚ) :
    t.allowance n r ≤ t.allowance (n + 1) r := by
  have hq' : 0 < 1 - t.quantile := sub_pos.2 ht.quantile_lt_one
  rw [ht.allowance_eq_max, ht.allowance_eq_max]
  have hε := ht.epsilon_pos
  gcongr
  linarith

/-- A further value below rank `r`, which moves it up, costs no tolerance either. -/
theorem Valid.allowance_le_succ_succ (ht : t.Valid) (n r : ℚ) :
    t.allowance n r ≤ t.allowance (n + 1) (r + 1) := by
  have hq := ht.quantile_pos
  have hε := ht.epsilon_pos
  rw [ht.allowance_eq_max, ht.allowance_eq_max, add_sub_add_right_eq_sub]
  gcongr
  linarith

end Target

section Tolerance

variable {targets : List (Target ℚ)} (valid : ∀ t ∈ targets, t.Valid) (n : ℕ) (r : ℤ)

include valid

theorem tolerance_le_succ :
    tolerance targets n (Precision.ofInt r) ≤ tolerance targets (n + 1) (Precision.ofInt r) := by
  refine least_map_mono targets fun t ht => ?_
  have := (valid t ht).allowance_le_succ n r
  rwa [← Nat.cast_succ] at this

theorem tolerance_le_succ_succ :
    tolerance targets n (Precision.ofInt r) ≤
      tolerance targets (n + 1) (Precision.ofInt (r + 1)) := by
  refine least_map_mono targets fun t ht => ?_
  have := (valid t ht).allowance_le_succ_succ n r
  rwa [← Nat.cast_succ, ← Int.cast_one, ← Int.cast_add] at this

omit valid in
theorem tolerance_le_allowance {t : Target ℚ} (ht : t ∈ targets) (n : ℕ) (r : ℚ) :
    tolerance targets n r ≤ t.allowance n r :=
  least_le_of_mem (List.mem_map_of_mem ht)

omit valid in
theorem le_tolerance {x r : ℚ} {n : ℕ} (ne : targets ≠ [])
    (h : ∀ t ∈ targets, x ≤ t.allowance n r) : x ≤ tolerance targets n r := by
  refine le_least (fun nil => ne (List.map_eq_nil_iff.1 nil)) fun y hy => ?_
  obtain ⟨t, ht, rfl⟩ := List.mem_map.1 hy
  exact h t ht

end Tolerance

/-! ## Thresholds -/

theorem ceil_eq (x : ℚ) : x.ceil = ⌈x⌉ := by
  refine eq_of_forall_ge_iff fun k => ?_
  rw [Rat.ceil_le_iff, Int.ceil_le]

/-- The greatest rank that a bracket may reach to answer for the quantile `φ` of `n` values. -/
def exactThreshold (targets : List (Target ℚ)) (n : ℕ) (φ : ℚ) : ℤ :=
  ⌈φ * n⌉ + ⌈tolerance targets n ⌈φ * n⌉ / 2⌉

theorem threshold_eq {ν : Type} (s : Sketch ν ℚ) (φ : ℚ) :
    s.threshold φ = exactThreshold s.targets s.merged φ := by
  rw [exactThreshold, ← ceil_eq, ← ceil_eq, Int.cast_add]
  rfl

/-- The threshold is high enough if every target allows enough at the quantile's rank. -/
theorem le_exactThreshold {targets : List (Target ℚ)} {n : ℕ} {q ε : ℚ} (ne : targets ≠ [])
    (h : ∀ t ∈ targets, 2 * ε * n ≤ t.allowance n ⌈q * n⌉) :
    (q + ε) * n ≤ exactThreshold targets n q := by
  have allowed := le_tolerance ne h
  have rank := Int.le_ceil (q * n)
  have half := Int.le_ceil (tolerance targets n ⌈q * n⌉ / 2)
  rw [exactThreshold, Int.cast_add]
  linarith

namespace Target

variable {t : Target ℚ} {n : ℕ}

/-- At its own rank a target allows its error on either side. -/
theorem allowance_ceil (t : Target ℚ) (n : ℕ) :
    t.allowance n ⌈t.quantile * n⌉ = 2 * t.epsilon * ⌈t.quantile * n⌉ / t.quantile := by
  rw [allowance_eq, if_pos (Int.le_ceil _)]

theorem Valid.le_allowance_ceil (ht : t.Valid) (n : ℕ) :
    2 * t.epsilon * n ≤ t.allowance n ⌈t.quantile * n⌉ := by
  have hq := ht.quantile_pos
  have hε := ht.epsilon_pos
  have rank := Int.le_ceil (t.quantile * n)
  rw [allowance_ceil, le_div_iff₀ hq]
  nlinarith

/-- At a rank above its own a target allows more than its error. -/
theorem Valid.le_allowance_of_le (ht : t.Valid) {q : ℚ} (h : t.quantile ≤ q) (n : ℕ) :
    2 * t.epsilon * n ≤ t.allowance n ⌈q * n⌉ := by
  have hq := ht.quantile_pos
  have hε := ht.epsilon_pos
  have rank : t.quantile * n ≤ ⌈q * n⌉ :=
    (mul_le_mul_of_nonneg_right h n.cast_nonneg).trans (Int.le_ceil _)
  rw [allowance_eq, if_pos rank, le_div_iff₀ hq]
  nlinarith

/-- So it does at a rank below. -/
theorem Valid.le_allowance_of_add_one_le (ht : t.Valid) {q : ℚ} {n : ℕ}
    (h : q * n + 1 ≤ t.quantile * n) : 2 * t.epsilon * n ≤ t.allowance n ⌈q * n⌉ := by
  have hq' : 0 < 1 - t.quantile := sub_pos.2 ht.quantile_lt_one
  have hε := ht.epsilon_pos
  have rank := Int.ceil_lt_add_one (q * n)
  rw [allowance_eq, if_neg (by linarith), le_div_iff₀ hq']
  nlinarith

/-- The threshold for a target's quantile is at most what the target itself asks for. -/
theorem exactThreshold_le {targets : List (Target ℚ)} (hmem : t ∈ targets) (n : ℕ) :
    exactThreshold targets n t.quantile ≤
      ⌈t.quantile * n⌉ + ⌈t.epsilon * ⌈t.quantile * n⌉ / t.quantile⌉ := by
  have own := tolerance_le_allowance hmem n ⌈t.quantile * n⌉
  rw [allowance_ceil] at own
  have half : tolerance targets n ⌈t.quantile * n⌉ / 2 ≤
      t.epsilon * ⌈t.quantile * n⌉ / t.quantile := by
    rw [mul_assoc, mul_div_assoc] at own
    linarith
  exact add_le_add_right (Int.ceil_le_ceil half) _

/-- For a quantile `a / b` the threshold is off by at most one rank if the error is small. -/
theorem Valid.exactThreshold_le_of_fraction {targets : List (Target ℚ)} (ht : t.Valid)
    (hmem : t ∈ targets) (n : ℕ) {a b : ℕ} (hb : 0 < b) (fraction : t.quantile * b = a)
    (small : (b - 1) * (t.quantile + t.epsilon) ≤ a) :
    exactThreshold targets n t.quantile ≤ ⌈(t.quantile + t.epsilon) * n⌉ + 1 := by
  have hq := ht.quantile_pos
  have hε := ht.epsilon_pos
  have hb' : (0 : ℚ) < b := Nat.cast_pos.2 hb
  refine (exactThreshold_le hmem n).trans ?_
  generalize rank_eq : ⌈t.quantile * n⌉ = rank
  have rank_lt : (rank : ℚ) < t.quantile * n + 1 := rank_eq ▸ Int.ceil_lt_add_one _
  -- the rank is at most `1 - 1 / b` above the quantile's share of `n`
  have rank_le : b * rank ≤ a * n + b - 1 := by
    have lt : (b * rank : ℤ) < a * n + b := by
      have : (b * rank : ℚ) < a * n + b := by nlinarith
      exact_mod_cast this
    omega
  have rank_le : (b * rank : ℚ) ≤ a * n + b - 1 := by exact_mod_cast rank_le
  rw [← Int.ceil_intCast_add, ← Int.ceil_add_one]
  refine Int.ceil_le_ceil ?_
  have scaled : b * (rank * (t.quantile + t.epsilon)) ≤
      b * (((t.quantile + t.epsilon) * n + 1) * t.quantile) := by
    have := mul_le_mul_of_nonneg_right rank_le (add_pos hq hε).le
    have right : b * (((t.quantile + t.epsilon) * n + 1) * t.quantile) =
        ((t.quantile + t.epsilon) * n + 1) * a := by
      rw [← fraction]
      ring
    rw [right]
    linarith
  have split : (rank : ℚ) + t.epsilon * rank / t.quantile =
      rank * (t.quantile + t.epsilon) / t.quantile := by
    field_simp
  rw [split, div_le_iff₀ hq]
  exact le_of_mul_le_mul_left scaled hb'

end Target

end Telemetry
