import Telemetry.Proofs.Sketch.Reads
import Telemetry.Proofs.Sketch.Slots

/-!
# Joining from the right

Slots are joined in one pass from right to left: the next one to the left is taken in by the slot
kept last if both together fit at its rank, and is kept itself otherwise (`greedy`). The rank is
known from the slots before, and nothing is counted down.

What is kept are slots of before, wider ones among them, that stand for as many values. The left one
of two neighbours may have grown after they were compared, but a slot that has become wider does not
fit any better, so that nothing fits any more (`joined_greedy`). The samples of a sketch are
condensed by such a pass (`Sketch.condense_eq_greedy`).
-/

namespace Telemetry

variable {ν δ ρ : Type}

namespace Slot

/-! ## The pass -/

/-- How many values slots stand for. -/
def total : List (Slot ν ℕ δ) → ℕ
  | [] => 0
  | s :: rest => s.width + total rest

/-- A slot that stands for `w` more values. -/
def widen (w : ℕ) (s : Slot ν ℕ δ) : Slot ν ℕ δ := { s with width := s.width + w }

section Pass

variable (fits : ℤ → Slot ν ℕ δ → Slot ν ℕ δ → Bool)

/-- Puts a slot in front of those kept so far, unless the first of them takes it in. -/
def join (rank : ℤ) (c : Slot ν ℕ δ) : List (Slot ν ℕ δ) → List (Slot ν ℕ δ)
  | [] => [c]
  | x :: kept => if fits rank c x = true then widen c.width x :: kept else c :: x :: kept

/-- Joins slots that follow `before` values. The rank at which a slot has to fit is one less than
the number of values up to it. -/
def groups (before : ℕ) : List (Slot ν ℕ δ) → List (Slot ν ℕ δ)
  | [] => []
  | c :: rest => join fits ((before + c.width : ℕ) - 1) c (groups (before + c.width) rest)

/-- Joins slots, but for the first one. -/
def greedy : List (Slot ν ℕ δ) → List (Slot ν ℕ δ)
  | [] => []
  | s :: rest => s :: groups fits s.width rest

/-- Slots that are joined as far as possible: values and deltas are some of those before, the first
slot is the same, as many values are stood for, and no slot behind the first fits together with its
right neighbour. -/
structure Joined (slots kept : List (Slot ν ℕ δ)) : Prop where
  sublist : (kept.map fun s => (s.value, s.delta)).Sublist (slots.map fun s => (s.value, s.delta))
  head_eq : kept.head? = slots.head?
  total_eq : total kept = total slots
  apart : ∀ front c x back, front ≠ [] → kept = front ++ c :: x :: back →
    fits ((total (front ++ [c]) : ℕ) - 1) c x = false

end Pass

/-! ## What is kept -/

theorem total_append (xs ys : List (Slot ν ℕ δ)) : total (xs ++ ys) = total xs + total ys := by
  induction xs with
  | nil => exact (Nat.zero_add _).symm
  | cons s xs ih => rw [List.cons_append, total, total, ih, Nat.add_assoc]

section Kept

variable (fits : ℤ → Slot ν ℕ δ → Slot ν ℕ δ → Bool)

theorem total_join (rank : ℤ) (c : Slot ν ℕ δ) (kept : List (Slot ν ℕ δ)) :
    total (join fits rank c kept) = c.width + total kept := by
  cases kept with
  | nil => rfl
  | cons x kept =>
    rw [join]
    split_ifs
    · rw [total, total, widen]
      dsimp only
      omega
    · rfl

theorem total_groups (before : ℕ) (slots : List (Slot ν ℕ δ)) :
    total (groups fits before slots) = total slots := by
  induction slots generalizing before with
  | nil => rfl
  | cons c rest ih => rw [groups, total_join, ih, total]

theorem sublist_groups (before : ℕ) (slots : List (Slot ν ℕ δ)) :
    ((groups fits before slots).map fun s => (s.value, s.delta)).Sublist
      (slots.map fun s => (s.value, s.delta)) := by
  induction slots generalizing before with
  | nil => exact .slnil
  | cons c rest ih =>
    have rest_sublist := ih (before + c.width)
    rw [groups]
    cases eq : groups fits (before + c.width) rest with
    | nil => exact (List.nil_sublist _).cons_cons _
    | cons x kept =>
      rw [eq] at rest_sublist
      rw [join]
      split_ifs
      · exact rest_sublist.cons _
      · exact rest_sublist.cons_cons _

/-- No slot fits together with its right neighbour, after `before` values. -/
def Apart (before : ℕ) : List (Slot ν ℕ δ) → Prop
  | c :: x :: rest =>
    fits ((before + c.width : ℕ) - 1) c x = false ∧ Apart (before + c.width) (x :: rest)
  | _ => True

variable {fits} {before : ℕ} {slots : List (Slot ν ℕ δ)} {c x : Slot ν ℕ δ}

theorem Apart.not_fits {front back : List (Slot ν ℕ δ)}
    (h : Apart fits before (front ++ c :: x :: back)) :
    fits ((before + total (front ++ [c]) : ℕ) - 1) c x = false := by
  induction front generalizing before with
  | nil => exact h.1
  | cons s front ih =>
    rw [List.cons_append, total, ← Nat.add_assoc]
    cases front with
    | nil => exact h.2.1
    | cons t front => exact ih h.2

/-- Nothing that was kept fits, provided that a wider slot does not fit any better. -/
theorem apart_groups {n : ℕ} (before : ℕ)
    (narrow : ∀ rank c w x, c.width + w + x.width ≤ n → fits rank (widen w c) x = true →
      fits rank c x = true) (few : total slots ≤ n) :
    Apart fits before (groups fits before slots) := by
  induction slots generalizing before with
  | nil => trivial
  | cons c rest ih =>
    rw [total] at few
    have apart := ih (before + c.width) (by omega)
    have total_rest := total_groups fits (before + c.width) rest
    rw [groups]
    cases eq : groups fits (before + c.width) rest with
    | nil => trivial
    | cons x kept =>
      rw [eq] at apart total_rest
      rw [join]
      split_ifs with fitting
      · cases kept with
        | nil => trivial
        | cons y kept =>
          -- the rank between `x` and `y` is the same as when they were compared
          have rank : before + (widen c.width x).width = before + c.width + x.width := by
            rw [widen]
            dsimp only
            omega
          rw [total, total] at total_rest
          rw [Apart, rank]
          refine ⟨Bool.eq_false_iff.2 fun wide => Bool.eq_false_iff.1 apart.1 ?_, apart.2⟩
          exact narrow _ _ _ _ (by omega) wide
      · exact ⟨Bool.eq_false_iff.2 fitting, apart⟩

/-- The pass joins as far as possible, provided that a wider slot does not fit any better. -/
theorem joined_greedy
    (narrow : ∀ rank c w x, c.width + w + x.width ≤ total slots →
      fits rank (widen w c) x = true → fits rank c x = true) :
    Joined fits slots (greedy fits slots) := by
  cases slots with
  | nil => exact ⟨.slnil, rfl, rfl, fun front c x back _ eq => by simp [greedy] at eq⟩
  | cons s rest =>
    refine ⟨(sublist_groups ..).cons_cons _, rfl, congrArg (s.width + ·) (total_groups ..), ?_⟩
    intro front c x back nonempty eq
    obtain ⟨t, front, rfl⟩ := List.exists_cons_of_ne_nil nonempty
    rw [greedy, List.cons_append, List.cons.injEq] at eq
    obtain ⟨rfl, rest_eq⟩ := eq
    have apart := apart_groups s.width narrow (Nat.le_add_left _ _)
    rw [rest_eq] at apart
    exact apart.not_fits

end Kept

/-! ## Samples -/

section Samples

variable [Precision ρ] {limit : ℤ → ρ}

/-- Whether two slots with integers for deltas stay together within the limit at a rank. -/
def withinWhole (limit : ℤ → ρ) (rank : ℤ) (c x : Slot ν ℕ ℤ) : Bool :=
  decide (Precision.ofInt (c.width + (x.width + x.delta)) ≤ limit rank)

theorem withinWhole_of_widen [LawfulPrecision ρ] {rank : ℤ} {c x : Slot ν ℕ ℤ} {w : ℕ}
    (h : withinWhole limit rank (widen w c) x = true) : withinWhole limit rank c x = true := by
  refine decide_eq_true (LawfulPrecision.ofInt_le_of_le ?_ (of_decide_eq_true h))
  rw [widen]
  dsimp only
  omega

end Samples

end Slot

namespace Sample

open Slot (greedy groups join withinWhole)

/-- The slot of a sample as it is. -/
def slot (s : Sample ν) : Slot ν ℕ ℤ := ⟨s.value, s.width, s.delta⟩

theorem total_map_slot (samples : List (Sample ν)) :
    Slot.total (samples.map slot) = totalWidth samples := by
  induction samples with
  | nil => rfl
  | cons s rest ih => rw [List.map_cons, Slot.total, ih, totalWidth, slot]

variable [Precision ρ] {limit : ℤ → ρ}

/-- The rank that is counted down is the rank that is counted up to, if the widths add up. -/
theorem map_slot_kept {m : ℤ} {samples : List (Sample ν)} (before : ℕ)
    (h : m = (before + totalWidth samples : ℕ) - 1) :
    (samples.foldr (Folding.take limit) ⟨m, []⟩).kept.map slot =
      groups (withinWhole limit) before (samples.map slot) := by
  induction samples generalizing before with
  | nil => rfl
  | cons c rest ih =>
    rw [totalWidth_cons] at h
    have rank : (rest.foldr (Folding.take limit) ⟨m, []⟩).rank = (before + c.width : ℕ) - 1 := by
      rw [rank_foldr_take]
      omega
    have kept := ih (before + c.width) (by rw [h, Nat.add_assoc])
    rw [List.map_cons, groups]
    change _ = join _ _ _ (groups _ (before + c.width) _)
    rw [← kept, List.foldr_cons, Folding.take, rank]
    dsimp only
    cases (rest.foldr (Folding.take limit) ⟨m, []⟩).kept with
    | nil => rfl
    | cons x kept =>
      rw [List.map_cons, join]
      by_cases fits : Fits limit ((before + c.width : ℕ) - 1) c x
      · exact (congrArg (List.map slot) (if_pos fits)).trans (if_pos (decide_eq_true fits)).symm
      · exact (congrArg (List.map slot) (if_neg fits)).trans
          (if_neg (mt of_decide_eq_true fits)).symm

/-- Samples that stand for all merged values are condensed by the pass. -/
theorem map_slot_condense (limit : ℤ → ρ) {merged : ℕ} {samples : List (Sample ν)}
    (h : totalWidth samples = merged) :
    (condense limit merged samples).map slot = greedy (withinWhole limit) (samples.map slot) := by
  cases samples with
  | nil => rfl
  | cons s rest =>
    rw [totalWidth_cons] at h
    rw [condense, List.map_cons, List.map_cons, greedy]
    exact congrArg _ (map_slot_kept s.width (by rw [h]))

end Sample

namespace Sketch

open Slot (greedy withinWhole Joined)

variable [Precision ρ]

/-- The samples of a sketch that stand for all merged values are joined as far as possible. -/
theorem condense_eq_greedy [LawfulPrecision ρ] (s : Sketch ν ρ)
    (weighed : Sample.totalWidth s.summary = s.merged) :
    s.condense.summary.map Sample.slot =
        greedy (withinWhole (s.limit ∘ Precision.ofInt)) (s.summary.map Sample.slot) ∧
      Joined (withinWhole (s.limit ∘ Precision.ofInt)) (s.summary.map Sample.slot)
        (s.condense.summary.map Sample.slot) := by
  have condensed : s.condense.summary.map Sample.slot =
      greedy (withinWhole (s.limit ∘ Precision.ofInt)) (s.summary.map Sample.slot) :=
    Sample.map_slot_condense _ weighed
  refine ⟨condensed, ?_⟩
  rw [condensed]
  exact Slot.joined_greedy fun _ _ _ _ _ => Slot.withinWhole_of_widen

end Sketch

end Telemetry
