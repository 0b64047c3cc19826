import Mathlib.Data.List.Chain
import Telemetry.Sketch.Sample

/-!
# The ranks of samples

A list of samples puts every value between two ranks, the least and the greatest that the widths
and deltas before it leave. These brackets, not the samples, are what the passes over a list keep:
joining samples drops brackets and changes none of the others (`brackets_condense_sublist`).
-/

namespace Telemetry

/-- A value and the ranks between which it lies. -/
structure Bracket (ν : Type) where
  value : ν
  low : ℕ
  high : ℤ

namespace Bracket

/-- The bracket after `k` values were put below it. -/
def shift {ν : Type} (k : ℕ) (b : Bracket ν) : Bracket ν := ⟨b.value, b.low + k, b.high + k⟩

end Bracket

namespace Sample

variable {ν ρ : Type}

/-- How many values the samples stand for. -/
def totalWidth : List (Sample ν) → ℕ
  | [] => 0
  | s :: rest => s.width + totalWidth rest

/-- The brackets of samples that follow `before` values. -/
def brackets (before : ℕ) : List (Sample ν) → List (Bracket ν)
  | [] => []
  | s :: rest => ⟨s.value, before + s.width, before + s.span⟩ :: brackets (before + s.width) rest

/-! ## Lists of brackets -/

section Brackets

variable {before : ℕ} {s c x : Sample ν} {b : Bracket ν} {xs ys : List (Sample ν)}

@[simp]
theorem totalWidth_nil : totalWidth ([] : List (Sample ν)) = 0 := rfl

@[simp]
theorem totalWidth_cons : totalWidth (s :: xs) = s.width + totalWidth xs := rfl

@[simp]
theorem totalWidth_append : totalWidth (xs ++ ys) = totalWidth xs + totalWidth ys := by
  induction xs with
  | nil => simp
  | cons s xs ih => rw [List.cons_append, totalWidth_cons, totalWidth_cons, ih, Nat.add_assoc]

theorem totalWidth_exact (values : List ν) : totalWidth (values.map exact) = values.length := by
  induction values with
  | nil => rfl
  | cons v values ih =>
    rw [List.map_cons, totalWidth_cons, ih, List.length_cons, Nat.add_comm]
    rfl

@[simp]
theorem brackets_nil : brackets before ([] : List (Sample ν)) = [] := rfl

@[simp]
theorem brackets_cons : brackets before (s :: xs) =
    ⟨s.value, before + s.width, before + s.span⟩ :: brackets (before + s.width) xs := rfl

theorem brackets_append (before : ℕ) (xs ys : List (Sample ν)) :
    brackets before (xs ++ ys) = brackets before xs ++ brackets (before + totalWidth xs) ys := by
  induction xs generalizing before with
  | nil => rfl
  | cons s xs ih => simp only [List.cons_append, brackets_cons, ih, totalWidth_cons, Nat.add_assoc]

theorem brackets_add (before k : ℕ) (xs : List (Sample ν)) :
    brackets (before + k) xs = (brackets before xs).map (Bracket.shift k) := by
  induction xs generalizing before with
  | nil => rfl
  | cons s xs ih =>
    rw [brackets_cons, brackets_cons, List.map_cons, Nat.add_right_comm, ih, Bracket.shift]
    congr 2
    push_cast
    omega

theorem map_value_brackets (before : ℕ) (xs : List (Sample ν)) :
    (brackets before xs).map Bracket.value = xs.map value := by
  induction xs generalizing before with
  | nil => rfl
  | cons s xs ih => rw [brackets_cons, List.map_cons, ih, List.map_cons]

theorem exists_bracket (before : ℕ) (hs : s ∈ xs) :
    ∃ b ∈ brackets before xs, b.value = s.value := by
  have : s.value ∈ (brackets before xs).map Bracket.value := by
    rw [map_value_brackets]
    exact List.mem_map_of_mem hs
  exact List.mem_map.1 this

theorem exists_sample (hb : b ∈ brackets before xs) :
    ∃ s ∈ xs, s.value = b.value := by
  have : b.value ∈ xs.map Sample.value := by
    rw [← map_value_brackets before]
    exact List.mem_map_of_mem hb
  exact List.mem_map.1 this

/-- The last bracket reaches up to the number of values. -/
theorem last_mem_brackets (before : ℕ) (xs : List (Sample ν)) (s : Sample ν) :
    ⟨s.value, before + totalWidth (xs ++ [s]), (before + totalWidth xs : ℕ) + s.span⟩ ∈
      brackets before (xs ++ [s]) := by
  rw [brackets_append, totalWidth_append, ← Nat.add_assoc]
  exact List.mem_append_right _ List.mem_cons_self

/-- The bracket of the sample at a position. -/
theorem mem_brackets_of_getElem? {i : ℕ} (before : ℕ) (h : xs[i]? = some s) :
    ⟨s.value, before + totalWidth (xs.take (i + 1)),
      (before + totalWidth (xs.take i) : ℕ) + s.span⟩ ∈ brackets before xs := by
  obtain ⟨hi, rfl⟩ := List.getElem?_eq_some_iff.1 h
  have last := last_mem_brackets before (xs.take i) xs[i]
  rw [← List.take_succ_eq_append_getElem hi] at last
  have split := brackets_append before (xs.take (i + 1)) (xs.drop (i + 1))
  rw [List.take_append_drop] at split
  rw [split]
  exact List.mem_append_left _ last

theorem low_of_mem_getLast? (hb : b ∈ (brackets before xs).getLast?) :
    b.low = before + totalWidth xs := by
  rcases xs.eq_nil_or_concat' with rfl | ⟨init, s, rfl⟩
  · cases hb
  · rw [brackets_append, brackets_cons, brackets_nil, List.getLast?_concat] at hb
    obtain rfl := Option.some.inj hb
    simp [Nat.add_assoc]

theorem low_of_brackets_eq_concat {init : List (Bracket ν)}
    (split : brackets before xs = init ++ [b]) : b.low = before + totalWidth xs :=
  low_of_mem_getLast? (split ▸ List.getLast?_concat)

theorem before_lt_low (pos : ∀ s ∈ xs, 1 ≤ s.width) (hb : b ∈ brackets before xs) :
    before < b.low := by
  induction xs generalizing before with
  | nil => cases hb
  | cons s xs ih =>
    have pos := List.forall_mem_cons.1 pos
    rcases List.mem_cons.1 hb with rfl | hb
    · exact Nat.lt_add_of_pos_right pos.1
    · exact (Nat.le_add_right _ _).trans_lt (ih pos.2 hb)

/-- A sample that absorbs its left neighbour keeps its bracket. -/
theorem brackets_absorb :
    brackets before ({ x with width := x.width + c.width } :: xs) =
      brackets (before + c.width) (x :: xs) := by
  have low : before + (x.width + c.width) = before + c.width + x.width := by omega
  have high : (before : ℤ) + span { x with width := x.width + c.width } =
      (before + c.width : ℕ) + x.span := by
    simp only [span]
    push_cast
    omega
  rw [brackets_cons, brackets_cons]
  dsimp only
  rw [low, high]

end Brackets

/-! ## Joining samples -/

section Condense

variable [Precision ρ] {limit : ℤ → ρ} {m : ℤ} {before : ℕ} {xs : List (Sample ν)}

theorem rank_foldr_take (limit : ℤ → ρ) (m : ℤ) (xs : List (Sample ν)) :
    (xs.foldr (Folding.take limit) ⟨m, []⟩).rank = m - totalWidth xs := by
  induction xs with
  | nil => simp
  | cons c xs ih =>
    simp only [List.foldr_cons, Folding.take, ih, totalWidth_cons]
    push_cast
    omega

/-- What holds of joined samples if it holds of none and is kept by each way to take in the next
sample to the left, `c`. -/
theorem kept_induction {P : List (Sample ν) → List (Sample ν) → Prop} (nil : P [] [])
    (first : ∀ c xs, P xs [] → P (c :: xs) [c])
    (absorb : ∀ c xs x kept, P xs (x :: kept) → Fits limit (m - totalWidth xs) c x →
      P (c :: xs) ({ x with width := x.width + c.width } :: kept))
    (keep : ∀ c xs x kept, P xs (x :: kept) → ¬Fits limit (m - totalWidth xs) c x →
      P (c :: xs) (c :: x :: kept)) :
    P xs (xs.foldr (Folding.take limit) ⟨m, []⟩).kept := by
  induction xs with
  | nil => exact nil
  | cons c xs ih =>
    have rank := rank_foldr_take limit m xs
    rw [List.foldr_cons, Folding.take]
    dsimp only
    split
    · rename_i empty
      rw [empty] at ih
      exact first c xs ih
    · rename_i x kept eq
      rw [eq] at ih
      rw [rank]
      split_ifs with fits
      · exact absorb c xs x kept ih fits
      · exact keep c xs x kept ih fits

/-- Joining samples drops brackets and changes none of the others. -/
theorem brackets_kept_sublist :
    (brackets before (xs.foldr (Folding.take limit) ⟨m, []⟩).kept).Sublist
      (brackets before xs) := by
  suffices h : ∀ before, (brackets before (xs.foldr (Folding.take limit) ⟨m, []⟩).kept).Sublist
      (brackets before xs) from h before
  refine kept_induction (P := fun xs kept => ∀ before,
    (brackets before kept).Sublist (brackets before xs)) ?_ ?_ ?_ ?_
  · exact fun _ => List.Sublist.refl _
  · intro c xs _ before
    rw [brackets_cons, brackets_cons, brackets_nil]
    exact (List.nil_sublist _).cons_cons _
  · intro c xs x kept ih _ before
    rw [brackets_absorb, brackets_cons]
    exact (ih _).cons _
  · intro c xs x kept ih _ before
    rw [brackets_cons, brackets_cons (s := c)]
    exact (ih _).cons_cons _

theorem totalWidth_kept :
    totalWidth (xs.foldr (Folding.take limit) ⟨m, []⟩).kept = totalWidth xs := by
  refine kept_induction (P := fun xs kept => totalWidth kept = totalWidth xs) rfl ?_ ?_ ?_
  · intro c xs ih
    rw [totalWidth_cons, totalWidth_cons, ← ih]
  · intro c xs x kept ih _
    rw [totalWidth_cons] at ih ⊢
    rw [totalWidth_cons, ← ih]
    dsimp only
    omega
  · intro c xs x kept ih _
    rw [totalWidth_cons, ih, totalWidth_cons]

theorem width_pos_kept (h : ∀ s ∈ xs, 1 ≤ s.width) :
    ∀ s ∈ (xs.foldr (Folding.take limit) ⟨m, []⟩).kept, 1 ≤ s.width := by
  revert h
  refine kept_induction
    (P := fun xs kept => (∀ s ∈ xs, 1 ≤ s.width) → ∀ s ∈ kept, 1 ≤ s.width) ?_ ?_ ?_ ?_
  · exact id
  · intro c xs _ h
    exact List.forall_mem_cons.2 ⟨h c List.mem_cons_self, by simp⟩
  · intro c xs x kept ih _ h
    have rest := List.forall_mem_cons.1 (ih fun s hs => h s (List.mem_cons_of_mem _ hs))
    exact List.forall_mem_cons.2 ⟨Nat.le_add_right_of_le rest.1, rest.2⟩
  · intro c xs x kept ih _ h
    exact List.forall_mem_cons.2
      ⟨h c List.mem_cons_self, ih fun s hs => h s (List.mem_cons_of_mem _ hs)⟩

/-- A relation between neighbours survives joining if it holds across every sample that is
absorbed. -/
theorem isChain_kept {R : Bracket ν → Bracket ν → Prop} {p : Bracket ν}
    (join : ∀ (p c x : Bracket ν),
      Precision.ofInt (x.high - p.low) ≤ limit (c.low - 1) → R p c → R c x → R p x)
    (total : m = (before + totalWidth xs : ℕ) - 1) (hp : p.low = before)
    (h : (p :: brackets before xs).IsChain R) :
    (p :: brackets before (xs.foldr (Folding.take limit) ⟨m, []⟩).kept).IsChain R := by
  revert p before
  refine kept_induction (P := fun xs kept => ∀ {before : ℕ} {p : Bracket ν},
    m = (before + totalWidth xs : ℕ) - 1 → p.low = before → (p :: brackets before xs).IsChain R →
      (p :: brackets before kept).IsChain R) ?_ ?_ ?_ ?_
  · intro _ _ _ _ h
    exact h
  · intro c xs _ before p _ _ h
    rw [brackets_cons, List.isChain_cons_cons] at h
    rw [brackets_cons, brackets_nil]
    exact List.isChain_pair.2 h.1
  · intro c xs x kept ih fits before p total hp h
    rw [brackets_cons, List.isChain_cons_cons] at h
    have rest := ih (by rw [total, totalWidth_cons, Nat.add_assoc]) rfl h.2
    rw [brackets_absorb]
    rw [brackets_cons, List.isChain_cons_cons] at rest ⊢
    refine ⟨join p _ _ ?_ h.1 rest.1, rest.2⟩
    rw [Fits, total, totalWidth_cons] at fits
    convert fits using 2
    · dsimp only
      omega
    · dsimp only
      omega
  · intro c xs x kept ih _ before p total _ h
    rw [brackets_cons, List.isChain_cons_cons] at h
    have rest := ih (by rw [total, totalWidth_cons, Nat.add_assoc]) rfl h.2
    rw [brackets_cons]
    exact List.isChain_cons_cons.2 ⟨h.1, rest⟩

/-! ## Condensed lists -/

variable {merged : ℕ}

theorem brackets_condense_sublist (limit : ℤ → ρ) (merged : ℕ) (xs : List (Sample ν)) :
    (brackets 0 (condense limit merged xs)).Sublist (brackets 0 xs) := by
  cases xs with
  | nil => exact List.Sublist.refl _
  | cons s rest => exact brackets_kept_sublist.cons_cons _

theorem condense_eq_nil_iff : condense limit merged xs = [] ↔ xs = [] := by
  cases xs with
  | nil => rfl
  | cons s rest => simp [condense]

theorem totalWidth_condense : totalWidth (condense limit merged xs) = totalWidth xs := by
  cases xs with
  | nil => rfl
  | cons s rest => rw [condense, totalWidth_cons, totalWidth_kept, totalWidth_cons]

theorem width_pos_condense (h : ∀ s ∈ xs, 1 ≤ s.width) :
    ∀ s ∈ condense limit merged xs, 1 ≤ s.width := by
  cases xs with
  | nil => exact h
  | cons s rest =>
    have h := List.forall_mem_cons.1 h
    exact List.forall_mem_cons.2 ⟨h.1, width_pos_kept h.2⟩

theorem head?_condense (limit : ℤ → ρ) (merged : ℕ) (xs : List (Sample ν)) :
    (condense limit merged xs).head? = xs.head? := by
  cases xs <;> rfl

theorem map_value_condense_sublist (limit : ℤ → ρ) (merged : ℕ) (xs : List (Sample ν)) :
    ((condense limit merged xs).map value).Sublist (xs.map value) := by
  rw [← map_value_brackets 0, ← map_value_brackets 0]
  exact (brackets_condense_sublist limit merged xs).map _

theorem isChain_condense {R : Bracket ν → Bracket ν → Prop}
    (join : ∀ (p c x : Bracket ν),
      Precision.ofInt (x.high - p.low) ≤ limit (c.low - 1) → R p c → R c x → R p x)
    (total : totalWidth xs = merged) (h : (brackets 0 xs).IsChain R) :
    (brackets 0 (condense limit merged xs)).IsChain R := by
  cases xs with
  | nil => exact h
  | cons s rest =>
    refine isChain_kept join ?_ rfl h
    rw [← total, totalWidth_cons, Nat.zero_add]

end Condense

end Sample

end Telemetry
