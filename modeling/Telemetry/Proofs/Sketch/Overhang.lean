import Telemetry.Proofs.Sketch.Single

/-!
# Samples that reach far

A value in front of a greater sample takes over the sample's greatest rank. Once that sample is
joined with everything behind, the value still reaches as far as before, and nothing else ends near
there. Such an overhang stays while greater values come in (`Overhang.insertAll`), and thresholds
from its greatest rank on are answered with it or above (`Overhang.find`).
-/

namespace Telemetry

open LawfulMeasure

variable {ν : Type}

namespace Sample

/-! ## Joining on either side -/

section Fold

variable {limit : ℤ → ℚ} {m : ℤ} {samples : List (Sample ν)}

/-- Samples of one value become one if all of them fit together. -/
theorem foldr_take_all {v : ν} (ne : samples ≠ [])
    (same : ∀ s ∈ samples, s.value = v ∧ s.delta = 0)
    (fits : ∀ r, m - totalWidth samples.tail ≤ r → (totalWidth samples : ℚ) ≤ limit r) :
    samples.foldr (Folding.take limit) ⟨m, []⟩ =
      ⟨m - totalWidth samples, [⟨v, totalWidth samples, 0⟩]⟩ := by
  induction samples with
  | nil => exact absurd rfl ne
  | cons c samples ih =>
    have same := List.forall_mem_cons.1 same
    cases samples with
    | nil =>
      rw [List.foldr_cons, List.foldr_nil, Folding.take, totalWidth_cons, totalWidth_nil,
        Nat.add_zero, ← same.1.1, ← same.1.2]
    | cons d samples =>
      have le : (totalWidth (d :: samples) : ℚ) ≤ totalWidth (c :: d :: samples) := by
        rw [totalWidth_cons]
        exact_mod_cast Nat.le_add_left _ _
      rw [List.foldr_cons, ih (List.cons_ne_nil _ _) same.2 fun r hr => le.trans (fits r ?_)]
      · have fit : Fits limit (m - totalWidth (d :: samples)) c
            ⟨v, totalWidth (d :: samples), 0⟩ := by
          have fit := fits (m - totalWidth (d :: samples)) le_rfl
          rw [totalWidth_cons (s := c)] at fit
          rw [Fits, span, add_zero, ← Nat.cast_add]
          exact fit
        rw [Folding.take]
        dsimp only
        rw [if_pos fit, totalWidth_cons (s := c), Nat.cast_add, sub_sub, Nat.add_comm,
          add_comm (c.width : ℤ)]
      · refine le_trans ?_ hr
        rw [List.tail_cons, List.tail_cons, totalWidth_cons]
        push_cast
        omega

/-- Samples on the left are joined with each other, and the last of them perhaps with the next. -/
theorem foldr_take_onto (limit : ℤ → ℚ) (samples : List (Sample ν)) {f : Folding ν} {x : Sample ν}
    {kept : List (Sample ν)} (hf : f.kept = x :: kept) :
    ∃ left w, (samples.foldr (Folding.take limit) f).kept =
        left ++ { x with width := x.width + w } :: kept ∧
      totalWidth left + w = totalWidth samples ∧
      ∀ before, (brackets before left).Sublist (brackets before samples) := by
  induction samples with
  | nil => exact ⟨[], 0, hf, rfl, fun _ => List.Sublist.refl _⟩
  | cons c samples ih =>
    obtain ⟨left, w, eq, total, sub⟩ := ih
    rw [List.foldr_cons, Folding.take]
    dsimp only
    rw [eq, totalWidth_cons]
    cases left with
    | nil =>
      rw [totalWidth_nil, Nat.zero_add] at total
      dsimp only [List.nil_append]
      split_ifs
      · refine ⟨[], w + c.width, ?_, by rw [total, totalWidth_nil, Nat.zero_add, Nat.add_comm],
          fun _ => List.nil_sublist _⟩
        rw [List.nil_append, Nat.add_assoc]
      · exact ⟨[c], w, rfl, by rw [totalWidth_cons, totalWidth_nil, total, Nat.add_zero],
          fun before => (List.nil_sublist _).cons_cons _⟩
    | cons l left =>
      rw [totalWidth_cons] at total
      dsimp only [List.cons_append]
      split_ifs
      · refine ⟨{ l with width := l.width + c.width } :: left, w, rfl, ?_, fun before => ?_⟩
        · rw [totalWidth_cons, ← total]
          dsimp only
          omega
        · rw [brackets_absorb]
          exact (sub _).cons _
      · refine ⟨c :: l :: left, w, rfl, ?_, fun before => (sub _).cons_cons _⟩
        rw [totalWidth_cons, totalWidth_cons, ← total]
        omega

end Fold

/-! ## Equal samples -/

theorem totalWidth_replicate (k : ℕ) (v : ν) (d : ℤ) :
    totalWidth (List.replicate k (⟨v, 1, d⟩ : Sample ν)) = k := by
  induction k with
  | zero => rfl
  | succ k ih => rw [List.replicate_succ, totalWidth_cons, ih, Nat.add_comm]

theorem high_le_of_mem_replicate {before k : ℕ} {v : ν} {d : ℤ} :
    ∀ c ∈ brackets before (List.replicate k ⟨v, 1, d⟩), c.value = v ∧ c.high ≤ before + k + d := by
  induction k generalizing before with
  | zero => simp
  | succ k ih =>
    rw [List.replicate_succ, brackets_cons]
    refine List.forall_mem_cons.2 ⟨⟨rfl, ?_⟩, fun c hc => ?_⟩
    · simp only [span]
      push_cast
      omega
    · have c := ih c hc
      push_cast at c ⊢
      exact ⟨c.1, by omega⟩

end Sample

namespace Sketch

open Sample

/-! ## Room -/

/-- So many values that those behind are joined, and none with those far before. -/
structure Roomy (t : Target ℚ) (n : ℕ) : Prop where
  fits : ∀ r : ℤ, (n : ℤ) - 501 ≤ r → (n : ℚ) ≤ t.allowance n r
  apart : ∀ r : ℤ, -1 ≤ r → r ≤ 1000 → t.allowance n r < n - 1000

theorem exists_roomy {t : Target ℚ} (ht : t.Valid) (hq : t.quantile ≤ t.epsilon)
    (short : t.quantile + 2 * t.epsilon < 1) : ∃ N, ∀ n ≥ N, Roomy t n := by
  have hε := ht.epsilon_pos
  have hq' : 0 < 1 - t.quantile := sub_pos.2 ht.quantile_lt_one
  have slack : 0 < 1 - t.quantile - 2 * t.epsilon := by linarith
  obtain ⟨N, hN⟩ := exists_nat_gt (max (1002 + 2000 * t.epsilon / t.quantile)
    ((1000 * (1 - t.quantile) + 2 * t.epsilon) / (1 - t.quantile - 2 * t.epsilon)))
  obtain ⟨left, right⟩ := max_lt_iff.1 hN
  rw [div_lt_iff₀ slack] at right
  refine ⟨N, fun n hn => ⟨fun r hr => ?_, fun r hr hr' => ?_⟩⟩
  · have hn : (N : ℚ) ≤ n := Nat.cast_le.2 hn
    have hr : (n : ℚ) - 501 ≤ r := by exact_mod_cast hr
    have ratio : 0 < 2000 * t.epsilon / t.quantile :=
      div_pos (mul_pos (by norm_num) hε) ht.quantile_pos
    refine le_trans ?_ (ht.mul_le_allowance n r)
    rw [← mul_div_assoc, le_div_iff₀ ht.quantile_pos]
    nlinarith [ht.quantile_pos]
  · have hn : (N : ℚ) ≤ n := Nat.cast_le.2 hn
    have hr : (-1 : ℚ) ≤ r := by exact_mod_cast hr
    have hr' : (r : ℚ) ≤ 1000 := by exact_mod_cast hr'
    have scaled : 2000 * t.epsilon < (n - 1002) * t.quantile := by
      rw [← div_lt_iff₀ ht.quantile_pos]
      linarith
    rw [ht.allowance_eq_max, mul_max_of_nonneg _ _ (by positivity), max_lt_iff, ← mul_div_assoc,
      ← mul_div_assoc, div_lt_iff₀ ht.quantile_pos, div_lt_iff₀ hq']
    exact ⟨by nlinarith [ht.quantile_pos], by nlinarith⟩

/-! ## An overhang -/

/-- Behind smaller values that reach up to rank `h` at most comes a sample that does, from a low
rank on. -/
structure Reach (h : ℕ) (pre : List (Sample Float)) (b : Sample Float) : Prop where
  ne_nil : pre ≠ []
  zero : ∀ c ∈ brackets 0 pre, c.value = 0 ∧ c.high ≤ h
  value_eq : b.value = 0.5
  low_le : totalWidth pre + b.width ≤ 1000
  high_eq : totalWidth pre + b.span = h

/-- The samples of `n` values: a sample that reaches up to rank `h`, and behind it only one. -/
def Overhang (h n : ℕ) (samples : List (Sample Float)) : Prop :=
  ∃ pre b w, samples = pre ++ [b, ⟨1, w, 0⟩] ∧ totalWidth samples = n ∧ Reach h pre b

section Overhang

variable {t : Target ℚ} {h n w j : ℕ} {pre samples : List (Sample Float)} {b : Sample Float}

/-- With room, ones become a sample of their own behind the one before. -/
theorem Roomy.foldr_take (roomy : Roomy t n) (b : Sample Float) (hj : j ≤ 500) (le : w + j ≤ n)
    (far : n ≤ w + j + 1000) :
    ((b :: ⟨1, w, 0⟩ :: List.replicate j ⟨1, 1, 0⟩).foldr
      (Folding.take fun r => t.allowance n r) ⟨(n : ℤ) - 1, []⟩).kept = [b, ⟨1, w + j, 0⟩] := by
  have fits : ∀ r : ℤ, (n : ℤ) - 501 ≤ r → (n : ℚ) ≤ (fun r : ℤ => t.allowance n r) r := roomy.fits
  have apart : ∀ r : ℤ, -1 ≤ r → r ≤ 1000 → (fun r : ℤ => t.allowance n r) r < n - 1000 :=
    roomy.apart
  generalize (fun r : ℤ => t.allowance n r) = limit at *
  have ones : (⟨1, w, 0⟩ :: List.replicate j ⟨1, 1, 0⟩ : List (Sample Float)).foldr
      (Folding.take limit) ⟨(n : ℤ) - 1, []⟩ = ⟨(n : ℤ) - 1 - (w + j : ℕ), [⟨1, w + j, 0⟩]⟩ := by
    rw [foldr_take_all (v := 1) (List.cons_ne_nil _ _) ?_ fun r hr => ?_, totalWidth_cons,
      totalWidth_replicate]
    · refine List.forall_mem_cons.2 ⟨⟨rfl, rfl⟩, fun s hs => ?_⟩
      rw [List.eq_of_mem_replicate hs]
      exact ⟨rfl, rfl⟩
    · rw [List.tail_cons, totalWidth_replicate] at hr
      rw [totalWidth_cons, totalWidth_replicate]
      exact (Nat.cast_le.2 le).trans (fits r (by omega))
  have stays : ¬Fits limit ((n : ℤ) - 1 - (w + j : ℕ)) b ⟨1, w + j, 0⟩ := by
    have far' := apart ((n : ℤ) - 1 - (w + j : ℕ)) (by omega) (by omega)
    have wide : (n : ℤ) - 1000 ≤ b.width + ((w + j : ℕ) + 0) := by omega
    have wide : (n : ℚ) - 1000 ≤ ((b.width + ((w + j : ℕ) + 0) : ℤ) : ℚ) := by exact_mod_cast wide
    exact fun fit => (far'.trans_le wide).not_ge fit
  rw [List.foldr_cons, ones, Folding.take]
  dsimp only
  rw [if_neg stays]

theorem Reach.condense (reach : Reach h pre b)
    (total : totalWidth (pre ++ b :: ⟨1, w, 0⟩ :: List.replicate j ⟨1, 1, 0⟩) = n) (hj : j ≤ 500)
    (roomy : Roomy t n) :
    Overhang h n (Sample.condense (fun r => t.allowance n r) n
      (pre ++ b :: ⟨1, w, 0⟩ :: List.replicate j ⟨1, 1, 0⟩)) := by
  obtain ⟨first, pre, rfl⟩ := List.exists_cons_of_ne_nil reach.ne_nil
  have low := reach.low_le
  simp only [totalWidth_append, totalWidth_cons, totalWidth_replicate] at total low
  have onto := roomy.foldr_take (w := w) b hj (by omega) (by omega)
  generalize (fun r : ℤ => t.allowance n r) = limit at *
  obtain ⟨left, k, kept, widths, sub⟩ := foldr_take_onto limit pre onto
  have condensed : Sample.condense limit n
      (first :: pre ++ b :: ⟨1, w, 0⟩ :: List.replicate j ⟨1, 1, 0⟩) =
        (first :: left) ++ [{ b with width := b.width + k }, ⟨1, w + j, 0⟩] := by
    rw [List.cons_append, Sample.condense, List.foldr_append, kept]
    rfl
  refine ⟨_, _, _, condensed, ?_, List.cons_ne_nil _ _, ?_, reach.value_eq, ?_, ?_⟩
  · rw [totalWidth_condense]
    simp only [totalWidth_append, totalWidth_cons, totalWidth_replicate]
    omega
  · intro c hc
    refine reach.zero c (List.Sublist.subset ?_ hc)
    exact (sub _).cons_cons _
  · rw [totalWidth_cons]
    dsimp only
    omega
  · have high := reach.high_eq
    simp only [totalWidth_cons, span] at high ⊢
    omega

/-- Further ones leave the overhang as it is. -/
theorem Overhang.mergeBatch (o : Overhang h n samples) (hj : j ≤ capacity)
    (roomy : Roomy t (n + j)) :
    Overhang h (n + j) (mergeBatch [t] (n, samples) (List.replicate j 1)).2 := by
  obtain ⟨pre, b, w, rfl, total, reach⟩ := o
  have in_order : sorted (List.replicate j (1 : Float)) = List.replicate j 1 :=
    List.mergeSort_of_pairwise (List.pairwise_replicate.2 (.inr (by decide +kernel)))
  have one_not_less : ¬(1 : Float) < 1 := by decide +kernel
  have not_less : ∀ s ∈ pre ++ [b, ⟨1, w, 0⟩], ∀ v ∈ List.replicate j (1 : Float),
      ¬v < s.value := by
    intro s hs v hv
    rw [List.eq_of_mem_replicate hv]
    rcases List.mem_append.1 hs with hs | hs
    · obtain ⟨c, hc, value⟩ := exists_bracket 0 hs
      rw [← value, (reach.zero c hc).1]
      decide +kernel
    · rcases List.mem_pair.1 hs with rfl | rfl
      · rw [reach.value_eq]
        decide +kernel
      · exact one_not_less
  rw [Sketch.mergeBatch]
  dsimp only
  rw [in_order, List.length_replicate, weave_eq_append not_less, List.map_replicate,
    List.append_assoc, List.cons_append, List.singleton_append]
  refine reach.condense ?_ hj roomy
  simp only [totalWidth_append, totalWidth_cons, totalWidth_nil] at total
  simp only [totalWidth_append, totalWidth_cons, totalWidth_replicate]
  omega

theorem Overhang.insertAll (o : Overhang h n samples) {s : Sketch Float ℚ}
    (state : At [t] (n, samples) [] s) (roomy : ∀ n' ≥ n, Roomy t n') (j : ℕ) :
    ∃ samples', At [t] (n + j, samples') [] (s.insertAll (List.replicate j 1)).settle ∧
      Overhang h (n + j) samples' := by
  induction j using Nat.strong_induction_on generalizing n samples s with
  | _ j ih =>
    rcases Nat.lt_or_ge j capacity with lt | ge
    · have room : (List.replicate j (1 : Float)).length < capacity := by
        rwa [List.length_replicate]
      have wait := state.insertAll room
      cases j with
      | zero => exact ⟨samples, wait.settle_nil, o⟩
      | succ j =>
        have stays := o.mergeBatch lt.le (roomy (n + (j + 1)) (Nat.le_add_right _ _))
        have merged := wait.settle (List.cons_ne_nil _ _)
        rw [mergeBatch_eq, List.length_replicate] at merged
        exact ⟨_, merged, stays⟩
    · obtain ⟨i, rfl⟩ := Nat.exists_eq_add_of_le ge
      have stays := o.mergeBatch le_rfl (roomy (n + capacity) (Nat.le_add_right _ _))
      have merged := state.insertAll_full (List.length_replicate (a := (1 : Float)))
      rw [mergeBatch_eq, List.length_replicate] at merged
      rw [List.replicate_add, Sketch.insertAll, List.foldl_append, ← Nat.add_assoc]
      refine ih i ?_ stays merged fun n' hn => roomy n' ((Nat.le_add_right _ _).trans hn)
      exact Nat.lt_add_of_pos_left (by decide)

/-- A threshold that an overhang does not exceed is answered with the overhang, or above. -/
theorem Overhang.find (o : Overhang h n samples) {targets : List (Target ℚ)} {φ : ℚ} {v : Float}
    (le : h ≤ exactThreshold targets n φ) (found : find targets φ (n, samples) = some v) :
    v = 0.5 ∨ v = 1 := by
  obtain ⟨front, b, w, rfl, -, reach⟩ := o
  obtain ⟨pre, x, post, split, rfl, -, next⟩ := find_split found
  rw [brackets_append, Nat.zero_add] at split
  rcases List.append_eq_append_iff.1 split with ⟨a, -, behind⟩ | ⟨a, inside, behind⟩
  · have hx : x ∈ brackets (totalWidth front) [b, ⟨1, w, 0⟩] :=
      behind ▸ List.mem_append_right _ List.mem_cons_self
    rcases List.mem_pair.1 hx with rfl | rfl
    · exact .inl reach.value_eq
    · exact .inr rfl
  · cases a with
    | nil =>
      obtain rfl := (List.cons.inj behind).1
      exact .inl reach.value_eq
    | cons y a =>
      -- what follows `x` does not reach above the threshold
      obtain ⟨rfl, rfl⟩ := List.cons.inj behind
      refine absurd ?_ (not_lt.2 le)
      cases a with
      | nil => exact (next _ rfl).trans_eq reach.high_eq
      | cons c a =>
        refine (next c rfl).trans_le (reach.zero c ?_).2
        rw [inside]
        simp

end Overhang

end Sketch

end Telemetry
