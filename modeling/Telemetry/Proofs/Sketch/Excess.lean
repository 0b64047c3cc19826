import Telemetry.Proofs.Sketch.Overhang

/-!
# Thresholds above the permitted ranks

With an error at least as great as the quantile, ascending values leave a single sample of all but
the lowest ranks (`exists_ladder_eq`), and the values in front of it become an overhang that can end
at any rank (`overhang_insertAll`). A threshold above the permitted ranks comes back with every
further common multiple of the denominators (`exists_period`), and so leads to an answer above them
once there are many values (`exists_not_accurate_of_exceeds`).
-/

namespace Telemetry

open LawfulMeasure

namespace Sketch

open Sample

/-! ## A batch that makes one -/

/-- Zeros, one half, and ones. -/
def ledge (z j : ℕ) : List Float := List.replicate z 0 ++ 0.5 :: List.replicate j 1

section Ledge

variable {z j : ℕ}

theorem length_ledge (z j : ℕ) : (ledge z j).length = z + (j + 1) := by
  rw [ledge, List.length_append, List.length_cons, List.length_replicate, List.length_replicate]

theorem forall_mem_ledge {P : Float → Prop} (zero : P 0) (half : P 0.5) (one : P 1) :
    ∀ v ∈ ledge z j, P v := by
  refine List.forall_mem_append.2 ⟨fun v hv => ?_, List.forall_mem_cons.2 ⟨half, fun v hv => ?_⟩⟩
  · exact List.eq_of_mem_replicate hv ▸ zero
  · exact List.eq_of_mem_replicate hv ▸ one

theorem sorted_ledge (z j : ℕ) : sorted (ledge z j) = ledge z j := by
  refine List.mergeSort_of_pairwise (List.pairwise_append.2 ⟨?_, List.pairwise_cons.2 ⟨?_, ?_⟩, ?_⟩)
  · exact List.pairwise_replicate.2 (.inr (by decide +kernel))
  · intro v hv
    rw [List.eq_of_mem_replicate hv]
    decide +kernel
  · exact List.pairwise_replicate.2 (.inr (by decide +kernel))
  · intro v hv w hw
    rw [List.eq_of_mem_replicate hv]
    rcases List.mem_cons.1 hw with rfl | hw
    · decide +kernel
    · rw [List.eq_of_mem_replicate hw]
      decide +kernel

theorem weave_ledge {pre : List (Sample Float)} {y : Sample Float} (hpre : pre ≠ [])
    (zero : ∀ s ∈ pre, s.value = 0) (hy : y.value = 1) (z j : ℕ) :
    weave true (ledge z j) (pre ++ [y]) =
      (pre ++ List.replicate z ⟨0, 1, y.span - 1⟩) ++ ⟨0.5, 1, y.span - 1⟩ ::
        y :: List.replicate j ⟨1, 1, 0⟩ := by
  have not_less : ∀ s ∈ pre, ∀ v ∈ ledge z j, ¬v < s.value := by
    intro s hs
    rw [zero s hs]
    exact forall_mem_ledge (by decide +kernel) (by decide +kernel) (by decide +kernel)
  have less : ∀ v ∈ List.replicate z (0 : Float) ++ [0.5], decide (v < y.value) = true := by
    rw [hy]
    refine List.forall_mem_append.2 ⟨fun v hv => ?_, List.forall_mem_singleton.2 ?_⟩
    · rw [List.eq_of_mem_replicate hv]
      decide +kernel
    · decide +kernel
  have stop : ∀ w ∈ List.replicate j (1 : Float), ¬w < y.value := by
    intro w hw
    rw [hy, List.eq_of_mem_replicate hw]
    decide +kernel
  have split : ledge z j = (List.replicate z (0 : Float) ++ [0.5]) ++ List.replicate j 1 := by
    rw [ledge, List.append_assoc, List.singleton_append]
  obtain ⟨none, all⟩ := takeWhile_lt_eq_nil stop
  rw [weave_append not_less, weave, split, List.takeWhile_append_of_pos less,
    List.dropWhile_append_of_pos less, none, all, List.isEmpty_eq_false_iff.2 hpre,
    Bool.and_false, inFrontOf_false, weave, List.append_nil, List.map_append, List.map_replicate,
    List.map_replicate]
  simp [exact]

end Ledge

/-! ## Marks of a great error -/

section Marks

variable {t : Target ℚ} {k m : ℕ}

theorem one_mem_marks (targets : List (Target ℚ)) (k : ℕ) : 1 ∈ marks targets (k + 1) := by
  have head := congrArg (Option.map Sample.value) (head?_ladder targets k)
  rw [← List.head?_map] at head
  exact List.mem_of_mem_head? (by rw [marks, head]; rfl)

/-- With an error as great as the quantile, all marks but the last are low. -/
theorem le_of_mem_marks (ht : t.Valid) (hq : t.quantile ≤ t.epsilon) (hm : m ∈ marks [t] k)
    (lt : m < capacity * k) : m ≤ 500 := by
  by_contra! high
  have split := Nat.div_add_mod m capacity
  have mod_lt := Nat.mod_lt m (show 0 < capacity by decide)
  have top : m < capacity * (m / capacity + 1) := by
    rw [Nat.mul_succ]
    omega
  have hm : m ∈ marks [t] (m / capacity + 1) :=
    mem_marks_of_le (Nat.div_lt_of_lt_mul lt) hm top.le
  have far := tolerance_lt_of_mem_marks (one_mem_marks [t] _) hm (by omega) top
  have allowed := ht.mul_le_allowance (capacity * (m / capacity + 1) : ℕ) ((m : ℚ) - 1)
  have high : (501 : ℚ) ≤ m := by exact_mod_cast high
  have double : 2 * ((m : ℚ) - 1) ≤ 2 * t.epsilon * (((m : ℚ) - 1) / t.quantile) := by
    rw [← mul_div_assoc, le_div_iff₀ ht.quantile_pos]
    nlinarith
  have size : ((capacity * (m / capacity + 1) : ℕ) : ℚ) ≤ m + 500 := by
    rw [Nat.mul_succ]
    exact_mod_cast (by rw [capacity] at *; omega : capacity * (m / capacity) + capacity ≤ m + 500)
  rw [tolerance_singleton] at far
  push_cast at far allowed size
  linarith

/-- Ascending values leave low ranks and one sample of all the others. -/
theorem exists_ladder_eq (ht : t.Valid) (hq : t.quantile ≤ t.epsilon) (k : ℕ) :
    ∃ pre w, ladder [t] (k + 1) = pre ++ [⟨capacity * (k + 1), w, 0⟩] ∧ pre ≠ [] ∧
      totalWidth pre ≤ 500 ∧
        ∀ c ∈ brackets 0 pre, c.value < capacity * (k + 1) ∧ c.high ≤ 500 := by
  have head := head?_ladder [t] k
  rcases (ladder [t] (k + 1)).eq_nil_or_concat' with nil | ⟨pre, y, eq⟩
  · rw [nil] at head
    cases head
  · have marks_eq : marks [t] (k + 1) = pre.map value ++ [y.value] := by
      rw [marks, eq, List.map_append, List.map_singleton]
    have y_value := eq_of_marks_eq_concat marks_eq
    have known := brackets_ladder [t] (k + 1)
    rw [marks_eq, eq, brackets_append, List.map_append] at known
    obtain ⟨front, last⟩ := List.append_inj known
      (by simpa using congrArg List.length (map_value_brackets 0 pre))
    have early : ∀ c ∈ brackets 0 pre, c.value < capacity * (k + 1) ∧ c.low ≤ 500 ∧
        c.high ≤ 500 := by
      intro c hc
      rw [front] at hc
      obtain ⟨m, hm, rfl⟩ := List.mem_map.1 hc
      have ascending := marks_pairwise [t] (k + 1)
      rw [marks_eq] at ascending
      have lt : m < capacity * (k + 1) :=
        y_value ▸ (List.pairwise_append.1 ascending).2.2 m hm _ List.mem_cons_self
      have low := le_of_mem_marks ht hq (marks_eq ▸ List.mem_append_left _ hm) lt
      exact ⟨lt, low, Int.ofNat_le.2 low⟩
    refine ⟨pre, y.width, ?_, ?_, ?_, fun c hc => ⟨(early c hc).1, (early c hc).2.2⟩⟩
    · have y_high : ((0 + totalWidth pre : ℕ) : ℤ) + y.span = y.value :=
        congrArg Bracket.high (List.cons.inj last).1
      have y_low : 0 + totalWidth pre + y.width = y.value :=
        congrArg Bracket.low (List.cons.inj last).1
      have delta : y.delta = 0 := by
        rw [span] at y_high
        omega
      rw [eq, ← y_value, ← delta]
    · rintro rfl
      rw [eq] at head
      rw [Option.some.inj head, capacity] at y_value
      change 1 = _ at y_value
      omega
    · rcases pre.eq_nil_or_concat' with rfl | ⟨init, s, rfl⟩
      · exact Nat.zero_le _
      · have low := (early _ (last_mem_brackets 0 init s)).2.1
        rwa [Nat.zero_add] at low

end Marks

/-! ## Making one -/

/-- Zeros and a single one, a multiple of full batches, then a batch that makes an overhang, and
further ones. -/
def overhanging (k z j : ℕ) : List Float :=
  ascent (step (capacity * (k + 1) - 1)) (capacity * (k + 1)) ++ ledge z j

section Make

variable {t : Target ℚ} {k z j : ℕ}

theorem length_overhanging (k z j : ℕ) :
    (overhanging k z j).length = capacity * (k + 1) + (z + (j + 1)) := by
  rw [overhanging, List.length_append, length_ascent, length_ledge]

theorem isFinite_overhanging : ∀ v ∈ overhanging k z j, v.isFinite = true :=
  List.forall_mem_append.2 ⟨isFinite_of_mem_ascent,
    forall_mem_ledge (by decide +kernel) (by decide +kernel) (by decide +kernel)⟩

theorem below_overhanging (k z j : ℕ) :
    below (overhanging k z j) (0.5 : Float) = capacity * (k + 1) + z - 1 := by
  have zero_less : place (0 : Float) < place (0.5 : Float) := Int.cast_lt.2 (by decide +kernel)
  have one_not_less : ¬place (1 : Float) < place (0.5 : Float) := fun lt =>
    absurd (Int.cast_lt.1 lt) (by decide +kernel)
  obtain ⟨m, hm⟩ := Nat.exists_eq_add_one.2 (Nat.mul_pos (by decide : 0 < capacity) k.succ_pos)
  rw [overhanging, hm, Nat.add_sub_cancel, ascent_step, ledge, below]
  simp only [List.countP_append, List.countP_cons, List.countP_replicate, decide_eq_true zero_less,
    decide_eq_false one_not_less, lt_irrefl]
  simp

/-- Zeros and a single one leave zeros of low ranks and one sample of all the others. -/
theorem exists_zeros (ht : t.Valid) (hq : t.quantile ≤ t.epsilon) (k : ℕ) :
    ∃ zeros w, (ladder [t] (k + 1)).map (Sample.map (step (capacity * (k + 1) - 1))) =
        zeros ++ [⟨1, w, 0⟩] ∧ zeros ≠ [] ∧ totalWidth zeros ≤ 500 ∧
      totalWidth zeros + w = capacity * (k + 1) ∧
      ∀ c ∈ brackets 0 zeros, c.value = 0 ∧ c.high ≤ 500 := by
  obtain ⟨pre, w, eq, ne, low, early⟩ := exists_ladder_eq ht hq k
  have pos : 0 < capacity * (k + 1) := Nat.mul_pos (by decide) k.succ_pos
  have one : step (capacity * (k + 1) - 1) (capacity * (k + 1)) = 1 := if_neg (by omega)
  have all := totalWidth_ladder [t] (k + 1)
  rw [eq, totalWidth_append] at all
  refine ⟨pre.map (Sample.map (step (capacity * (k + 1) - 1))), w, ?_, ?_, ?_, ?_, ?_⟩
  · rw [eq, List.map_append, List.map_singleton, Sample.map, one]
  · exact fun nil => ne (List.map_eq_nil_iff.1 nil)
  · exact (totalWidth_map ..).trans_le low
  · rw [totalWidth_map]
    exact all
  · rw [brackets_map]
    refine List.forall_mem_map.2 fun c hc => ⟨if_pos ?_, (early c hc).2⟩
    exact Nat.le_sub_one_of_lt (early c hc).1

/-- What goes in front of a one reaches as far as it. -/
theorem reach_ledge {zeros : List (Sample Float)} {w h : ℕ} (ne : zeros ≠ [])
    (zero : ∀ c ∈ brackets 0 zeros, c.value = 0 ∧ c.high ≤ 500) (low : totalWidth zeros ≤ 500)
    (all : totalWidth zeros + w = h) (high : 500 ≤ h) (hz : z < capacity) :
    Reach (h + z) (zeros ++ List.replicate z ⟨0, 1, w - 1⟩) ⟨0.5, 1, w - 1⟩ where
  ne_nil := List.append_ne_nil_of_left_ne_nil ne _
  zero := by
    rw [brackets_append]
    refine List.forall_mem_append.2 ⟨fun c hc => ⟨(zero c hc).1, ?_⟩, fun c hc => ?_⟩
    · have := (zero c hc).2
      omega
    · have c := high_le_of_mem_replicate c hc
      exact ⟨c.1, by omega⟩
  value_eq := rfl
  low_le := by
    rw [capacity] at hz
    rw [totalWidth_append, totalWidth_replicate]
    dsimp only
    omega
  high_eq := by
    rw [totalWidth_append, totalWidth_replicate, span]
    dsimp only
    omega

/-- The first of the later batches makes the overhang. -/
theorem overhang_ledge (ht : t.Valid) (hq : t.quantile ≤ t.epsilon)
    (hj : z + (j + 1) ≤ capacity) (roomy : Roomy t (capacity * (k + 1) + (z + (j + 1)))) :
    Overhang (capacity * (k + 1) + z) (capacity * (k + 1) + (z + (j + 1)))
      (mergeBatch [t] (capacity * (k + 1), (ladder [t] (k + 1)).map
        (Sample.map (step (capacity * (k + 1) - 1)))) (ledge z j)).2 := by
  obtain ⟨zeros, w, eq, ne, low, all, zero⟩ := exists_zeros ht hq k
  have value : ∀ s ∈ zeros, s.value = 0 := by
    intro s hs
    obtain ⟨c, hc, value⟩ := exists_bracket 0 hs
    exact value ▸ (zero c hc).1
  have span : (⟨1, w, 0⟩ : Sample Float).span = w := add_zero _
  have full : 500 ≤ capacity * (k + 1) := Nat.le_mul_of_pos_right _ k.succ_pos
  have reach := reach_ledge (z := z) ne zero low all full (by omega)
  rw [mergeBatch]
  dsimp only
  rw [sorted_ledge, length_ledge, eq, weave_ledge ne value rfl, span]
  refine reach.condense ?_ ?_ roomy
  · simp only [totalWidth_append, totalWidth_cons, totalWidth_replicate]
    omega
  · rw [capacity] at hj
    omega

/-- An overhang at any rank and for any greater number of values, if there is room. -/
theorem overhang_insertAll (ht : t.Valid) (hq : t.quantile ≤ t.epsilon)
    (roomy : ∀ n ≥ capacity * (k + 1), Roomy t n) (hz : z < capacity) (j : ℕ) :
    ∃ samples, At [t] ((overhanging k z j).length, samples) []
        ((empty [t]).insertAll (overhanging k z j)).settle ∧
      Overhang (capacity * (k + 1) + z) (overhanging k z j).length samples := by
  have state := at_ascent [t] (climbs_step (capacity * (k + 1) - 1)) (k + 1)
  rw [length_overhanging, overhanging, Sketch.insertAll, List.foldl_append]
  rcases Nat.lt_or_ge (z + (j + 1)) capacity with lt | ge
  · have overhang := overhang_ledge ht hq lt.le (roomy _ (Nat.le_add_right _ _))
    have wait := state.insertAll (length_ledge z j ▸ lt)
    have merged := wait.settle (by simp [ledge])
    rw [mergeBatch_eq, length_ledge] at merged
    exact ⟨_, merged, overhang⟩
  · -- the first of the ones fill the batch
    obtain ⟨a, ha⟩ := Nat.exists_eq_add_of_lt hz
    obtain ⟨i, rfl⟩ : ∃ i, j = a + i := Nat.exists_eq_add_of_le (by omega)
    have full : z + (a + 1) = capacity := by omega
    have overhang := overhang_ledge ht hq full.le (roomy _ (Nat.le_add_right _ _))
    have merged := state.insertAll_full ((length_ledge z a).trans full)
    rw [mergeBatch_eq, length_ledge] at merged
    obtain ⟨samples, at_end, stays⟩ := overhang.insertAll merged
      (fun n hn => roomy n ((Nat.le_add_right _ _).trans hn)) i
    have split : ledge z (a + i) = ledge z a ++ List.replicate i 1 := by
      rw [ledge, ledge, List.replicate_add, List.append_assoc, List.cons_append]
    have total : capacity * (k + 1) + (z + (a + 1)) + i =
        capacity * (k + 1) + (z + (a + i + 1)) := by omega
    rw [total] at at_end stays
    rw [split, List.foldl_append]
    exact ⟨samples, at_end, stays⟩

theorem not_accurate_overhanging (ht : t.Valid) (hq : t.quantile ≤ t.epsilon)
    (roomy : ∀ n ≥ capacity * (k + 1), Roomy t n) (hz : z < capacity)
    (upper : upperRank t.quantile t.epsilon (overhanging k z j).length < capacity * (k + 1) + z)
    (le : ((capacity * (k + 1) + z : ℕ) : ℤ) ≤
      exactThreshold [t] (overhanging k z j).length t.quantile) :
    ¬Accurate t (overhanging k z j) := by
  obtain ⟨samples, state, overhang⟩ := overhang_insertAll ht hq roomy hz j
  have full : capacity ≤ (overhanging k z j).length := by
    rw [length_overhanging, Nat.mul_succ]
    omega
  have found := state.find_eq (φ := t.quantile) (summary_insertAll_ne_nil [t] full)
  have under := below_overhanging k z j
  have filled : overhanging k z j ≠ [] :=
    List.length_pos_iff.1 ((by decide : 0 < capacity).trans_le full)
  rw [accurate_iff ht isFinite_overhanging filled]
  rintro ⟨-, high⟩
  rcases overhang.find le found with eq | eq
  · rw [eq, under] at high
    omega
  · have mono : place (0.5 : Float) ≤ place (1 : Float) := Int.cast_le.2 (by decide +kernel)
    rw [eq] at high
    have := (below_mono mono).trans_lt high
    omega

end Make

/-! ## Thresholds above the permitted ranks -/

/-- The threshold is above the permitted ranks, of which there may be more than values. -/
def Exceeds (t : Target ℚ) (n : ℕ) : Prop :=
  ⌈(t.quantile + t.epsilon) * n⌉ + 1 < exactThreshold [t] n t.quantile

section Exceeds

variable {t : Target ℚ}

/-- Over a common denominator of quantile and error, threshold and permitted ranks grow alike. -/
theorem exists_period (ht : t.Valid) : ∃ p > 0, ∀ n i, Exceeds t n → Exceeds t (n + p * i) := by
  have hq := ht.quantile_pos.ne'
  refine ⟨t.quantile.den * t.epsilon.den, Nat.mul_pos t.quantile.pos t.epsilon.pos, ?_⟩
  intro n i exceeds
  have quantile : t.quantile * ((t.quantile.den * t.epsilon.den * i : ℕ) : ℚ) =
      (t.quantile.num * t.epsilon.den * i : ℤ) := by
    push_cast
    rw [← Rat.mul_den_eq_num t.quantile]
    ring
  have error : t.epsilon * ((t.quantile.den * t.epsilon.den * i : ℕ) : ℚ) =
      (t.epsilon.num * t.quantile.den * i : ℤ) := by
    push_cast
    rw [← Rat.mul_den_eq_num t.epsilon]
    ring
  generalize t.quantile.den * t.epsilon.den * i = p at *
  generalize t.quantile.num * t.epsilon.den * i = a at *
  generalize t.epsilon.num * t.quantile.den * i = b at *
  have upper : ⌈(t.quantile + t.epsilon) * (n + p : ℕ)⌉ =
      ⌈(t.quantile + t.epsilon) * n⌉ + (a + b) := by
    rw [← Int.ceil_add_intCast]
    push_cast
    rw [← quantile, ← error]
    ring_nf
  have rank : ⌈t.quantile * (n + p : ℕ)⌉ = ⌈t.quantile * n⌉ + a := by
    rw [← Int.ceil_add_intCast, ← quantile]
    push_cast
    ring_nf
  have half (c : ℤ) : 2 * t.epsilon * (c + a) / t.quantile / 2 =
      2 * t.epsilon * c / t.quantile / 2 + b := by
    rw [← quantile, ← error]
    field_simp
  rw [Exceeds, exactThreshold, tolerance_singleton, Target.allowance_ceil] at exceeds ⊢
  rw [upper, rank, Int.cast_add, half, Int.ceil_add_intCast]
  omega

/-- Among many values, the permitted ranks end high, but below the greatest rank. -/
theorem exists_exceeds_room (ht : t.Valid) (short : t.quantile + 2 * t.epsilon < 1) {n : ℕ}
    (exceeds : Exceeds t n) (N : ℕ) :
    ∃ n u : ℕ, Exceeds t n ∧ ⌈(t.quantile + t.epsilon) * n⌉ + 1 = u ∧ N < u ∧ u + 2 < n := by
  have hε := ht.epsilon_pos
  have hq := ht.quantile_pos
  obtain ⟨p, hp, period⟩ := exists_period ht
  obtain ⟨i, hi⟩ := exists_nat_gt (max (N / (t.quantile + t.epsilon))
    (4 / (1 - t.quantile - t.epsilon)))
  obtain ⟨left, right⟩ := max_lt_iff.1 hi
  rw [div_lt_iff₀ (by linarith)] at left right
  have exceeds := period n i exceeds
  have large : (i : ℚ) ≤ (n + p * i : ℕ) := by
    exact_mod_cast (Nat.le_mul_of_pos_left i hp).trans (Nat.le_add_left _ _)
  generalize n + p * i = n at *
  obtain ⟨u, hu⟩ : ∃ u : ℕ, ⌈(t.quantile + t.epsilon) * n⌉ + 1 = u := by
    have nonneg : 0 ≤ ⌈(t.quantile + t.epsilon) * n⌉ := Int.ceil_nonneg (by positivity)
    exact Int.eq_ofNat_of_zero_le (by omega)
  have u_eq : ((⌈(t.quantile + t.epsilon) * n⌉ : ℤ) : ℚ) + 1 = u := by exact_mod_cast hu
  refine ⟨n, u, exceeds, hu, ?_, ?_⟩
  · have ceil := Int.le_ceil ((t.quantile + t.epsilon) * n)
    have high : (N : ℚ) < u := by nlinarith
    exact_mod_cast high
  · have ceil := Int.ceil_lt_add_one ((t.quantile + t.epsilon) * n)
    have room : (u : ℚ) + 2 < n := by nlinarith
    exact_mod_cast room

/-- An overhang can end at any rank that is neither low nor the greatest. -/
theorem exists_overhanging {r n : ℕ} (low : capacity ≤ r) (room : r < n) :
    ∃ k z j, z < capacity ∧ capacity * (k + 1) + z = r ∧ (overhanging k z j).length = n := by
  obtain ⟨k, hk⟩ := Nat.exists_eq_add_one.2 (Nat.div_pos low (by decide))
  have split := Nat.div_add_mod r capacity
  rw [hk] at split
  refine ⟨k, r % capacity, n - r - 1, Nat.mod_lt r (by decide), split, ?_⟩
  rw [length_overhanging]
  omega

/-- With many values there is room for an overhang between the permitted ranks and the
threshold. -/
theorem exists_not_accurate_of_exceeds (ht : t.Valid) (hq : t.quantile ≤ t.epsilon)
    (short : t.quantile + 2 * t.epsilon < 1) {n : ℕ} (exceeds : Exceeds t n) :
    ∃ values : List Float, (∀ v ∈ values, v.isFinite = true) ∧ values ≠ [] ∧
      ¬Accurate t values := by
  obtain ⟨N, roomy⟩ := exists_roomy ht hq short
  obtain ⟨n, u, exceeds, hu, high, room⟩ := exists_exceeds_room ht short exceeds (N + capacity)
  -- the overhang reaches one rank above the permitted ones
  obtain ⟨k, z, j, hz, split, rfl⟩ : ∃ k z j, z < capacity ∧ capacity * (k + 1) + z = u + 1 ∧
      (overhanging k z j).length = n := exists_overhanging (by omega) (by omega)
  have filled : overhanging k z j ≠ [] := List.length_pos_iff.1 (by omega)
  refine ⟨_, isFinite_overhanging, filled,
    not_accurate_overhanging ht hq (fun n hn => roomy n (by omega)) hz ?_ ?_⟩
  · rw [split, upperRank, hu]
    omega
  · rw [split]
    rw [Exceeds, hu] at exceeds
    omega

end Exceeds

end Sketch

end Telemetry
