import Telemetry.Proofs.Sketch.Bracket
import Telemetry.Proofs.Sketch.Run

/-!
# What samples say is true

A list of samples is faithful to the merged values if it has them ascending and every bracket
encloses the rank of its value: at least `low` merged values are not greater, and fewer than `high`
are less. Weaving in a value keeps a list faithful because the new value takes over the greatest
rank of the sample it goes in front of. Joining samples keeps it faithful at once, whatever limit
it goes by, since it only drops brackets. So every run leaves a faithful summary
(`faithful_run`).
-/

namespace Telemetry

open LawfulMeasure

variable {ν ρ : Type} [Measure ν] [LawfulMeasure ν]

/-! ## Brackets that enclose a rank -/

/-- The bracket encloses the rank of its value among the merged values. -/
structure Bracket.Sound (merged : List ν) (b : Bracket ν) : Prop where
  mem : b.value ∈ merged
  low_le_atMost : b.low ≤ atMost merged b.value
  below_lt_high : (below merged b.value : ℤ) < b.high
  low_le_high : (b.low : ℤ) ≤ b.high
  high_le : b.high ≤ merged.length

section Bracket

variable {merged others : List ν} {b : Bracket ν} {v : ν}

theorem Bracket.Sound.perm (h : b.Sound merged) (hm : merged.Perm others) : b.Sound others where
  mem := hm.mem_iff.1 h.mem
  low_le_atMost := atMost_congr hm b.value ▸ h.low_le_atMost
  below_lt_high := below_congr hm b.value ▸ h.below_lt_high
  low_le_high := h.low_le_high
  high_le := hm.length_eq ▸ h.high_le

/-- A value that is not less leaves the bracket as it is. -/
theorem Bracket.Sound.cons (h : b.Sound merged) (hv : place b.value ≤ place v) :
    b.Sound (v :: merged) where
  mem := List.mem_cons_of_mem _ h.mem
  low_le_atMost := by
    rw [atMost_cons]
    exact Nat.le_add_right_of_le h.low_le_atMost
  below_lt_high := by
    rw [below_cons, if_neg (not_lt.2 hv)]
    exact h.below_lt_high
  low_le_high := h.low_le_high
  high_le := h.high_le.trans (Int.ofNat_le.2 (Nat.le_succ _))

/-- A value that is not greater shifts the bracket. -/
theorem Bracket.Sound.cons_shift (h : b.Sound merged) (hv : place v ≤ place b.value) :
    (b.shift 1).Sound (v :: merged) where
  mem := List.mem_cons_of_mem _ h.mem
  low_le_atMost := by
    change b.low + 1 ≤ atMost (v :: merged) b.value
    rw [atMost_cons, if_pos hv]
    exact Nat.succ_le_succ h.low_le_atMost
  below_lt_high := by
    change (below (v :: merged) b.value : ℤ) < b.high + 1
    have := h.below_lt_high
    rw [below_cons]
    split_ifs <;> omega
  low_le_high := by
    have := h.low_le_high
    change ((b.low + 1 : ℕ) : ℤ) ≤ b.high + 1
    omega
  high_le := by
    have := h.high_le
    change b.high + 1 ≤ ((merged.length + 1 : ℕ) : ℤ)
    omega

/-- A lesser value ranks no higher than a greater one can. -/
theorem Bracket.Sound.inFront (h : b.Sound merged) {k : ℕ} (less : place v < place b.value)
    (k_le : k ≤ atMost merged v) (k_lt : k < b.low) :
    Bracket.Sound (v :: merged) ⟨v, k + 1, b.high⟩ where
  mem := List.mem_cons_self
  low_le_atMost := by
    rw [atMost_cons, if_pos le_rfl]
    exact Nat.succ_le_succ k_le
  below_lt_high := by
    rw [below_cons, if_neg (lt_irrefl _), Nat.add_zero]
    exact (Int.ofNat_le.2 (below_mono less.le)).trans_lt h.below_lt_high
  low_le_high := (Int.ofNat_le.2 (Nat.succ_le_of_lt k_lt)).trans h.low_le_high
  high_le := h.high_le.trans (Int.ofNat_le.2 (Nat.le_succ _))

end Bracket

namespace Sample

/-! ## Faithful lists of samples -/

/-- Samples that stand for the merged values and tell their ranks truly. -/
structure Faithful (merged : List ν) (samples : List (Sample ν)) : Prop where
  width_pos : ∀ s ∈ samples, 1 ≤ s.width
  total : totalWidth samples = merged.length
  ascending : samples.Pairwise fun s t => place s.value ≤ place t.value
  sound : ∀ b ∈ brackets 0 samples, b.Sound merged
  /-- The least value is a sample of its own. -/
  head : ∀ s ∈ samples.head?, s.width = 1 ∧ s.delta = 0

section Faithful

variable {merged others : List ν} {samples pre : List (Sample ν)} {v : ν}

theorem Faithful.nil : Faithful ([] : List ν) [] :=
  ⟨by simp, rfl, List.Pairwise.nil, by simp, by simp⟩

theorem Faithful.perm (h : Faithful merged samples) (hm : merged.Perm others) :
    Faithful others samples where
  width_pos := h.width_pos
  total := h.total.trans hm.length_eq
  ascending := h.ascending
  sound b hb := (h.sound b hb).perm hm
  head := h.head

theorem Faithful.mem (h : Faithful merged samples) : ∀ s ∈ samples, s.value ∈ merged := by
  intro s hs
  obtain ⟨b, hb, eq⟩ := exists_bracket 0 hs
  exact eq ▸ (h.sound b hb).mem

/-- The first bracket is that of the least rank. -/
theorem Faithful.first_bracket (h : Faithful merged samples) {b : Bracket ν}
    {post : List (Bracket ν)} (split : brackets 0 samples = b :: post) :
    b.low = 1 ∧ b.high = 1 := by
  cases samples with
  | nil => cases split
  | cons s rest =>
    obtain ⟨width, delta⟩ := h.head s rfl
    obtain rfl := (List.cons.inj split).1
    simp [span, width, delta]

/-- All brackets behind the first end above the least rank. -/
theorem Faithful.one_lt_low (h : Faithful merged samples) {first b : Bracket ν}
    {others : List (Bracket ν)} (split : brackets 0 samples = first :: others) (hb : b ∈ others) :
    1 < b.low := by
  cases samples with
  | nil => cases split
  | cons s rest =>
    obtain ⟨width, -⟩ := h.head s rfl
    obtain ⟨-, rfl⟩ := List.cons.inj split
    have := before_lt_low (List.forall_mem_cons.1 h.width_pos).2 hb
    omega

/-- The last bracket is that of the greatest rank. -/
theorem Faithful.last_bracket (h : Faithful merged samples) {b : Bracket ν}
    {init : List (Bracket ν)} (split : brackets 0 samples = init ++ [b]) :
    b.low = merged.length ∧ b.high = merged.length := by
  have low := low_of_brackets_eq_concat split
  rw [Nat.zero_add, h.total] at low
  have sound := h.sound b (split ▸ List.mem_concat_self)
  have order := sound.low_le_high
  have high := sound.high_le
  exact ⟨low, by omega⟩

/-- Samples that are not greater than `v` stand for values that are not. -/
theorem totalWidth_le_atMost (sound : ∀ b ∈ brackets 0 pre, b.Sound merged)
    (le : ∀ s ∈ pre, place s.value ≤ place v) : totalWidth pre ≤ atMost merged v := by
  rcases pre.eq_nil_or_concat' with rfl | ⟨init, s, rfl⟩
  · exact Nat.zero_le _
  · have := (sound _ (last_mem_brackets 0 init s)).low_le_atMost
    rw [Nat.zero_add] at this
    exact this.trans (atMost_mono (le s (by simp)))

/-- A value that no sample exceeds comes last, and its rank is the number of values. -/
theorem Faithful.append_exact (h : Faithful merged samples)
    (le : ∀ s ∈ samples, place s.value ≤ place v) :
    Faithful (v :: merged) (samples ++ [exact v]) where
  width_pos := List.forall_mem_append.2 ⟨h.width_pos, by simp [exact]⟩
  total := by
    rw [totalWidth_append, h.total, List.length_cons]
    rfl
  ascending := by
    refine List.pairwise_append.2 ⟨h.ascending, List.pairwise_singleton _ _, ?_⟩
    simpa [exact] using le
  sound := by
    have below_le := below_le_length merged v
    have width_le := totalWidth_le_atMost h.sound le
    rw [brackets_append]
    refine List.forall_mem_append.2 ⟨fun b hb => ?_, List.forall_mem_singleton.2 ?_⟩
    · obtain ⟨s, hs, value⟩ := exists_sample hb
      exact (h.sound b hb).cons (value ▸ le s hs)
    · refine ⟨List.mem_cons_self, ?_, ?_, ?_, ?_⟩
      · simp [exact, atMost_cons, width_le]
      · simp [exact, below_cons, span, h.total]
        omega
      · simp [exact, span]
      · simp [exact, span, h.total]
  head s hs := by
    cases samples with
    | nil =>
      obtain rfl := Option.some.inj hs
      exact ⟨rfl, rfl⟩
    | cons => exact h.head s hs

/-- A value in front of a greater sample can rank no higher than that one could. -/
theorem Faithful.inFront {s : Sample ν} {rest : List (Sample ν)}
    (h : Faithful merged (pre ++ s :: rest)) (le : ∀ p ∈ pre, place p.value ≤ place v)
    (less : place v < place s.value) :
    Faithful (v :: merged)
      (pre ++ ⟨v, 1, if pre.isEmpty then 0 else s.span - 1⟩ :: s :: rest) := by
  obtain ⟨asc_pre, asc_rest, asc⟩ := List.pairwise_append.1 h.ascending
  have greater : ∀ t ∈ s :: rest, place v ≤ place t.value := by
    refine List.forall_mem_cons.2 ⟨less.le, fun t ht => ?_⟩
    exact less.le.trans ((List.pairwise_cons.1 asc_rest).1 t ht)
  have sound := h.sound
  rw [brackets_append, Nat.zero_add] at sound
  obtain ⟨sound_pre, sound_rest⟩ := List.forall_mem_append.1 sound
  have sound_s := (List.forall_mem_cons.1 sound_rest).1
  refine ⟨?_, ?_, ?_, ?_, ?_⟩
  · have pos := List.forall_mem_append.1 h.width_pos
    exact List.forall_mem_append.2 ⟨pos.1, List.forall_mem_cons.2 ⟨le_rfl, pos.2⟩⟩
  · have total := h.total
    simp only [totalWidth_append, totalWidth_cons, List.length_cons] at total ⊢
    omega
  · refine List.pairwise_append.2 ⟨asc_pre, List.pairwise_cons.2 ⟨greater, asc_rest⟩, ?_⟩
    exact fun p hp => List.forall_mem_cons.2 ⟨le p hp, asc p hp⟩
  · rw [brackets_append, brackets_cons, span_inFront h.head, Nat.zero_add, brackets_add]
    refine List.forall_mem_append.2 ⟨fun b hb => ?_, List.forall_mem_cons.2 ⟨?_, ?_⟩⟩
    · obtain ⟨p, hp, value⟩ := exists_sample hb
      exact (sound_pre b hb).cons (value ▸ le p hp)
    · have width_pos : 0 < s.width := h.width_pos s (by simp)
      exact sound_s.inFront less (totalWidth_le_atMost sound_pre le)
        (Nat.lt_add_of_pos_right width_pos)
    · refine List.forall_mem_map.2 fun b hb => ?_
      obtain ⟨t, ht, value⟩ := exists_sample hb
      exact (sound_rest b hb).cons_shift (value ▸ greater t ht)
  · intro t ht
    cases pre with
    | nil =>
      obtain rfl := Option.some.inj ht
      exact ⟨rfl, rfl⟩
    | cons => exact h.head t ht

/-- Weaving in a value keeps samples faithful. -/
theorem Faithful.weaveOne (h : Faithful merged samples) (numbers : ∀ w ∈ merged, IsNumber w)
    (hv : IsNumber v) : Faithful (v :: merged) (weaveOne true v samples) := by
  have hs : ∀ s ∈ samples, IsNumber s.value := fun s hs => numbers _ (h.mem s hs)
  rcases weaveOne_split true v samples with ⟨not_less, eq⟩ | ⟨pre, s, rest, rfl, not_less, less, eq⟩
  · rw [eq]
    exact h.append_exact fun s hs' => (not_lt_iff_place_le hv (hs s hs')).1 (not_less s hs')
  · have hs := List.forall_mem_append.1 hs
    rw [eq, Bool.true_and]
    refine h.inFront (fun p hp => (not_lt_iff_place_le hv (hs.1 p hp)).1 (not_less p hp)) ?_
    exact (lt_iff_place_lt hv (hs.2 s List.mem_cons_self)).1 less

/-- Joining samples keeps them faithful, whatever the limit is. -/
theorem Faithful.condense [Precision ρ] (h : Faithful merged samples) (limit : ℤ → ρ) (m : ℕ) :
    Faithful merged (condense limit m samples) where
  width_pos := width_pos_condense h.width_pos
  total := totalWidth_condense.trans h.total
  ascending := by
    have values : (samples.map value).Pairwise fun x y => place x ≤ place y :=
      List.pairwise_map.2 h.ascending
    have kept := values.sublist (map_value_condense_sublist limit m samples)
    rwa [List.pairwise_map] at kept
  sound b hb := h.sound b ((brackets_condense_sublist limit m samples).subset hb)
  head s hs := h.head s (head?_condense limit m samples ▸ hs)

end Faithful

end Sample

namespace Sketch

variable [Precision ρ]

theorem faithful_invariant (targets : List (Target ρ)) :
    SummaryInvariant targets (Sample.Faithful (ν := ν)) where
  nil := .nil
  mem h := h.mem
  perm h hm := h.perm hm
  weaveOne h numbers hv := h.weaveOne numbers hv
  condense h := h.condense _ _

/-- Every run leaves a faithful summary of the values that were merged. -/
theorem faithful_run (targets : List (Target ρ)) (uses : List (Use ν ρ))
    (numbers : ∀ v ∈ inserted uses, IsNumber v) :
    Sample.Faithful ((inserted uses).take ((empty targets).run uses).merged)
      ((empty targets).run uses).summary :=
  (faithful_invariant targets).run uses numbers

/-! ## Samples of doubles -/

/-- Samples by ascending value, each of them a merged value. The widths up to a sample are a least
number of values that do not exceed it, and with its delta they are more than those below it. -/
def EnclosesRanks (merged : List Float) (samples : List (Sample Float)) : Prop :=
  samples.Pairwise (fun x y => x.value ≤ y.value) ∧
    ∀ (i : ℕ) (x : Sample Float), samples[i]? = some x →
      x.value ∈ merged ∧ 0 ≤ x.delta ∧
        Sample.totalWidth (samples.take (i + 1)) ≤ merged.countP (fun v => decide (v ≤ x.value)) ∧
        (merged.countP (fun v => decide (v < x.value)) : ℤ) ≤
          Sample.totalWidth (samples.take (i + 1)) + x.delta - 1

theorem EnclosesRanks.of_faithful {merged : List Float} {samples : List (Sample Float)}
    (h : Sample.Faithful merged samples) (numbers : ∀ v ∈ merged, v.isNaN = false) :
    EnclosesRanks merged samples := by
  have number : ∀ x ∈ samples, x.value.isNaN = false := fun x hx => numbers _ (h.mem x hx)
  refine ⟨?_, fun i x hx => ?_⟩
  · exact h.ascending.imp_of_mem fun hx hy => le_of_place_le (number _ hx) (number _ hy)
  · have hmem := List.mem_of_getElem? hx
    have sound := h.sound _ (Sample.mem_brackets_of_getElem? 0 hx)
    obtain ⟨hi, rfl⟩ := List.getElem?_eq_some_iff.1 hx
    have width : Sample.totalWidth (samples.take (i + 1)) =
        Sample.totalWidth (samples.take i) + samples[i].width := by
      rw [List.take_succ_eq_append_getElem hi, Sample.totalWidth_append]
      rfl
    have low := sound.low_le_atMost
    have high := sound.below_lt_high
    have order := sound.low_le_high
    simp only [Sample.span, Nat.zero_add] at low high order
    refine ⟨sound.mem, by omega, ?_, ?_⟩
    · rw [← atMost_eq_countP numbers (number _ hmem)]
      exact low
    · rw [← below_eq_countP numbers (number _ hmem)]
      omega

/-- After any run over numbers the summary encloses the ranks of the merged values, which are the
values inserted before those that the buffer holds. Nothing is asked of the arithmetic of ranks. -/
theorem summary_encloses_ranks (targets : List (Target ρ)) (uses : List (Use Float ρ))
    (numbers : ∀ v ∈ inserted uses, v.isNaN = false) :
    ∃ merged, merged.length = ((empty targets).run uses).merged ∧
      merged ++ ((empty targets).run uses).buffer.toList = inserted uses ∧
      EnclosesRanks merged ((empty targets).run uses).summary := by
  have holds := holds_run targets uses
  refine ⟨(inserted uses).take ((empty targets).run uses).merged, holds.length_take,
    holds.take_append_buffer, ?_⟩
  exact .of_faithful (faithful_run targets uses numbers)
    fun v hv => numbers v (List.mem_of_mem_take hv)

/-- As many insertions of 1 as make the first batch of samples. -/
def oneBatch : List (Use Float Rat) := List.replicate capacity (.insert 1)

theorem eq_one_of_mem_oneBatch : ∀ v ∈ inserted oneBatch, v = 1 := by
  intro v hv
  obtain ⟨u, hu, eq⟩ := List.mem_filterMap.1 hv
  obtain rfl := List.eq_of_mem_replicate hu
  exact (Option.some.inj eq).symm

theorem summary_encloses_ranks_oneBatch :
    (∀ v ∈ inserted oneBatch, v.isNaN = false) ∧
      ∃ merged, merged.length = (run (empty Target.standard) oneBatch).merged ∧
        merged ++ (run (empty Target.standard) oneBatch).buffer.toList = inserted oneBatch ∧
        EnclosesRanks merged (run (empty Target.standard) oneBatch).summary := by
  have numbers : ∀ v ∈ inserted oneBatch, v.isNaN = false := by
    intro v hv
    obtain rfl := eq_one_of_mem_oneBatch v hv
    decide
  exact ⟨numbers, summary_encloses_ranks _ _ numbers⟩

end Sketch

end Telemetry
