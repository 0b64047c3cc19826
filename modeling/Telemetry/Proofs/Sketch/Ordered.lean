import Telemetry.Proofs.Sketch.Conservation
import Telemetry.Proofs.Sketch.Cuts
import Telemetry.Proofs.Sketch.KnownRanks
import Telemetry.Proofs.Sketch.StandardTargets

/-!
# Values that arrive in order

Ascending values are appended, and descending ones go in front of a sample whose rank is known, so
that either way no sample has a delta (`delta_eq_zero_run`). What is left after joining are samples
of which no two neighbours fit together. Since targets allow a share of the values at every rank
(`Target.Valid.mul_length_le_allowance`), two neighbours stand for more than that share, and there
is room for few of them (`mul_lt_totalWidth`). How many does not depend on the number of values
(`length_summary_lt`).
-/

namespace Telemetry

open LawfulMeasure

/-! ## The least tolerance -/

/-- At no rank does a target allow less than twice its error. One of the two sides of its own rank
is no shorter than its share of the ranks. -/
theorem Target.Valid.mul_length_le_allowance {t : Target ℚ} (ht : t.Valid) (n r : ℚ) :
    2 * t.epsilon * n ≤ t.allowance n r := by
  have hq := ht.quantile_pos
  have hq' : 0 < 1 - t.quantile := sub_pos.2 ht.quantile_lt_one
  have hε := ht.epsilon_pos
  rw [ht.allowance_eq_max]
  gcongr
  rcases le_total (t.quantile * n) r with left | right
  · refine le_max_of_le_left ?_
    rwa [le_div_iff₀ hq, mul_comm]
  · refine le_max_of_le_right ?_
    rw [le_div_iff₀ hq']
    linarith

theorem mul_length_le_tolerance {targets : List (Target ℚ)} (valid : ∀ t ∈ targets, t.Valid)
    {t : Target ℚ} (ht : t ∈ targets) (least : ∀ u ∈ targets, t.epsilon ≤ u.epsilon) (n : ℕ)
    (r : ℚ) : 2 * t.epsilon * n ≤ tolerance targets n r := by
  refine le_tolerance (List.ne_nil_of_mem ht) fun u hu => ?_
  refine le_trans ?_ ((valid u hu).mul_length_le_allowance n r)
  have less := least u hu
  gcongr

namespace Sample

variable {ν : Type}

/-! ## Few samples -/

/-- Where any two neighbours have more than `2 * b` together, there are on average more than `b` for
each sample but one. -/
theorem mul_lt_totalWidth {b : ℚ} (hb : 0 ≤ b) : ∀ {samples : List (Sample ν)}, samples ≠ [] →
    (∀ s ∈ samples, 1 ≤ s.width) →
    samples.IsChain (fun c x => 2 * b < c.width + x.width) →
    ((samples.length : ℚ) - 1) * b < totalWidth samples
  | [c], _, pos, _ => by
    have pos : (1 : ℚ) ≤ c.width := by exact_mod_cast pos c List.mem_cons_self
    simp only [List.length_singleton, totalWidth_cons, totalWidth_nil]
    push_cast
    linarith
  | [c, x], _, _, wide => by
    have wide := List.isChain_pair.1 wide
    simp only [List.length_cons, List.length_nil, totalWidth_cons, totalWidth_nil]
    push_cast
    linarith
  | c :: x :: y :: rest, _, pos, wide => by
    have wide := List.isChain_cons_cons.1 wide
    have later := mul_lt_totalWidth hb (List.cons_ne_nil y rest)
      (fun s hs => pos s (List.mem_cons_of_mem _ (List.mem_cons_of_mem _ hs)))
      (List.isChain_cons_cons.1 wide.2).2
    simp only [List.length_cons, totalWidth_cons] at later ⊢
    push_cast at later ⊢
    linarith [wide.1]

/-- Samples that are apart, with a limit that is nowhere less than `b` and no deltas, have wide
neighbours. -/
theorem Apart.isChain_wide {limit : ℤ → ℚ} {m : ℤ} {samples : List (Sample ν)} {b : ℚ}
    (h : Apart limit m samples) (allowed : ∀ r, b ≤ limit r)
    (flat : ∀ s ∈ samples, s.delta = 0) :
    samples.IsChain fun c x => b < c.width + x.width := by
  induction samples with
  | nil => exact List.isChain_nil
  | cons c samples ih =>
    cases samples with
    | nil => exact List.isChain_singleton _
    | cons x rest =>
      have flat := List.forall_mem_cons.1 flat
      refine List.isChain_cons_cons.2 ⟨?_, ih h.2 flat.2⟩
      have wide := (allowed _).trans_lt (not_le.1 h.1)
      change b < ((c.width + (x.width + x.delta) : ℤ) : ℚ) at wide
      rw [(List.forall_mem_cons.1 flat.2).1, add_zero] at wide
      exact_mod_cast wide

/-! ## Samples without deltas -/

theorem delta_eq_zero_inFrontOf {s : Sample ν} {atHead : Bool} {values : List ν}
    (single : s.span = 1) : ∀ x ∈ inFrontOf s atHead values, x.delta = 0 := by
  intro x hx
  obtain ⟨i, hi, rfl⟩ := List.mem_mapIdx.1 hx
  dsimp only
  split_ifs
  · rfl
  · rw [single, sub_self]

theorem delta_eq_zero_exact (values : List ν) : ∀ x ∈ values.map exact, x.delta = 0 :=
  List.forall_mem_map.2 fun _ _ => rfl

theorem delta_eq_zero_condense {ρ : Type} [Precision ρ] {limit : ℤ → ρ} {merged : ℕ}
    {samples : List (Sample ν)} (flat : ∀ s ∈ samples, s.delta = 0) :
    ∀ s ∈ condense limit merged samples, s.delta = 0 := by
  have known : ∀ b ∈ brackets 0 samples, b.high = b.low := fun b hb => by
    obtain ⟨s, hs, high, -⟩ := exists_sample_of_bracket hb
    rw [high, flat s hs, add_zero]
  exact delta_eq_zero_of_brackets fun b hb =>
    known b ((brackets_condense_sublist limit merged samples).subset hb)

end Sample

namespace Sketch

variable {ν ρ : Type} [Measure ν] [LawfulMeasure ν] [Precision ρ]

/-- The values do not descend, or each is less than all before it. -/
def InOrder (values : List ν) : Prop :=
  values.Pairwise (fun v w => place v ≤ place w) ∨ values.Pairwise fun v w => place w < place v

omit [Precision ρ] in
theorem InOrder.of_append {values others : List ν} (h : InOrder (values ++ others)) :
    InOrder values :=
  h.imp (List.Pairwise.sublist (List.sublist_append_left values others))
    (List.Pairwise.sublist (List.sublist_append_left values others))

section Flat

variable {targets : List (Target ρ)} {values : List ν} {s : Sketch ν ρ}

omit [Precision ρ] in
/-- Values that come in order are all behind the samples, or all in front of them. -/
theorem delta_eq_zero_weaveBuffer (holds : Holds targets values s)
    (faithful : Sample.Faithful (values.take s.merged) s.summary)
    (numbers : ∀ v ∈ values, IsNumber v) (ordered : InOrder values)
    (flat : ∀ x ∈ s.summary, x.delta = 0) : ∀ x ∈ s.weaveBuffer.summary, x.delta = 0 := by
  have waiting : ∀ v ∈ s.sortedBuffer, v ∈ values.drop s.merged := fun v hv =>
    holds.buffer_eq ▸ (sortedBuffer_perm s).subset hv
  have number_buffer : ∀ v ∈ s.sortedBuffer, IsNumber v := fun v hv =>
    numbers v (List.mem_of_mem_drop (waiting v hv))
  have number_summary : ∀ x ∈ s.summary, IsNumber x.value := fun x hx =>
    numbers _ (List.mem_of_mem_take (faithful.mem x hx))
  change ∀ x ∈ Sample.weave true s.sortedBuffer s.summary, x.delta = 0
  rw [InOrder, ← List.take_append_drop s.merged values, List.pairwise_append,
    List.pairwise_append] at ordered
  rcases ordered with ⟨-, -, ascending⟩ | ⟨-, -, descending⟩
  · -- No sample has a value in front of it.
    have not_less : ∀ x ∈ s.summary, ∀ v ∈ s.sortedBuffer, ¬v < x.value := fun x hx v hv =>
      (not_lt_iff_place_le (number_buffer v hv) (number_summary x hx)).2
        (ascending _ (faithful.mem x hx) v (waiting v hv))
    rw [Sample.weave_eq_append not_less]
    exact List.forall_mem_append.2 ⟨flat, Sample.delta_eq_zero_exact _⟩
  · cases samples : s.summary with
    | nil => exact Sample.delta_eq_zero_exact _
    | cons x rest =>
      -- All values are in front of the first sample, whose span is one.
      rw [samples] at faithful number_summary flat
      have less : ∀ v ∈ s.sortedBuffer, decide (v < x.value) = true := fun v hv =>
        decide_eq_true ((lt_iff_place_lt (number_buffer v hv)
          (number_summary x List.mem_cons_self)).2
            (descending _ (faithful.mem x List.mem_cons_self) v (waiting v hv)))
      obtain ⟨width, delta⟩ := faithful.head x rfl
      have single : x.span = 1 := by rw [Sample.span, width, delta]; rfl
      rw [Sample.weave, List.takeWhile_eq_self_iff.2 less, List.dropWhile_eq_nil_iff.2 less,
        Sample.weave_nil]
      exact List.forall_mem_append.2 ⟨Sample.delta_eq_zero_inFrontOf single, flat⟩

theorem delta_eq_zero_settle (holds : Holds targets values s)
    (faithful : Sample.Faithful (values.take s.merged) s.summary)
    (numbers : ∀ v ∈ values, IsNumber v) (ordered : InOrder values)
    (flat : ∀ x ∈ s.summary, x.delta = 0) : ∀ x ∈ s.settle.summary, x.delta = 0 := by
  unfold settle
  split_ifs
  · exact flat
  · exact Sample.delta_eq_zero_condense
      (delta_eq_zero_weaveBuffer holds faithful numbers ordered flat)

end Flat

/-- A run over values that come in order leaves no deltas. -/
theorem delta_eq_zero_run (targets : List (Target ρ)) {uses : List (Use ν ρ)}
    (numbers : ∀ v ∈ inserted uses, IsNumber v) (ordered : InOrder (inserted uses)) :
    ∀ x ∈ ((empty targets).run uses).summary, x.delta = 0 := by
  induction uses using List.reverseRecOn with
  | nil => simp [run, empty]
  | append_singleton uses u ih =>
    have holds := holds_run targets uses
    rw [inserted_append] at numbers ordered
    have number := (List.forall_mem_append.1 numbers).1
    have faithful := faithful_run targets uses number
    have flat := ih number ordered.of_append
    have settled := delta_eq_zero_settle holds faithful number ordered.of_append flat
    rw [run, List.foldl_append]
    cases u with
    | insert v =>
      change ∀ x ∈ (((empty targets).run uses).insert v).summary, x.delta = 0
      have faithful_push : Sample.Faithful
          ((inserted uses ++ [v]).take ((empty targets).run uses).merged)
          ((empty targets).run uses).summary := by
        rwa [List.take_append_of_le_length holds.merged_le]
      rw [insert_eq]
      split_ifs
      · exact delta_eq_zero_settle (holds.push v) faithful_push numbers ordered flat
      · exact flat
    | quantile φ =>
      exact quantile_of_settle (P := fun s => ∀ x ∈ s.summary, x.delta = 0)
        (fun _ _ => settled) φ flat
    | toSamples | sampledSum =>
      exact toSamples_of_settle (P := fun s => ∀ x ∈ s.summary, x.delta = 0)
        (fun _ _ => settled) (fun _ h => Sample.delta_eq_zero_condense h) flat

/-! ## Few samples -/

omit [Measure ν] [LawfulMeasure ν] in
/-- Where nothing is left to join, no two neighbours behind the first sample fit together. -/
theorem Condensed.apart [LawfulPrecision ρ] {s : Sketch ν ρ} (h : s.Condensed) :
    Sample.Apart (fun r => s.limit (Precision.ofInt r)) ((s.merged : ℤ) - 1) s.summary.tail := by
  have same : s.condense.summary = s.summary := congrArg summary h
  cases samples : s.summary with
  | nil => trivial
  | cons x rest =>
    rw [condense, samples] at same
    have kept := (List.cons.inj same).2
    rw [List.tail_cons, ← kept]
    exact Sample.apart_kept _ _ rest

section Length

variable {targets : List (Target ℚ)} {t : Target ℚ} {uses : List (Use ν ℚ)}

theorem length_summary_run_lt (valid : ∀ t ∈ targets, t.Valid) (ht : t ∈ targets)
    (least : ∀ u ∈ targets, t.epsilon ≤ u.epsilon) (numbers : ∀ v ∈ inserted uses, IsNumber v)
    (ordered : InOrder (inserted uses)) :
    (((empty targets).run uses).summary.length : ℚ) < 1 / t.epsilon + 2 := by
  have hε := (valid t ht).epsilon_pos
  have weighed := weighed_run targets uses
  have apart := (condensed_run targets uses).apart
  have flat := delta_eq_zero_run targets numbers ordered
  simp only [limit, (holds_run targets uses).targets_eq] at apart
  generalize (empty targets).run uses = s at *
  have allowed : ∀ r : ℤ, 2 * (t.epsilon * s.merged) ≤ tolerance targets s.merged (r : ℚ) := by
    intro r
    rw [← mul_assoc]
    exact mul_length_le_tolerance valid ht least s.merged r
  cases samples : s.summary with
  | nil =>
    rw [List.length_nil]
    positivity
  | cons x rest =>
    rw [samples] at apart flat
    have pos := List.forall_mem_cons.1 (samples ▸ weighed.width_pos)
    have total := weighed.total
    rw [samples, Sample.totalWidth_cons] at total
    have total_lt : (Sample.totalWidth rest : ℚ) < s.merged := by
      exact_mod_cast (by omega : Sample.totalWidth rest < s.merged)
    have few : (rest.length : ℚ) - 1 < 1 / t.epsilon := by
      by_cases nil : rest = []
      · rw [nil, List.length_nil, Nat.cast_zero]
        have : 0 < 1 / t.epsilon := by positivity
        linarith
      · have merged_pos : (0 : ℚ) < s.merged := (Nat.cast_nonneg _).trans_lt total_lt
        have wide := apart.isChain_wide allowed (List.forall_mem_cons.1 flat).2
        have shares := (Sample.mul_lt_totalWidth (by positivity) nil pos.2 wide).trans total_lt
        rw [lt_div_iff₀ hε]
        rw [← mul_assoc, mul_lt_iff_lt_one_left merged_pos] at shares
        exact shares
    rw [List.length_cons]
    push_cast
    linarith

end Length

/-- Over values that do not descend, or descend strictly, the summary stays small. Whatever was read
in between and however many values there are, it has less than two samples more than the inverse of
the least error. Once there are samples, this holds of those that are read, too. -/
theorem length_summary_lt {targets : List (Target ℚ)} {t : Target ℚ}
    (accepted : ∀ u ∈ targets, ∃ q ε, Target.build q ε = .ok u) (ht : t ∈ targets)
    (least : ∀ u ∈ targets, t.epsilon ≤ u.epsilon) {uses : List (Use Float ℚ)}
    (finite : ∀ v ∈ inserted uses, v.isFinite = true)
    (ordered : (inserted uses).Pairwise (· ≤ ·) ∨ (inserted uses).Pairwise (· > ·)) :
    let s : Sketch Float ℚ := (empty targets).run uses
    (s.summary.length : ℚ) < 1 / t.epsilon + 2 ∧
      (s.summary ≠ [] → (s.toSamples.1.length : ℚ) < 1 / t.epsilon + 2) := by
  intro s
  have valid : ∀ u ∈ targets, u.Valid := by
    intro u hu
    obtain ⟨q, ε, built⟩ := accepted u hu
    exact (Target.build_eq_ok_iff.1 built).1
  have numbers : ∀ v ∈ inserted uses, IsNumber v := fun v hv =>
    Binary64.isNaN_of_isFinite (finite v hv)
  have in_order : InOrder (inserted uses) := by
    refine ordered.imp (List.Pairwise.imp_of_mem fun hv hw le => ?_)
      (List.Pairwise.imp_of_mem fun hv hw greater => ?_)
    · exact Int.cast_le.2 ((Binary64.le_iff_place_le (numbers _ hv) (numbers _ hw)).1 le)
    · exact (lt_iff_place_lt (numbers _ hw) (numbers _ hv)).1 greater
  refine ⟨length_summary_run_lt valid ht least numbers in_order, fun samples => ?_⟩
  have same := inserted_toSamples uses
  have after : (((empty targets).run (uses ++ [.toSamples])).summary.length : ℚ) <
      1 / t.epsilon + 2 :=
    length_summary_run_lt valid ht least (same ▸ numbers) (same ▸ in_order)
  rw [run_toSamples uses samples] at after
  rw [toSamples_of_ne_nil samples]
  exact after

/-- As many values as fill the buffer, in descending order. -/
def wholeDescent : List Float := (List.range capacity).map fun i => Binary64.whole (capacity - i)

theorem length_summary_lt_wholeDescent :
    let t : Target ℚ := ⟨1 / 2, 1 / 100⟩
    let uses : List (Use Float ℚ) := insertions wholeDescent
    t ∈ Target.standard ∧ (inserted uses).Pairwise (· > ·) ∧
      ((empty Target.standard).run uses).summary ≠ [] ∧
      (((empty Target.standard).run uses).toSamples.1.length : ℚ) < 1 / t.epsilon + 2 := by
  intro t uses
  have values : inserted uses = wholeDescent := inserted_insertions wholeDescent
  have bound : ∀ i, capacity - i < 2 ^ 52 := fun i =>
    (Nat.sub_le capacity i).trans_lt (by decide)
  have finite : ∀ v ∈ inserted uses, v.isFinite = true := by
    rw [values]
    exact List.forall_mem_map.2 fun i _ => Binary64.isFinite_whole (bound i)
  have descending : (inserted uses).Pairwise (· > ·) := by
    rw [values]
    refine List.pairwise_map.2 (List.pairwise_lt_range.imp_of_mem fun hi hj less => ?_)
    rw [List.mem_range] at hi hj
    exact (Binary64.whole_lt_whole_iff (bound _) (bound _)).2 (by omega)
  have filled : capacity ≤ (inserted uses).length := by
    rw [values, wholeDescent, List.length_map, List.length_range]
  have samples := mt (summary_run_eq_nil_iff Target.standard uses).1 (not_lt.2 filled)
  have accepted : ∀ u ∈ (Target.standard : List (Target ℚ)), ∃ q ε, Target.build q ε = .ok u :=
    fun u hu => ⟨u.quantile, u.epsilon, Target.build_eq_ok_iff.2 ⟨Target.valid_standard u hu, rfl⟩⟩
  have mem : t ∈ Target.standard :=
    Target.mem_standard.2 ⟨mem_reportedQuantiles.2 (by norm_num), rfl⟩
  have least : ∀ u ∈ Target.standard, t.epsilon ≤ u.epsilon := fun _ hu =>
    (Target.mem_standard.1 hu).2.ge
  have few := length_summary_lt accepted mem least finite (.inr descending)
  exact ⟨mem, descending, samples, few.2 samples⟩

end Sketch

end Telemetry
