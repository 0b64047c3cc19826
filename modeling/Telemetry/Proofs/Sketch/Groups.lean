import Telemetry.Proofs.Sketch.Conservation
import Telemetry.Proofs.Sketch.StandIns

/-!
# The groups behind the samples

A sample counts its value once for each value that it stands for, and which values these are is not
kept. They can be told apart all the same. A value that is woven in makes a group of its own, and a
sample that absorbs another takes over its group, which holds no greater values. So the inserted
values fall into one group for each sample, as many as its width and none above its value
(`grouped_toSamples`). Summed in exact arithmetic, the samples therefore never fall short of the
values (`sum_le_sampledSum`).
-/

namespace Telemetry

open LawfulMeasure

/-! ## Groups of values -/

namespace Sample

variable {ν ρ : Type} [Measure ν] [LawfulMeasure ν]

/-- The sample can stand for the group: it has as many values as the sample's width, the sample's
own among them and none of them greater. -/
structure StandsFor (group : List ν) (x : Sample ν) : Prop where
  length_eq : group.length = x.width
  mem : x.value ∈ group
  place_le : ∀ v ∈ group, place v ≤ place x.value

/-- The merged values fall into groups, one for each sample. -/
def Grouped (merged : List ν) (samples : List (Sample ν)) : Prop :=
  ∃ groups : List (List ν), groups.flatten.Perm merged ∧ List.Forall₂ StandsFor groups samples

variable {merged others : List ν} {groups : List (List ν)} {samples : List (Sample ν)} {v : ν}

theorem Grouped.nil : Grouped ([] : List ν) [] := ⟨[], .refl _, .nil⟩

theorem Grouped.perm (h : Grouped merged samples) (hm : merged.Perm others) :
    Grouped others samples := by
  obtain ⟨groups, perm, stands⟩ := h
  exact ⟨groups, perm.trans hm, stands⟩

theorem standsFor_singleton (v : ν) (delta : ℤ) : StandsFor [v] ⟨v, 1, delta⟩ :=
  ⟨rfl, List.mem_singleton_self v, List.forall_mem_singleton.2 le_rfl⟩

/-- A sample that absorbs a lesser one takes over its group. -/
theorem StandsFor.absorb {c x : Sample ν} {g h : List ν} (hc : StandsFor g c) (hx : StandsFor h x)
    (le : place c.value ≤ place x.value) :
    StandsFor (g ++ h) { x with width := x.width + c.width } where
  length_eq := by rw [List.length_append, hc.length_eq, hx.length_eq, Nat.add_comm]
  mem := List.mem_append_right _ hx.mem
  place_le := List.forall_mem_append.2 ⟨fun v hv => (hc.place_le v hv).trans le, hx.place_le⟩

/-- A value that is woven in is a group of its own. -/
theorem exists_groups_weaveOne {atHead : Bool} (v : ν) (h : List.Forall₂ StandsFor groups samples) :
    ∃ others : List (List ν), others.flatten.Perm (v :: groups.flatten) ∧
      List.Forall₂ StandsFor others (weaveOne atHead v samples) := by
  induction h generalizing atHead with
  | nil => exact ⟨[[v]], .refl _, .cons (standsFor_singleton v 0) .nil⟩
  | @cons group s groups rest stands h ih =>
    by_cases less : v < s.value
    · rw [weaveOne, if_pos less]
      exact ⟨[v] :: group :: groups, .refl _, .cons (standsFor_singleton v _) (.cons stands h)⟩
    · rw [weaveOne, if_neg less]
      obtain ⟨others, perm, stand⟩ := @ih false
      refine ⟨group :: others, ?_, .cons stands stand⟩
      rw [List.flatten_cons, List.flatten_cons]
      exact (perm.append_left group).trans List.perm_middle

theorem Grouped.weaveOne {atHead : Bool} (h : Grouped merged samples) (v : ν) :
    Grouped (v :: merged) (weaveOne atHead v samples) := by
  obtain ⟨groups, perm, stands⟩ := h
  obtain ⟨others, woven, stand⟩ := exists_groups_weaveOne v stands
  exact ⟨others, woven.trans (perm.cons v), stand⟩

section Condense

variable [Precision ρ]

/-- The first sample kept has the value of one that was there, and the samples kept take over all
groups. -/
def TakesOver (samples kept : List (Sample ν)) : Prop :=
  (∀ x ∈ kept.head?, ∃ s ∈ samples, s.value = x.value) ∧
    (samples.Pairwise (fun s t => place s.value ≤ place t.value) →
      ∀ groups : List (List ν), List.Forall₂ StandsFor groups samples →
        ∃ others : List (List ν), others.flatten = groups.flatten ∧
          List.Forall₂ StandsFor others kept)

/-- Joining samples joins their groups. -/
theorem takesOver_kept (limit : ℤ → ρ) (m : ℤ) (samples : List (Sample ν)) :
    TakesOver samples (samples.foldr (Folding.take limit) ⟨m, []⟩).kept := by
  refine kept_induction (P := TakesOver) ?_ ?_ ?_ ?_
  · exact ⟨by simp, fun _ groups h => ⟨groups, rfl, h⟩⟩
  · rintro c xs ⟨-, ih⟩
    refine ⟨by simp, fun ascending groups h => ?_⟩
    obtain ⟨g, gs, stands, rest, rfl⟩ := List.forall₂_cons_right_iff.1 h
    obtain ⟨others, flatten, none⟩ := ih ascending.of_cons gs rest
    rw [List.forall₂_nil_right_iff.1 none] at flatten
    exact ⟨[g], congrArg (g ++ ·) flatten, .cons stands .nil⟩
  · rintro c xs x kept ⟨head, ih⟩ -
    obtain ⟨s, hs, same⟩ := head x rfl
    refine ⟨fun y hy => ?_, fun ascending groups h => ?_⟩
    · obtain rfl := Option.some.inj hy
      exact ⟨s, List.mem_cons_of_mem _ hs, same⟩
    · obtain ⟨g, gs, stands, rest, rfl⟩ := List.forall₂_cons_right_iff.1 h
      obtain ⟨others, flatten, stand⟩ := ih ascending.of_cons gs rest
      obtain ⟨g', gs', stands', rest', rfl⟩ := List.forall₂_cons_right_iff.1 stand
      -- The value of `x` is that of a sample behind `c`, so its group can take in that of `c`.
      have le : place c.value ≤ place x.value := same ▸ List.rel_of_pairwise_cons ascending hs
      refine ⟨(g ++ g') :: gs', ?_, .cons (stands.absorb stands' le) rest'⟩
      rw [List.flatten_cons, List.append_assoc, ← List.flatten_cons, flatten, List.flatten_cons]
  · rintro c xs x kept ⟨-, ih⟩ -
    refine ⟨fun y hy => ?_, fun ascending groups h => ?_⟩
    · obtain rfl := Option.some.inj hy
      exact ⟨c, List.mem_cons_self, rfl⟩
    · obtain ⟨g, gs, stands, rest, rfl⟩ := List.forall₂_cons_right_iff.1 h
      obtain ⟨others, flatten, stand⟩ := ih ascending.of_cons gs rest
      exact ⟨g :: others, congrArg (g ++ ·) flatten, .cons stands stand⟩

theorem Grouped.condense (h : Grouped merged samples)
    (ascending : samples.Pairwise fun s t => place s.value ≤ place t.value) (limit : ℤ → ρ)
    (m : ℕ) : Grouped merged (condense limit m samples) := by
  obtain ⟨groups, perm, stands⟩ := h
  cases stands with
  | nil => exact ⟨[], perm, .nil⟩
  | @cons group s groups rest stands rest_stands =>
    obtain ⟨others, flatten, stand⟩ :=
      (takesOver_kept limit ((m : ℤ) - 1) rest).2 ascending.of_cons groups rest_stands
    refine ⟨group :: others, ?_, .cons stands stand⟩
    rwa [List.flatten_cons, flatten]

end Condense

end Sample

namespace Sketch

section Groups

variable {ν ρ : Type} [Measure ν] [LawfulMeasure ν] [Precision ρ]

/-- An invariant of summaries holds of the samples that are read, with all inserted values. -/
theorem SummaryInvariant.toSamples {P : List ν → List (Sample ν) → Prop}
    {targets : List (Target ρ)} (invariant : SummaryInvariant targets P) {uses : List (Use ν ρ)}
    (numbers : ∀ v ∈ inserted uses, IsNumber v) :
    P (inserted uses) ((empty targets).run uses).toSamples.1 := by
  by_cases samples : ((empty targets).run uses).summary = []
  · rw [Sketch.toSamples, if_pos (List.isEmpty_iff.2 samples), sortedBuffer_run_of_nil samples]
    exact invariant.weave_sorted invariant.nil (List.forall_mem_nil _) numbers
  · have same := inserted_toSamples uses
    have all := invariant.run (uses ++ [.toSamples]) (same ▸ numbers)
    have merged : ((empty targets).run uses).settle.condense.merged = (inserted uses).length :=
      (holds_run targets uses).merged_settle
    rw [same, run_toSamples uses samples, merged, List.take_length] at all
    rw [toSamples_of_ne_nil samples]
    exact all

theorem grouped_invariant (targets : List (Target ρ)) :
    SummaryInvariant targets fun (merged : List ν) samples =>
      Sample.Faithful merged samples ∧ Sample.Grouped merged samples where
  nil := ⟨.nil, .nil⟩
  mem h := h.1.mem
  perm h hm := ⟨h.1.perm hm, h.2.perm hm⟩
  weaveOne h numbers hv := ⟨h.1.weaveOne numbers hv, h.2.weaveOne _⟩
  condense h := ⟨h.1.condense _ _, h.2.condense h.1.ascending _ _⟩

/-- The samples that are read are faithful to all inserted values, which fall into groups for
them. -/
theorem grouped_toSamples (targets : List (Target ρ)) {uses : List (Use ν ρ)}
    (numbers : ∀ v ∈ inserted uses, IsNumber v) :
    Sample.Faithful (inserted uses) ((empty targets).run uses).toSamples.1 ∧
      Sample.Grouped (inserted uses) ((empty targets).run uses).toSamples.1 :=
  (grouped_invariant targets).toSamples numbers

end Groups

/-! ## Sums in exact arithmetic -/

section Sums

variable {ν : Type} {groups : List (List ν)} {samples : List (Sample ν)} {f : ν → ℚ}

/-- The sum of samples, with stand-ins for their values. -/
theorem total_map_eq_sum (f : ν → ℚ) (samples : List (Sample ν)) :
    Sample.total (samples.map (Sample.map f)) =
      (samples.map fun x => f x.value * (x.width : ℚ)).sum := by
  rw [Sample.total, List.foldl_map, List.sum_eq_foldl, List.foldl_map]
  rfl

theorem sum_flatten_le_total
    (h : List.Forall₂ (fun group x => group.length = x.width ∧ ∀ v ∈ group, f v ≤ f x.value)
      groups samples) :
    (groups.flatten.map f).sum ≤ Sample.total (samples.map (Sample.map f)) := by
  rw [total_map_eq_sum]
  induction h with
  | nil => rfl
  | @cons group x groups samples same _ ih =>
    have part : (group.map f).sum ≤ f x.value * x.width := by
      have bound := List.sum_le_card_nsmul (group.map f) (f x.value)
        (List.forall_mem_map.2 same.2)
      rwa [List.length_map, same.1, nsmul_eq_mul, mul_comm] at bound
    rw [List.flatten_cons, List.map_append, List.sum_append, List.map_cons, List.sum_cons]
    exact add_le_add part ih

theorem sum_flatten_eq_total [Measure ν] [LawfulMeasure ν]
    (h : List.Forall₂ Sample.StandsFor groups samples)
    (single : ∀ x ∈ samples, x.width = 1) :
    (groups.flatten.map f).sum = Sample.total (samples.map (Sample.map f)) := by
  rw [total_map_eq_sum]
  induction h with
  | nil => rfl
  | @cons group x groups samples stands _ ih =>
    have single := List.forall_mem_cons.1 single
    obtain ⟨v, rfl⟩ := List.length_eq_one_iff.1 (stands.length_eq.trans single.1)
    have own : x.value = v := List.mem_singleton.1 stands.mem
    rw [List.flatten_cons, List.map_append, List.sum_append, List.map_singleton,
      List.sum_singleton, ih single.2, List.map_cons, List.sum_cons, single.1, Nat.cast_one,
      mul_one, own]

theorem total_le_mul {top : ℚ} (h : ∀ x ∈ samples, f x.value ≤ top) :
    Sample.total (samples.map (Sample.map f)) ≤ Sample.totalWidth samples * top := by
  rw [total_map_eq_sum]
  induction samples with
  | nil => simp
  | cons x samples ih =>
    have h := List.forall_mem_cons.1 h
    have part : f x.value * x.width ≤ x.width * top := by
      rw [mul_comm]
      exact mul_le_mul_of_nonneg_left h.1 (Nat.cast_nonneg _)
    rw [List.map_cons, List.sum_cons, Sample.totalWidth_cons, Nat.cast_add, add_mul]
    exact add_le_add part (ih h.2)

end Sums

/-- The values of a group do not exceed its sample's, as doubles and as the numbers that they stand
for. -/
theorem forall₂_le_of_standsFor {values : List Float} {groups : List (List Float)}
    {samples : List (Sample Float)} (finite : ∀ v ∈ values, v.isFinite = true)
    (faithful : Sample.Faithful values samples) (perm : groups.flatten.Perm values)
    (stands : List.Forall₂ Sample.StandsFor groups samples) :
    List.Forall₂ (fun group x => group.length = x.width ∧
      ∀ v ∈ group, v ≤ x.value ∧ Binary64.toRat v ≤ Binary64.toRat x.value) groups samples := by
  rw [List.forall₂_iff_zip] at stands ⊢
  refine ⟨stands.1, fun {group x} h => ?_⟩
  have stand := stands.2 h
  obtain ⟨of_groups, of_samples⟩ := List.of_mem_zip h
  have own := finite _ (faithful.mem x of_samples)
  refine ⟨stand.length_eq, fun v hv => ?_⟩
  have member := finite v (perm.subset (List.mem_flatten_of_mem of_groups hv))
  have le := le_of_place_le (Binary64.isNaN_of_isFinite member) (Binary64.isNaN_of_isFinite own)
    (stand.place_le v hv)
  exact ⟨le, (Binary64.toRat_le_toRat_iff member own).2 le⟩

/-- The sum of the samples never falls short. After any run over finite values the sketch of the
numbers that they stand for holds the same samples. Its sampled sum is exact and lies between the
sum of all inserted values and as many times the greatest, and as long as every sample stands for
one value it is the sum. For the inserted values can be partitioned into groups, one for each
sample, with as many members as the sample is wide and none above its value. -/
theorem sum_le_sampledSum {ρ : Type} [Precision ρ] (targets : List (Target ρ))
    {uses : List (Use Float ρ)} (finite : ∀ v ∈ inserted uses, v.isFinite = true) :
    let s : Sketch Float ρ := (empty targets).run uses
    let ideal : Sketch ℚ ρ := (empty targets).run (uses.map (Use.map Binary64.toRat))
    ideal.toSamples.1 = s.toSamples.1.map (Sample.map Binary64.toRat) ∧
      ((inserted uses).map Binary64.toRat).sum ≤ ideal.sampledSum.1 ∧
      (∀ top ∈ inserted uses, (∀ v ∈ inserted uses, v ≤ top) →
        ideal.sampledSum.1 ≤ s.count * Binary64.toRat top) ∧
      ((∀ x ∈ s.toSamples.1, x.width = 1) →
        ((inserted uses).map Binary64.toRat).sum = ideal.sampledSum.1) ∧
      ∃ groups : List (List Float), groups.flatten.Perm (inserted uses) ∧
        List.Forall₂ (fun group x => group.length = x.width ∧ ∀ v ∈ group, v ≤ x.value) groups
          s.toSamples.1 := by
  intro s ideal
  have numbers : ∀ v ∈ inserted uses, IsNumber v := fun v hv =>
    Binary64.isNaN_of_isFinite (finite v hv)
  have samples : ideal.toSamples.1 = s.toSamples.1.map (Sample.map Binary64.toRat) :=
    ((standIns_run keepsOrder_toRat targets finite).toSamples keepsOrder_toRat
      (allOf_run targets finite)).1
  have estimate : ideal.sampledSum.1 =
      Sample.total (s.toSamples.1.map (Sample.map Binary64.toRat)) := congrArg Sample.total samples
  obtain ⟨faithful, groups, perm, stands⟩ := grouped_toSamples targets numbers
  have sum : ((inserted uses).map Binary64.toRat).sum = (groups.flatten.map Binary64.toRat).sum :=
    (perm.symm.map Binary64.toRat).sum_eq
  have bounded := forall₂_le_of_standsFor finite faithful perm stands
  refine ⟨samples, ?_, fun top htop greatest => ?_, fun single => ?_, groups, perm,
    bounded.imp fun _ _ h => ⟨h.1, fun v hv => (h.2 v hv).1⟩⟩
  · rw [sum, estimate]
    exact sum_flatten_le_total (bounded.imp fun _ _ h => ⟨h.1, fun v hv => (h.2 v hv).2⟩)
  · have count : s.count = Sample.totalWidth s.toSamples.1 :=
      (holds_run targets uses).count_eq.trans faithful.total.symm
    rw [estimate, count]
    refine total_le_mul fun x hx => ?_
    have own := faithful.mem x hx
    exact (Binary64.toRat_le_toRat_iff (finite _ own) (finite top htop)).2 (greatest _ own)
  · rw [sum, estimate]
    exact sum_flatten_eq_total stands single

theorem sum_le_sampledSum_oneBatch :
    let s : Sketch Float ℚ := (empty Target.standard).run oneBatch
    let ideal : Sketch ℚ ℚ := (empty Target.standard).run (oneBatch.map (Use.map Binary64.toRat))
    (∀ v ∈ inserted oneBatch, v.isFinite = true) ∧
      ((inserted oneBatch).map Binary64.toRat).sum ≤ ideal.sampledSum.1 ∧
      ∃ groups : List (List Float), groups.flatten.Perm (inserted oneBatch) ∧
        List.Forall₂ (fun group x => group.length = x.width ∧ ∀ v ∈ group, v ≤ x.value) groups
          s.toSamples.1 := by
  intro s ideal
  have finite : ∀ v ∈ inserted oneBatch, v.isFinite = true := by
    intro v hv
    obtain rfl := eq_one_of_mem_oneBatch v hv
    decide
  obtain ⟨-, below, -, -, groups⟩ := sum_le_sampledSum Target.standard finite
  exact ⟨finite, below, groups⟩

end Sketch

end Telemetry
