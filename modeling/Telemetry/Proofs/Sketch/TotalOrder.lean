import Telemetry.Proofs.Sketch.Unseen
import Telemetry.Proofs.Values

/-!
# Samples in the order of sorting

A batch is sorted by the total order of doubles and then woven in by comparing numbers. Whatever
order is meant, the samples are in it if each value is put where it belongs next to each value of the
batches before (`pairwise_toSamples`). Numbers are put where they stand, so that their samples do not
descend (`pairwise_le_toSamples`). The total order wants more: it tells the zeros apart, which are
equal numbers, and it has a place for NaN, which is none (`agrees_sortedLe_iff`). There the later
value is put behind the earlier one, and if the first batch held nothing else, these are the last and
the first sample that are read, whatever was joined between them (`sortedLe_of_pairwise_toSamples`).
So the total order can be relied on for just those values on which both orders agree
(`samples_ascending_iff`).
-/

namespace Telemetry

open LawfulMeasure

/-! ## The total order and the numbers -/

namespace Binary64

open Float.Model Float.Model.UnpackedFloat

variable {x y : Float}

theorem ne_nan_iff : x ≠ Float.nan ↔ x.isNaN = false := by
  rw [Float.isNaN_eq_decide_eq_nan, decide_eq_false_iff_not]

theorem place_le_of_isNaN_eq_false (h : x.isNaN = false) : place x ≤ 2047 * 2 ^ 52 := by
  have canonical := canonical_unpack_toModel x
  rw [← unpackedPlace_unpack h]
  cases unpacked : x.toModel.unpack with
  | notANumber | zero => simp [unpackedPlace]
  | infinity s => cases s <;> simp [unpackedPlace, Sign.apply]
  | finite s m e pos =>
    rw [unpacked] at canonical
    obtain ⟨low, high, small, -⟩ := canonical
    cases s <;> simp only [unpackedPlace, Sign.apply] <;> omega

/-- NaN is sorted to the end. -/
theorem totalLe_nan (x : Float) : totalLe x .nan = true := by
  by_cases nan : x = .nan
  · rw [nan]
    decide
  · have place_le := place_le_of_isNaN_eq_false (ne_nan_iff.1 nan)
    have top : (orderKey .nan).toNat = 2 ^ 63 + 4095 * 2 ^ 51 := by decide
    rw [totalLe_iff, UInt64.le_iff_toNat_le, top, toNat_orderKey]
    unfold place signedMagnitude at place_le
    split_ifs at place_le ⊢ <;> omega

theorem ne_nan_of_lt (h : x < y) : x ≠ .nan ∧ y ≠ .nan := by
  rw [ne_nan_iff, ne_nan_iff]
  change decide (x.toModel < y.toModel) = true at h
  rw [decide_eq_true_iff] at h
  change (x.toModel.unpack.compare y.toModel.unpack == some .lt) = true at h
  change x.toModel.unpack.isNaN = false ∧ y.toModel.unpack.isNaN = false
  cases left : x.toModel.unpack with
  | notANumber =>
    rw [left] at h
    cases h
  | infinity | zero | finite =>
    cases right : y.toModel.unpack with
    | notANumber =>
      rw [left, right] at h
      cases h
    | infinity | zero | finite => exact ⟨rfl, rfl⟩

theorem totalLe_of_lt (h : x < y) : totalLe x y = true := by
  obtain ⟨hx, hy⟩ := ne_nan_of_lt h
  rw [lt_iff_place_lt (ne_nan_iff.1 hx) (ne_nan_iff.1 hy)] at h
  refine (Bool.or_eq_true_iff.1 (totalLe_total x y)).resolve_right fun le => ?_
  exact (place_le_of_totalLe le).not_gt h

/-- Of numbers, only the zeros are sorted where they are not compared. -/
theorem totalLe_or_zeros (hx : x ≠ .nan) (hy : y ≠ .nan) (h : ¬y < x) :
    totalLe x y = true ∨ x = 0 ∧ y = -0 := by
  have hbx := x.toBits.toNat_lt
  have hby := y.toBits.toNat_lt
  have zero : (0 : Float).toBits.toNat = 0 := by decide
  have minus_zero : (-0 : Float).toBits.toNat = 2 ^ 63 := by decide
  have bits : ∀ a b : Float, a = b ↔ a.toBits.toNat = b.toBits.toNat := fun a b => by
    rw [UInt64.toNat_inj, Float.toBits_inj]
  rw [lt_iff_place_lt (ne_nan_iff.1 hy) (ne_nan_iff.1 hx), not_lt] at h
  rw [totalLe_iff, UInt64.le_iff_toNat_le, toNat_orderKey, toNat_orderKey, bits, bits, zero,
    minus_zero]
  unfold place signedMagnitude at h
  split_ifs at h ⊢ <;> omega

end Binary64

/-! ## Agreement -/

namespace LawfulMeasure

variable {ν : Type} [Measure ν]

/-- Wherever `y` is put by comparing it with `x`, the two are in the order `R`. -/
def Agrees (R : ν → ν → Prop) (x y : ν) : Prop := (y < x → R y x) ∧ (¬y < x → R x y)

/-- The order in which values are sorted. -/
def SortedLe (x y : ν) : Prop := Measure.sortLe x y = true

section Lawful

variable [LawfulMeasure ν] {x y : ν}

theorem sorted_pairwise_sortedLe (values : List ν) : (sorted values).Pairwise SortedLe :=
  List.pairwise_mergeSort sortLe_trans sortLe_total values

/-- The first of ascending values comes before the last one, or is the same. -/
theorem sortedLe_of_head?_of_getLast? {values : List ν} (ascending : values.Pairwise SortedLe)
    (first : values.head? = some x) (last : values.getLast? = some y) : SortedLe x y := by
  obtain ⟨rest, rfl⟩ := List.head?_eq_some_iff.1 first
  rw [List.getLast?_cons, Option.some_inj] at last
  cases later : rest.getLast? with
  | none =>
    rw [later, Option.getD_none] at last
    simpa [SortedLe, last] using sortLe_total x y
  | some w =>
    rw [later, Option.getD_some] at last
    exact List.rel_of_pairwise_cons ascending (last ▸ List.mem_of_getLast? later)

/-- Numbers are put where they stand. -/
theorem agrees_place (hx : IsNumber x) (hy : IsNumber y) :
    Agrees (fun v w => place v ≤ place w) x y :=
  ⟨fun less => ((lt_iff_place_lt hy hx).1 less).le, (not_lt_iff_place_le hy hx).1⟩

end Lawful

/-- Doubles are put where they are sorted, but for a negative zero that is put behind a zero and a
number that is put behind NaN. -/
theorem agrees_sortedLe_iff {x y : Float} :
    Agrees SortedLe x y ↔ ¬(x = 0 ∧ y = -0) ∧ (x = .nan → y = .nan) := by
  constructor
  · rintro ⟨-, behind⟩
    refine ⟨?_, ?_⟩
    · rintro ⟨rfl, rfl⟩
      have le : Binary64.totalLe 0 (-0) = true := behind (by decide)
      exact absurd le (by decide)
    · rintro rfl
      have le := behind fun less => (Binary64.ne_nan_of_lt less).2 rfl
      exact SortsStrictly.sortLe_antisymm (Binary64.totalLe_nan y) le
  · rintro ⟨zeros, numbers⟩
    refine ⟨Binary64.totalLe_of_lt, fun behind => ?_⟩
    by_cases hy : y = .nan
    · rw [hy]
      exact Binary64.totalLe_nan x
    · exact (Binary64.totalLe_or_zeros (mt numbers hy) hy behind).resolve_right zeros

end LawfulMeasure

/-! ## Weaving in order -/

namespace Sample

variable {ν : Type} [Measure ν] {samples : List (Sample ν)} {values : List ν} {atHead : Bool}
  {R : ν → ν → Prop}

theorem map_value_weave_cons (s : Sample ν) :
    (weave atHead values (s :: samples)).map value =
      values.takeWhile (· < s.value) ++
        s.value :: (weave false (values.dropWhile (· < s.value)) samples).map value := by
  rw [weave, List.map_append, inFrontOf_eq_front, map_value_front, List.map_cons]

/-- Values in order are woven into samples in order, if each of them is put in order with each
sample. -/
theorem pairwise_weave (trans : ∀ u v w, R u v → R v w → R u w) (ordered : values.Pairwise R)
    (hs : (samples.map value).Pairwise R)
    (agree : ∀ s ∈ samples, ∀ v ∈ values, Agrees R s.value v) :
    ((weave atHead values samples).map value).Pairwise R := by
  induction samples generalizing values atHead with
  | nil => rwa [weave, map_value_exact]
  | cons s rest ih =>
    have agree := List.forall_mem_cons.1 agree
    have hs := List.pairwise_cons.1 hs
    have taken := ordered.sublist (List.takeWhile_sublist fun v => decide (v < s.value))
    have dropped := ordered.sublist (List.dropWhile_sublist fun v => decide (v < s.value))
    have in_front : ∀ v ∈ values.takeWhile (· < s.value), R v s.value := by
      intro v hv
      have less : decide (v < s.value) = true := List.mem_takeWhile_imp (p := (· < s.value)) hv
      exact (agree.1 v ((List.takeWhile_prefix _).subset hv)).1 (of_decide_eq_true less)
    -- the first value that is not put in front is not less than `s`, and the others come after it
    have behind : ∀ v ∈ values.dropWhile (· < s.value), R s.value v := by
      have stop := List.head?_dropWhile_not (· < s.value) values
      have mem := fun v hv => agree.1 v ((List.dropWhile_suffix (· < s.value)).subset hv)
      cases rest : values.dropWhile (· < s.value) with
      | nil => simp
      | cons w rest =>
        rw [rest] at stop mem dropped
        have first := (mem w List.mem_cons_self).2 (of_decide_eq_false stop)
        refine List.forall_mem_cons.2 ⟨first, fun v hv => ?_⟩
        exact trans _ _ _ first (List.rel_of_pairwise_cons dropped hv)
    have later : ∀ v ∈ (weave false (values.dropWhile (· < s.value)) rest).map value,
        R s.value v := by
      intro v hv
      rcases List.mem_append.1 (map_value_weave_perm.subset hv) with hv | hv
      · exact behind v hv
      · exact hs.1 v hv
    rw [map_value_weave_cons, List.pairwise_append]
    refine ⟨taken, List.pairwise_cons.2 ⟨later, ih dropped hs.2 fun t ht v hv =>
      agree.2 t ht v ((List.dropWhile_suffix _).subset hv)⟩, fun v hv w hw => ?_⟩
    rcases List.mem_cons.1 hw with rfl | hw
    · exact in_front v hv
    · exact trans _ _ _ (in_front v hv) (later w hw)

end Sample

namespace Sketch

theorem mem_inserted_of_mem_close_cut {ν ρ : Type} {uses : List (Use ν ρ)} {batch : List ν} {v : ν}
    (hb : batch ∈ (cut uses).close.batches) (hv : v ∈ batch) : v ∈ inserted uses := by
  have all := flatten_cut (uses ++ [.toSamples])
  rw [inserted_toSamples, cut_concat, Cut.use] at all
  rw [← all]
  exact List.mem_append_left _ (List.mem_flatten.2 ⟨batch, hb, hv⟩)

variable {ν ρ : Type} [Measure ν] [Precision ρ] {R : ν → ν → Prop}

/-! ## Merging in order -/

section Merging

variable {targets : List (Target ρ)} {state : ℕ × List (Sample ν)} {batch : List ν}
  {batches : List (List ν)}

/-- Merging makes up no values. -/
theorem mem_of_mem_mergeBatch {v : ν}
    (hv : v ∈ (mergeBatch targets state batch).2.map Sample.value) :
    v ∈ batch ∨ v ∈ state.2.map Sample.value := by
  have woven := (Sample.map_value_condense_sublist _ _ _).subset hv
  rcases List.mem_append.1 (Sample.map_value_weave_perm.subset woven) with hv | hv
  · exact .inl ((sorted_perm batch).subset hv)
  · exact .inr hv

theorem mem_of_mem_mergeBatches :
    ∀ x ∈ (mergeBatches targets batches).2, ∃ batch ∈ batches, x.value ∈ batch := by
  induction batches using List.reverseRecOn with
  | nil => simp [mergeBatches]
  | append_singleton batches batch ih =>
    intro x hx
    rw [mergeBatches_concat] at hx
    rcases mem_of_mem_mergeBatch (List.mem_map_of_mem hx) with last | earlier
    · exact ⟨batch, by simp, last⟩
    · obtain ⟨y, hy, eq⟩ := List.mem_map.1 earlier
      obtain ⟨first, hf, mem⟩ := ih y hy
      exact ⟨first, List.mem_append_left _ hf, eq ▸ mem⟩

/-- Batches whose values are put in order with all those in the batches before leave samples in
order. -/
theorem pairwise_mergeBatches (trans : ∀ u v w, R u v → R v w → R u w)
    (ordered : ∀ batch : List ν, (sorted batch).Pairwise R)
    (agree : batches.Pairwise fun first later => ∀ x ∈ first, ∀ y ∈ later, Agrees R x y) :
    ((mergeBatches targets batches).2.map Sample.value).Pairwise R := by
  induction batches using List.reverseRecOn with
  | nil => simp [mergeBatches]
  | append_singleton batches batch ih =>
    obtain ⟨before, -, last⟩ := List.pairwise_append.1 agree
    rw [mergeBatches_concat]
    refine List.Pairwise.sublist (Sample.map_value_condense_sublist _ _ _)
      (Sample.pairwise_weave trans (ordered batch) (ih before) fun x hx v hv => ?_)
    obtain ⟨first, hf, mem⟩ := mem_of_mem_mergeBatches x hx
    exact last first hf batch List.mem_cons_self _ mem v ((sorted_perm batch).subset hv)

end Merging

/-! ## Samples that are read -/

section Reading

variable [LawfulPrecision ρ] {uses : List (Use ν ρ)}

/-- The samples after any run are its sorted values until some are merged, and then those that its
batches leave. -/
theorem toSamples_run (targets : List (Target ρ)) (uses : List (Use ν ρ)) :
    ((empty targets).run uses).toSamples.1 =
      if (cut uses).batches = [] then (sorted (cut uses).waiting).map Sample.exact
      else (mergeBatches targets (cut uses).close.batches).2 := by
  have held := at_run targets uses
  have filled := ne_nil_of_mem_cut uses
  have samples : ((empty targets).run uses).summary = [] ↔ (cut uses).batches = [] := by
    rw [← mergeBatches_snd_eq_nil_iff targets filled, ← held.state_eq]
  split_ifs with none
  · rw [toSamples, if_pos (List.isEmpty_iff.2 (samples.2 none)), sortedBuffer, held.buffer_eq]
    rfl
  · have nonempty := mt samples.1 none
    have closed := held.close_cut filled
    rw [rested_of_ne_nil nonempty] at closed
    rw [(condensed_run targets uses).toSamples_eq nonempty, ← closed.state_eq]

theorem mem_inserted_of_mem_toSamples (targets : List (Target ρ)) (uses : List (Use ν ρ)) :
    ∀ x ∈ ((empty targets).run uses).toSamples.1, x.value ∈ inserted uses := by
  intro x hx
  rw [toSamples_run] at hx
  split_ifs at hx with none
  · obtain ⟨v, hv, rfl⟩ := List.mem_map.1 hx
    rw [← flatten_cut uses]
    exact List.mem_append_right _ ((sorted_perm _).subset hv)
  · obtain ⟨batch, hb, mem⟩ := mem_of_mem_mergeBatches x hx
    exact mem_inserted_of_mem_close_cut hb mem

/-- An order that sorting keeps is kept by the samples after any run whose batches are put in that
order. -/
theorem pairwise_toSamples (targets : List (Target ρ)) (trans : ∀ u v w, R u v → R v w → R u w)
    (ordered : ∀ batch : List ν, (sorted batch).Pairwise R)
    (agree : (cut uses).close.batches.Pairwise
      fun first later => ∀ x ∈ first, ∀ y ∈ later, Agrees R x y) :
    (((empty targets).run uses).toSamples.1.map Sample.value).Pairwise R := by
  rw [toSamples_run]
  split_ifs with none
  · rw [Sample.map_value_exact]
    exact ordered _
  · exact pairwise_mergeBatches trans ordered agree

/-- A first batch of one value begins the samples, and a value that is not less ends them. So the
two are in the order of sorting if the samples are. -/
theorem sortedLe_of_pairwise_toSamples [LawfulMeasure ν] (targets : List (Target ρ)) {x y : ν}
    (behind : ¬y < x)
    (ascending : (((empty targets).run
      (insertions (List.replicate capacity x ++ [y]))).toSamples.1.map Sample.value).Pairwise
        SortedLe) :
    SortedLe x y := by
  let batch := List.replicate capacity x
  have cuts : cut (insertions (batch ++ [y]) : List (Use ν ρ)) = ⟨[batch], [y]⟩ :=
    (full_cut_insertions _).eq_singleton List.length_replicate (Nat.one_lt_succ_succ _)
  have closed : (cut (insertions (batch ++ [y]) : List (Use ν ρ))).close =
      ⟨[batch] ++ [[y]], []⟩ := by
    rw [cuts]
    exact Cut.close_eq_concat (List.cons_ne_nil _ _) (List.cons_ne_nil _ _)
  rw [toSamples_run, if_neg (cuts ▸ List.cons_ne_nil _ _), closed, mergeBatches_concat] at ascending
  have value_eq : ∀ s ∈ (mergeBatches targets [batch]).2, s.value = x := by
    intro s hs
    obtain ⟨_, hb, mem⟩ := mem_of_mem_mergeBatches s hs
    exact List.eq_of_mem_replicate (List.mem_singleton.1 hb ▸ mem)
  have samples : (mergeBatches targets [batch]).2 ≠ [] :=
    mergeBatch_ne_nil _ (List.cons_ne_nil x (List.replicate 499 x))
  have above : ∀ s ∈ (mergeBatches targets [batch]).2, ∀ v ∈ [y], ¬v < s.value := by
    intro s hs v hv
    rwa [value_eq s hs, List.mem_singleton.1 hv]
  generalize merged : mergeBatch targets (mergeBatches targets [batch]) [y] = state at ascending
  have first : (state.2.map Sample.value).head? = some x := by
    rw [← merged, List.head?_map, head?_mergeBatch above samples, List.head?_eq_some_head samples]
    exact congrArg some (value_eq _ (List.head_mem samples))
  have last : (state.2.map Sample.value).getLast? = some y := by
    rw [← merged, getLast?_mergeBatch above (List.cons_ne_nil y []), sorted,
      List.mergeSort_singleton]
    rfl
  exact sortedLe_of_head?_of_getLast? ascending first last

end Reading

/-! ## Doubles in order -/

/-- The samples that are read ascend in the total order. -/
def SamplesAscend (s : Sketch Float Float) : Prop :=
  (s.toSamples.1.map Sample.value).Pairwise fun v w => Binary64.totalLe v w = true

/-- No batch has a 0 where a later one has a -0, nor NaN where a later one has a number. -/
def InStep (batches : List (List Float)) : Prop :=
  batches.Pairwise fun first later =>
    ∀ x ∈ first, ∀ y ∈ later, ¬(x = 0 ∧ y = -0) ∧ (x = .nan → y = .nan)

section Doubles

variable {uses : List (Use Float Float)}

theorem InStep.samplesAscend (h : InStep (cut uses).close.batches)
    (targets : List (Target Float)) : ((empty targets).run uses).SamplesAscend :=
  pairwise_toSamples targets sortLe_trans sorted_pairwise_sortedLe
    (h.imp fun agree x hx y hy => agrees_sortedLe_iff.2 (agree x hx y hy))

/-- The samples of numbers do not descend. -/
theorem pairwise_le_toSamples (targets : List (Target Float))
    (numbers : ∀ v ∈ inserted uses, v ≠ .nan) :
    (((empty targets).run uses).toSamples.1.map Sample.value).Pairwise (· ≤ ·) := by
  have number : ∀ v ∈ inserted uses, IsNumber v := fun v hv => Binary64.ne_nan_iff.1 (numbers v hv)
  have ascending : (((empty targets).run uses).toSamples.1.map Sample.value).Pairwise
      fun v w => place v ≤ place w := by
    refine pairwise_toSamples targets (fun _ _ _ => le_trans) sorted_pairwise
      (List.pairwise_of_forall_mem_list fun first hf later hl x hx y hy => ?_)
    exact agrees_place (number x (mem_inserted_of_mem_close_cut hf hx))
      (number y (mem_inserted_of_mem_close_cut hl hy))
  refine ascending.imp_of_mem fun hv hw le => ?_
  obtain ⟨x, hx, rfl⟩ := List.mem_map.1 hv
  obtain ⟨y, hy, rfl⟩ := List.mem_map.1 hw
  exact le_of_place_le (number _ (mem_inserted_of_mem_toSamples targets uses x hx))
    (number _ (mem_inserted_of_mem_toSamples targets uses y hy)) le

end Doubles

/-- Whatever the targets are, samples of numbers do not descend, and after every run whose batches
are in step the samples ascend in the total order. All runs over some values leave such samples if
and only if the values do not include both zeros, nor NaN beside a number. -/
theorem samples_ascending_iff (targets : List (Target Float)) :
    (∀ uses : List (Use Float Float), (∀ v ∈ inserted uses, v ≠ .nan) →
      (((empty targets).run uses).toSamples.1.map Sample.value).Pairwise (· ≤ ·)) ∧
    (∀ uses : List (Use Float Float), InStep (cut uses).close.batches →
      ((empty targets).run uses).SamplesAscend) ∧
    ∀ V : Float → Prop,
      (∀ uses : List (Use Float Float), (∀ v ∈ inserted uses, V v) →
        ((empty targets).run uses).SamplesAscend) ↔
      ¬(V 0 ∧ V (-0)) ∧ (V .nan → ∀ v, V v → v = .nan) := by
  refine ⟨fun uses => pairwise_le_toSamples targets, fun uses h => h.samplesAscend targets,
    fun V => ⟨fun ascend => ?_, ?_⟩⟩
  · have agree : ∀ x y, V x → V y → Agrees SortedLe x y := by
      intro x y hx hy
      refine ⟨Binary64.totalLe_of_lt, fun behind => ?_⟩
      refine sortedLe_of_pairwise_toSamples targets behind (ascend _ ?_)
      rw [inserted_insertions]
      refine List.forall_mem_append.2 ⟨fun v hv => ?_, List.forall_mem_singleton.2 hy⟩
      rwa [List.eq_of_mem_replicate hv]
    refine ⟨fun zeros => ?_, fun nan v hv => ?_⟩
    · exact (agrees_sortedLe_iff.1 (agree 0 (-0) zeros.1 zeros.2)).1 ⟨rfl, rfl⟩
    · exact (agrees_sortedLe_iff.1 (agree _ v nan hv)).2 rfl
  · rintro ⟨zeros, numbers⟩ uses values
    have mem : ∀ batch ∈ (cut uses).close.batches, ∀ v ∈ batch, V v := fun batch hb v hv =>
      values v (mem_inserted_of_mem_close_cut hb hv)
    have in_step : InStep (cut uses).close.batches := by
      refine List.pairwise_of_forall_mem_list fun first hf later hl x hx y hy => ⟨?_, ?_⟩
      · rintro ⟨rfl, rfl⟩
        exact zeros ⟨mem first hf _ hx, mem later hl _ hy⟩
      · rintro rfl
        exact numbers (mem first hf _ hx) y (mem later hl y hy)
    exact in_step.samplesAscend targets

/-- A number that comes after a batch of NaN is the last sample. -/
theorem not_forall_samples_ascending :
    ¬∀ (targets : List (Target Float)) (uses : List (Use Float Float)),
      ((empty targets).run uses).SamplesAscend := by
  intro ascend
  have le : Binary64.totalLe .nan 1 = true :=
    sortedLe_of_pairwise_toSamples [⟨0.5, 0.0001⟩] (by decide) (ascend _ _)
  exact absurd le (by decide)

end Sketch

end Telemetry
