import Telemetry.Proofs.Sketch.Calm
import Telemetry.Proofs.Sketch.DoubleRanks

/-!
# Which reads later answers depend on

Reads at calm numbers of values leave no trace in later answers, and no others are sure to
(`quantile_unseen_iff`). At any other number zeros may have come, some of which wait. A read merges
these, so that a negative zero after it becomes the last sample, while it is sorted before them
otherwise. An infinite quantile tells the two apart. The difference need not be in a sign: a read
can also move the answer for a reported quantile to another number
(`not_forall_quantile_unseen`).
-/

namespace Telemetry

variable {ν ρ : Type}

/-! ## The last sample -/

namespace Sample

theorem map_value_exact (values : List ν) : (values.map exact).map value = values := by
  rw [List.map_map]
  exact List.map_id values

variable [Precision ρ]

/-- However samples are joined, the last one keeps its value. -/
theorem getLast?_map_value_condense (limit : ℤ → ρ) (merged : ℕ) (xs : List (Sample ν)) :
    ((condense limit merged xs).map value).getLast? = (xs.map value).getLast? := by
  have kept : ∀ m (xs : List (Sample ν)),
      ((xs.foldr (Folding.take limit) ⟨m, []⟩).kept.map value).getLast? =
        (xs.map value).getLast? := by
    intro m xs
    refine kept_induction (P := fun xs kept =>
      (kept.map value).getLast? = (xs.map value).getLast?) rfl ?_ ?_ ?_
    · intro c xs ih
      rw [List.map_cons, List.map_cons, List.getLast?_cons, List.getLast?_cons, ih]
    · intro c xs x kept ih _
      rw [List.map_cons, List.getLast?_cons] at ih
      rw [List.map_cons, List.map_cons, List.getLast?_cons, List.getLast?_cons, ← ih,
        Option.getD_some]
    · intro c xs x kept ih _
      rw [List.map_cons, List.map_cons (l := xs), List.getLast?_cons, List.getLast?_cons, ih]
  cases xs with
  | nil => rfl
  | cons s rest =>
    rw [condense, List.map_cons, List.map_cons, List.getLast?_cons, List.getLast?_cons, kept]

/-- A search for which no rank is too great ends at the last sample. -/
theorem seek_of_not_lt {threshold : ρ} (all : ∀ a, ¬threshold < Precision.ofInt a) (before : ℕ)
    (held : Sample ν) (rest : List (Sample ν)) :
    some (seek threshold before held rest) = ((held :: rest).map value).getLast? := by
  induction rest generalizing before held with
  | nil => rfl
  | cons s rest ih =>
    rw [seek, if_neg (all _), ih]
    simp only [List.map_cons, List.getLast?_cons_cons]

end Sample

namespace Sketch

variable [Measure ν] [Precision ρ] {targets : List (Target ρ)} {state : ℕ × List (Sample ν)}

section Above

variable {batch : List ν} (above : ∀ x ∈ state.2, ∀ v ∈ batch, ¬v < x.value)

include above

/-- Values that are not less than any sample's go to the end. -/
theorem weave_sorted_eq_append : Sample.weave true (LawfulMeasure.sorted batch) state.2 =
    state.2 ++ (LawfulMeasure.sorted batch).map Sample.exact :=
  Sample.weave_eq_append fun x hx v hv => above x hx v ((LawfulMeasure.sorted_perm batch).subset hv)

/-- The first sample stays before them. -/
theorem head?_mergeBatch (samples : state.2 ≠ []) :
    (mergeBatch targets state batch).2.head? = state.2.head? := by
  rw [mergeBatch]
  dsimp only
  rw [Sample.head?_condense, weave_sorted_eq_append above, List.head?_append_of_ne_nil _ samples]

/-- The greatest of them is the last. -/
theorem getLast?_mergeBatch (filled : batch ≠ []) :
    ((mergeBatch targets state batch).2.map Sample.value).getLast? =
      (LawfulMeasure.sorted batch).getLast? := by
  have ne_nil : LawfulMeasure.sorted batch ≠ [] := fun nil =>
    filled (nil ▸ LawfulMeasure.sorted_perm batch).nil_eq.symm
  rw [mergeBatch]
  dsimp only
  rw [Sample.getLast?_map_value_condense, weave_sorted_eq_append above, List.map_append,
    Sample.map_value_exact, List.getLast?_append_of_ne_nil _ ne_nil]

end Above

end Sketch

/-! ## An infinite quantile -/

namespace Binary64

open Float.Model

/-- The double above all others. -/
def infinity : Float := Float.ofBits 0x7FF0000000000000

theorem unpack_infinity : infinity.toModel.unpack = .infinity .positive := rfl

theorem not_infinity_add_lt (x y : Float) : ¬infinity + x < y := by
  have sum : ∀ u : UnpackedFloat, UnpackedFloat.add Format.binary64 (.infinity .positive) u =
      .infinity .positive ∨ UnpackedFloat.add Format.binary64 (.infinity .positive) u =
        .notANumber := by
    intro u
    cases u with
    | infinity s => cases s <;> simp [UnpackedFloat.add]
    | notANumber | zero | finite => simp [UnpackedFloat.add]
  intro less
  change decide ((infinity + x).toModel < y.toModel) = true at less
  rw [decide_eq_true_iff] at less
  change ((packed (UnpackedFloat.add Format.binary64 infinity.toModel.unpack
    x.toModel.unpack)).toModel.unpack.compare y.toModel.unpack == some .lt) = true at less
  rw [unpack_infinity, beq_iff_eq] at less
  rcases sum x.toModel.unpack with eq | eq
  · rw [eq, unpack_packed (u := .infinity .positive) trivial] at less
    cases unpacked : y.toModel.unpack with
    | infinity s =>
      rw [unpacked] at less
      cases s <;> exact absurd less (by decide)
    | notANumber | zero | finite =>
      rw [unpacked] at less
      cases less
  · rw [eq, unpack_packed (u := .notANumber) trivial] at less
    cases less

theorem infinity_mul_ofNat {n : ℕ} (hn : 0 < n) : infinity * Float.ofNat n = infinity := by
  obtain ⟨m, e, pos, eq, low, high, bound, -⟩ := exists_ofNat hn
  change packed (UnpackedFloat.mul Format.binary64 infinity.toModel.unpack
    (Float.ofNat n).toModel.unpack) = infinity
  rw [unpack_infinity, eq]
  rcases le_or_gt e 971 with fits | overflow
  · rw [unpack_packed (u := .finite .positive m e pos) ⟨bound, fits, high, .inr low⟩]
    rfl
  · rw [packed_congr (pack_of_overflow overflow), unpack_packed (u := .infinity .positive) trivial]
    rfl

theorem ceiling_infinity : ceiling infinity = infinity := by
  rw [ceiling, if_neg (by decide), if_neg (by decide)]

end Binary64

namespace Sketch

open Binary64

/-- No rank is too great for an infinite quantile: the last sample answers. -/
theorem foundIn_infinity (targets : List (Target Float)) {state : ℕ × List (Sample ν)}
    (merged : 0 < state.1) :
    foundIn targets infinity state = (state.2.map Sample.value).getLast? := by
  have rank : Precision.ceiling (infinity * Precision.ofInt (state.1 : ℤ)) = infinity :=
    (congrArg ceiling (infinity_mul_ofNat merged)).trans ceiling_infinity
  unfold foundIn
  cases samples : state.2 with
  | nil => rfl
  | cons first rest =>
    refine Sample.seek_of_not_lt (fun a => ?_) 0 first rest
    rw [thresholdOf, rank]
    exact not_infinity_add_lt _ _

/-! ## Reads that can be told -/

section Insertions

variable {values others : List ν} {u : Use ν ρ}

theorem not_isRead_of_mem_insertions (h : u ∈ (insertions values : List (Use ν ρ))) :
    ¬u.IsRead := by
  obtain ⟨v, -, rfl⟩ := List.mem_map.1 h
  exact fun read => read v rfl

/-- A single read among insertions. -/
theorem readsAt_append_cons {A : ℕ → Prop} (h : A values.length) :
    ReadsAt A (insertions values ++ u :: insertions others) := by
  intro pre w post eq read _
  have here : A (inserted (insertions values : List (Use ν ρ))).length := by
    rwa [inserted_insertions]
  rcases List.append_eq_append_iff.1 eq with ⟨between, rfl, rest⟩ | ⟨between, split, rest⟩
  · cases between with
    | nil => rwa [List.append_nil]
    | cons x between =>
      have later : w ∈ (insertions others : List (Use ν ρ)) := by
        rw [(List.cons.inj rest).2]
        simp
      exact absurd read (not_isRead_of_mem_insertions later)
  · cases between with
    | nil => rwa [split, List.append_nil] at here
    | cons x between =>
      have earlier : w ∈ (insertions values : List (Use ν ρ)) := by
        rw [split, (List.cons.inj rest).1]
        simp
      exact absurd read (not_isRead_of_mem_insertions earlier)

end Insertions

/-- Of zeros, the positive ones are sorted to the end. -/
theorem getLast?_sorted_of_zeros {values : List Float} (zero : (0 : Float) ∈ values)
    (zeros : ∀ v ∈ values, v = 0 ∨ v = -0) : (LawfulMeasure.sorted values).getLast? = some 0 := by
  have perm := LawfulMeasure.sorted_perm values
  have ordered : (LawfulMeasure.sorted values).Pairwise fun v w => Measure.sortLe v w = true :=
    List.pairwise_mergeSort LawfulMeasure.sortLe_trans LawfulMeasure.sortLe_total values
  rcases (LawfulMeasure.sorted values).eq_nil_or_concat' with nil | ⟨init, last, eq⟩
  · exact absurd (nil ▸ perm.symm.subset zero) List.not_mem_nil
  · rw [eq] at perm ordered ⊢
    rw [List.getLast?_concat]
    rcases zeros last (perm.subset (by simp)) with rfl | rfl
    · rfl
    · rcases List.mem_append.1 (perm.symm.subset zero) with before | same
      · have le := (List.pairwise_append.1 ordered).2.2 0 before (-0) List.mem_cons_self
        exact absurd le (by decide)
      · exact absurd (List.mem_singleton.1 same) (by decide)

/-- After zeros, of which some were merged, and a negative zero, the last sample holds what is
sorted to the end of the last batch. -/
theorem quantile_infinity_zeros (targets : List (Target Float)) {uses : List (Use Float Float)}
    (zeros : ∀ v ∈ inserted uses, v = 0) (merged : (cut uses).batches ≠ []) :
    some (((empty targets).run (uses ++ [.insert (-0)])).quantile infinity).1 =
      (LawfulMeasure.sorted ((cut uses).waiting ++ [-0])).getLast? := by
  have held := at_run targets uses
  have numbers : ∀ v ∈ inserted uses, LawfulMeasure.IsNumber v := by
    intro v hv
    rw [zeros v hv]
    exact isNaN_ofNat 0
  have sample_zero : ∀ x ∈ (mergeBatches targets (cut uses).batches).2, x.value = 0 := by
    intro x hx
    rw [← held.state_eq] at hx
    exact zeros _ (List.mem_of_mem_take ((faithful_run targets uses numbers).mem x hx))
  rw [← foundIn_push targets merged, foundIn_infinity targets (by simp [mergeBatch])]
  refine getLast?_mergeBatch (fun x hx v hv => ?_) (by simp)
  rw [sample_zero x hx]
  rcases List.mem_append.1 hv with hv | hv
  · rw [zeros v (flatten_cut uses ▸ List.mem_append_right _ hv)]
    decide
  · rw [List.mem_singleton.1 hv]
    decide

/-- Zeros that are read where their number is not calm, and then a negative zero. -/
theorem quantile_ne_of_not_calm (targets : List (Target Float)) {n : ℕ} (hn : ¬Calm n) :
    let zeros : List (Use Float Float) := insertions (List.replicate n 0)
    (((empty targets).run (zeros ++ [.quantile infinity] ++ [.insert (-0)])).quantile infinity).1 ≠
      (((empty targets).run (zeros ++ [.insert (-0)])).quantile infinity).1 := by
  intro zeros
  have full : (cut zeros).Full (List.replicate n 0) := full_cut_insertions _
  have zero : ∀ v ∈ inserted zeros, v = 0 := by
    rw [inserted_insertions]
    exact fun v hv => List.eq_of_mem_replicate hv
  rw [← List.length_replicate (n := n) (a := (0 : Float)), full.calm_iff, not_or] at hn
  obtain ⟨merged, waits⟩ := hn
  have waiting_zero : ∀ v ∈ (cut zeros).waiting, v = 0 := fun v hv =>
    zero v (flatten_cut zeros ▸ List.mem_append_right _ hv)
  have closed : cut (zeros ++ [.quantile infinity]) =
      ⟨(cut zeros).batches ++ [(cut zeros).waiting], []⟩ :=
    (cut_concat zeros _).trans (Cut.close_eq_concat merged waits)
  -- with the read, the negative zero is a batch of its own
  have told := quantile_infinity_zeros targets
    (fun v hv => zero v (inserted_quantile zeros infinity ▸ hv))
    (by rw [closed]; exact List.append_ne_nil_of_left_ne_nil merged _)
  have alone : LawfulMeasure.sorted [(-0 : Float)] = [-0] := List.mergeSort_singleton _
  rw [closed, List.nil_append, alone] at told
  -- without it, it is sorted before the zeros that wait
  have untold := quantile_infinity_zeros targets zero merged
  obtain ⟨v, hv⟩ := List.exists_mem_of_ne_nil _ waits
  rw [getLast?_sorted_of_zeros (List.mem_append_left _ (waiting_zero v hv ▸ hv))
    (List.forall_mem_append.2 ⟨fun v hv => .inl (waiting_zero v hv), by simp⟩)] at untold
  intro same
  rw [same, untold] at told
  exact absurd (Option.some.inj told) (by decide)

/-- Whichever reads of a run come before its last value: they leave no trace in any later answer,
down to the bits, if and only if each falls on a calm number of values. -/
theorem quantile_unseen_iff (targets : List (Target Float)) (A : ℕ → Prop) :
    (∀ uses : List (Use Float Float), ReadsAt A uses → (∀ v ∈ inserted uses, v.isFinite = true) →
      ∀ φ, (((empty targets).run uses).quantile φ).1 =
        (((empty targets).insertAll (inserted uses)).quantile φ).1) ↔ ∀ n, A n → Calm n := by
  constructor
  · intro unseen n hn
    by_contra not_calm
    let zeros : List (Use Float Float) := insertions (List.replicate n 0)
    have values : inserted (zeros ++ [.quantile infinity] ++ [.insert (-0)]) =
        List.replicate n 0 ++ [-0] := by
      rw [inserted_append, inserted_quantile, inserted_insertions]
      rfl
    have reads : ReadsAt A (zeros ++ [.quantile infinity] ++ [.insert (-0)]) := by
      rw [List.append_assoc]
      change ReadsAt A (zeros ++ .quantile infinity :: insertions [-0])
      refine readsAt_append_cons ?_
      rwa [List.length_replicate]
    have finite : ∀ v ∈ List.replicate n (0 : Float) ++ [-0], v.isFinite = true := by
      refine List.forall_mem_append.2 ⟨fun v hv => ?_, by decide⟩
      rw [List.eq_of_mem_replicate hv]
      decide
    have same := unseen _ reads (by rwa [values]) infinity
    rw [values, ← run_insertions, insertions, List.map_append] at same
    exact quantile_ne_of_not_calm targets not_calm same
  · intro calm uses reads _ φ
    have same := close_cut_of_calm fun pre u post eq read later =>
      calm _ (reads pre u post eq read later)
    have answer := answer_eq_of_cut targets same (.quantile φ)
    rw [run_insertions] at answer
    exact Answer.value.inj answer

/-! ## A read that changes a reported quantile -/

/-- Values that fill a first batch. -/
def evens : List ℕ := (List.range' 1 500).map (2 * ·)

/-- What the standard targets leave of it. -/
def evensMerged : ℕ × List (Sample ℕ) :=
  (500, [⟨2, 1, 0⟩, ⟨20, 9, 0⟩, ⟨58, 19, 0⟩, ⟨94, 18, 0⟩, ⟨130, 18, 0⟩, ⟨164, 17, 0⟩,
    ⟨196, 16, 0⟩, ⟨228, 16, 0⟩, ⟨258, 15, 0⟩, ⟨286, 14, 0⟩, ⟨314, 14, 0⟩, ⟨340, 13, 0⟩,
    ⟨366, 13, 0⟩, ⟨390, 12, 0⟩, ⟨414, 12, 0⟩, ⟨436, 11, 0⟩, ⟨458, 11, 0⟩, ⟨478, 10, 0⟩,
    ⟨498, 10, 0⟩, ⟨518, 10, 0⟩, ⟨538, 10, 0⟩, ⟨558, 10, 0⟩, ⟨580, 11, 0⟩, ⟨602, 11, 0⟩,
    ⟨626, 12, 0⟩, ⟨650, 12, 0⟩, ⟨674, 12, 0⟩, ⟨700, 13, 0⟩, ⟨726, 13, 0⟩, ⟨754, 14, 0⟩,
    ⟨784, 15, 0⟩, ⟨814, 15, 0⟩, ⟨846, 16, 0⟩, ⟨876, 15, 0⟩, ⟨900, 12, 0⟩, ⟨920, 10, 0⟩,
    ⟨940, 10, 0⟩, ⟨960, 10, 0⟩, ⟨980, 10, 0⟩, ⟨1000, 10, 0⟩])

/-- Values that come later and wait. -/
def ties : List ℕ := List.replicate 5 905 ++ List.replicate 4 913

theorem joinNat_evens :
    joinNat (Target.standard : List (Target Float)) (0, []) evens = evensMerged := by
  rw [← quickPrecision_eq]
  decide +kernel

theorem foundIn_ties_read :
    foundIn (Target.standard : List (Target Float)) (Precision.ratio 9 10)
      (joinNats (Target.standard : List (Target Float)) [evens, ties, [913]]) = some 913 := by
  rw [joinNats, List.foldl_cons, joinNat_evens, ← quickPrecision_eq]
  decide +kernel

theorem foundIn_ties :
    foundIn (Target.standard : List (Target Float)) (Precision.ratio 9 10)
      (joinNats (Target.standard : List (Target Float)) [evens, ties ++ [913]]) = some 905 := by
  rw [joinNats, List.foldl_cons, joinNat_evens, ← quickPrecision_eq]
  decide +kernel

/-- What a run over whole numbers answers after one more. -/
theorem quantile_wholes (targets : List (Target Float)) {uses : List (Use Float Float)}
    {batches : List (List ℕ)} {waiting : List ℕ} {v k : ℕ} {φ : Float}
    (cuts : cut uses = ⟨batches.map (List.map whole), waiting.map whole⟩)
    (rising : ∀ batch ∈ batches ++ [waiting ++ [v]], Rising batch) (merged : batches ≠ [])
    (found : foundIn targets φ (joinNats targets (batches ++ [waiting ++ [v]])) = some k) :
    (((empty targets).run (uses ++ [.insert (whole v)])).quantile φ).1 = whole k := by
  have nonempty : (cut uses).batches ≠ [] := by
    rw [cuts]
    exact mt List.map_eq_nil_iff.1 merged
  have answer := foundIn_push targets nonempty (whole v) φ
  have joined := (mergeBatches_map_whole targets rising).1
  rw [List.map_append, List.map_singleton, mergeBatches_concat, List.map_append,
    List.map_singleton] at joined
  rw [cuts, joined, foundIn_map, found] at answer
  exact (Option.some.inj answer).symm

/-- The first batch, and the later values that wait. -/
def evensTies : List (Use Float Float) := insertions ((evens ++ ties).map whole)

theorem cut_evensTies : cut evensTies = ⟨[evens].map (List.map whole), ties.map whole⟩ := by
  have full : (cut evensTies).Full (evens.map whole ++ ties.map whole) :=
    List.map_append ▸ full_cut_insertions _
  have length : evens.length = capacity := by rw [evens, List.length_map, List.length_range']; rfl
  exact full.eq_singleton ((List.length_map _).trans length) (by decide)

theorem cut_evensTies_read (φ : Float) : cut (evensTies ++ [.quantile φ]) =
    ⟨[evens, ties].map (List.map whole), ([] : List ℕ).map whole⟩ := by
  rw [cut_concat, cut_evensTies]
  exact Cut.close_eq_concat (List.cons_ne_nil _ _) (List.cons_ne_nil _ _)

theorem inserted_evensTies_read (φ : Float) :
    inserted (evensTies ++ [.quantile φ] ++ [.insert (whole 913)]) =
      (evens ++ ties ++ [913]).map whole := by
  rw [inserted_append, inserted_quantile, evensTies, inserted_insertions]
  exact (List.map_append : (evens ++ ties ++ [913]).map whole = _).symm

theorem isFinite_evensTies : ∀ v ∈ (evens ++ ties ++ [913]).map whole, v.isFinite = true := by
  intro v hv
  obtain ⟨k, hk, rfl⟩ := List.mem_map.1 hv
  have small : ∀ k ∈ evens ++ ties ++ [913], k < 2 ^ 52 := by decide +kernel
  exact isFinite_whole (small k hk)

/-- A question before the last value changes the answer to a reported quantile. -/
theorem not_forall_quantile_unseen :
    ¬∀ uses : List (Use Float Float), (∀ u ∈ uses, u.IsRead → ∃ φ, u = .quantile φ) →
      (∀ v ∈ inserted uses, v.isFinite = true) → ∀ q ∈ reportedQuantiles Float,
        (((standard : Sketch Float Float).run uses).quantile q).1 =
          (((standard : Sketch Float Float).insertAll (inserted uses)).quantile q).1 := by
  intro unseen
  let q : Float := Precision.ratio 9 10
  have reads : ∀ u ∈ evensTies ++ [.quantile q] ++ [.insert (whole 913)], u.IsRead →
      ∃ φ, u = .quantile φ := by
    intro u hu read
    rcases List.mem_append.1 hu with hu | hu
    · rcases List.mem_append.1 hu with hu | hu
      · exact absurd read (not_isRead_of_mem_insertions hu)
      · exact ⟨_, List.mem_singleton.1 hu⟩
    · exact absurd (List.mem_singleton.1 hu) (read _)
  have same := unseen _ reads (inserted_evensTies_read q ▸ isFinite_evensTies) q
    (by simp [reportedQuantiles, q])
  rw [inserted_evensTies_read, ← run_insertions, insertions, List.map_append,
    List.map_append] at same
  have told := quantile_wholes Target.standard (cut_evensTies_read q) (by decide +kernel)
    (by decide) foundIn_ties_read
  have untold := quantile_wholes Target.standard cut_evensTies (by decide +kernel) (by decide)
    foundIn_ties
  have equal : whole 913 = whole 905 := told.symm.trans (same.trans untold)
  have less : whole 905 < whole 913 :=
    (whole_lt_whole_iff (by norm_num) (by norm_num)).2 (by norm_num)
  rw [equal, whole_lt_whole_iff (by norm_num) (by norm_num)] at less
  exact absurd less (lt_irrefl _)

end Sketch

end Telemetry
