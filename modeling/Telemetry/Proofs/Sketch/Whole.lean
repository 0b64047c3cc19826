import Telemetry.Proofs.Sketch.Batch
import Telemetry.Proofs.Sketch.StandardTargets

/-!
# Merging whole numbers

What a sketch of the standard targets does with whole numbers can be computed on natural numbers
alone: values are only compared, and a width is within the tolerance if it is within one bound or
the other for each target (`room_iff`). The functions here do what the merging of doubles does
(`at_wholes`), and can be run by the kernel on thousands of values.
-/

namespace Telemetry

open LawfulMeasure

variable {ν : Type}

namespace Sample

/-! ## Weaving -/

/-- The samples that `inFrontOf` gives, one after the other. -/
def front (s : Sample ν) (atHead : Bool) : List ν → List (Sample ν)
  | [] => []
  | v :: values =>
    ⟨v, 1, if atHead then 0 else s.span - 1⟩ :: values.map fun v => ⟨v, 1, s.span - 1⟩

theorem inFrontOf_eq_front (s : Sample ν) (atHead : Bool) (values : List ν) :
    inFrontOf s atHead values = front s atHead values := by
  cases values with
  | nil => rfl
  | cons v values =>
    rw [inFrontOf_cons, inFrontOf_false]
    rfl

theorem front_map {α β : Type} (f : α → β) (s : Sample α) (atHead : Bool) (values : List α) :
    front (map f s) atHead (values.map f) = (front s atHead values).map (map f) := by
  cases values with
  | nil => rfl
  | cons v values =>
    rw [List.map_cons, front, front, List.map_cons, List.map_map, List.map_map]
    rfl

theorem map_value_front (s : Sample ν) (atHead : Bool) (values : List ν) :
    (front s atHead values).map value = values := by
  cases values with
  | nil => rfl
  | cons v values =>
    rw [front, List.map_cons, List.map_map]
    exact congrArg _ (List.map_id values)

/-- Weaving natural numbers. -/
def weaveNat (atHead : Bool) (values : List ℕ) : List (Sample ℕ) → List (Sample ℕ)
  | [] => values.map exact
  | s :: rest =>
    front s atHead (values.takeWhile (Nat.blt · s.value)) ++
      s :: weaveNat false (values.dropWhile (Nat.blt · s.value)) rest

theorem takeWhile_dropWhile_map [Measure ν] {f : ℕ → ν} {values : List ℕ} {k : ℕ}
    (h : ∀ v ∈ values, (f v < f k ↔ v < k)) :
    (values.map f).takeWhile (· < f k) = (values.takeWhile (Nat.blt · k)).map f ∧
      (values.map f).dropWhile (· < f k) = (values.dropWhile (Nat.blt · k)).map f := by
  refine takeWhile_dropWhile_map_of_eq (p := fun w => decide (w < f k)) fun v hv => ?_
  rw [Bool.eq_iff_iff, decide_eq_true_iff, h v hv, Nat.blt_eq]

theorem weave_map [Measure ν] {f : ℕ → ν} {values : List ℕ} {samples : List (Sample ℕ)}
    {atHead : Bool} (h : ∀ s ∈ samples, ∀ v ∈ values, (f v < f s.value ↔ v < s.value)) :
    weave atHead (values.map f) (samples.map (map f)) =
      (weaveNat atHead values samples).map (map f) := by
  induction samples generalizing values atHead with
  | nil =>
    rw [List.map_nil, weave, weaveNat, List.map_map, List.map_map]
    rfl
  | cons s rest ih =>
    have h := List.forall_mem_cons.1 h
    obtain ⟨taken, dropped⟩ := takeWhile_dropWhile_map h.1
    have later := @ih (values.dropWhile (Nat.blt · s.value)) false
      fun t ht v hv => h.2 t ht v ((List.dropWhile_suffix _).subset hv)
    rw [List.map_cons, weave, weaveNat, List.map_append, List.map_cons, ← front_map,
      ← inFrontOf_eq_front, ← later, ← taken, ← dropped]
    rfl

theorem value_lt_of_mem_weaveNat {values : List ℕ} {samples : List (Sample ℕ)} {atHead : Bool}
    {bound : ℕ} (hv : ∀ v ∈ values, v < bound) (hs : ∀ s ∈ samples, s.value < bound) :
    ∀ s ∈ weaveNat atHead values samples, s.value < bound := by
  induction samples generalizing values atHead with
  | nil =>
    intro s hs
    obtain ⟨v, hv', rfl⟩ := List.mem_map.1 hs
    exact hv v hv'
  | cons t rest ih =>
    have hs := List.forall_mem_cons.1 hs
    refine List.forall_mem_append.2 ⟨?_, List.forall_mem_cons.2 ⟨hs.1, ?_⟩⟩
    · intro x hx
      have mem := List.mem_map_of_mem (f := value) hx
      rw [map_value_front] at mem
      exact hv _ ((List.takeWhile_prefix _).subset mem)
    · exact ih (fun v hv' => hv v ((List.dropWhile_suffix _).subset hv')) hs.2

end Sample

/-! ## Tolerances -/

/-- Whether the standard targets allow the uncertainty `w` at a rank of `n` values. -/
def room (n w : ℕ) : ℤ → Bool
  | .ofNat r =>
    (Nat.ble (25 * w) r || Nat.ble (25 * w) (n - r)) &&
      (Nat.ble (45 * w) r || Nat.ble (5 * w) (n - r)) &&
        (Nat.ble (99 * w) (2 * r) || Nat.ble w (2 * (n - r)))
  | .negSucc k => Nat.ble (25 * w) (n + (k + 1))

theorem Target.Valid.le_allowance_iff {t : Target ℚ} (ht : t.Valid) (n r w : ℚ) :
    w ≤ t.allowance n r ↔
      t.quantile * w ≤ 2 * t.epsilon * r ∨ (1 - t.quantile) * w ≤ 2 * t.epsilon * (n - r) := by
  have hε := ht.epsilon_pos
  rw [ht.allowance_eq_max, mul_max_of_nonneg _ _ (by positivity), le_max_iff, ← mul_div_assoc,
    ← mul_div_assoc, le_div_iff₀ ht.quantile_pos, le_div_iff₀ (sub_pos.2 ht.quantile_lt_one),
    mul_comm w, mul_comm w]

theorem le_tolerance_standard_iff (n : ℕ) (w r : ℤ) :
    (w : ℚ) ≤ tolerance Target.standard n (r : ℚ) ↔
      (25 * w ≤ r ∨ 25 * w ≤ n - r) ∧ (45 * w ≤ r ∨ 5 * w ≤ n - r) ∧
        (99 * w ≤ 2 * r ∨ w ≤ 2 * (n - r)) := by
  have all : (w : ℚ) ≤ tolerance Target.standard n (r : ℚ) ↔
      ∀ t ∈ (Target.standard : List (Target ℚ)), (w : ℚ) ≤ t.allowance n r :=
    ⟨fun le t ht => le.trans (tolerance_le_allowance ht n r),
      fun le => le_tolerance (List.cons_ne_nil _ _) le⟩
  have standard_eq : (Target.standard : List (Target ℚ)) =
      [⟨1 / 2, 1 / 100⟩, ⟨9 / 10, 1 / 100⟩, ⟨99 / 100, 1 / 100⟩] := rfl
  rw [all, forall₂_congr fun t ht => (Target.valid_standard t ht).le_allowance_iff n r w,
    standard_eq, List.forall_mem_cons, List.forall_mem_cons, List.forall_mem_singleton]
  refine and_congr (or_congr ?_ ?_) (and_congr (or_congr ?_ ?_) (or_congr ?_ ?_)) <;>
  · rw [← Int.cast_le (R := ℚ)]
    push_cast
    constructor <;> intro h <;> linarith

theorem room_iff (n : ℕ) (w r : ℤ) :
    room n w.toNat r = true ↔ (w : ℚ) ≤ tolerance Target.standard n (r : ℚ) := by
  rw [le_tolerance_standard_iff]
  cases r with
  | ofNat r =>
    simp only [room, Bool.and_eq_true, Bool.or_eq_true, Nat.ble_eq, Int.ofNat_eq_natCast]
    omega
  | negSucc k =>
    simp only [room, Nat.ble_eq]
    omega

namespace Sample

/-- Takes in the next sample to the left, under the limits of the standard targets. -/
def takeWhole (n : ℕ) (c : Sample ν) (f : Folding ν) : Folding ν where
  rank := f.rank - c.width
  kept := match f.kept with
    | [] => [c]
    | x :: kept =>
      bif room n (c.width + x.span).toNat f.rank then { x with width := x.width + c.width } :: kept
      else c :: x :: kept

theorem take_eq_takeWhole (n : ℕ) :
    Folding.take (ν := ν) (fun r => tolerance Target.standard n (Precision.ofInt r : ℚ)) =
      takeWhole n := by
  funext c ⟨rank, kept⟩
  cases kept with
  | nil => rfl
  | cons x kept =>
    rw [Folding.take, takeWhole]
    dsimp only
    have fits : Fits (fun r => tolerance Target.standard n (Precision.ofInt r : ℚ)) rank c x ↔
        room n (c.width + x.span).toNat rank = true := (room_iff n _ rank).symm
    cases test : room n (c.width + x.span).toNat rank with
    | true => rw [if_pos (fits.2 test), cond_true]
    | false => rw [if_neg (fun h => Bool.false_ne_true (test.symm.trans (fits.1 h))), cond_false]

/-- Joining samples under the limits of the standard targets. -/
def condenseWhole (n : ℕ) : List (Sample ν) → List (Sample ν)
  | [] => []
  | s :: rest => s :: (rest.foldr (takeWhole n) ⟨(n : ℤ) - 1, []⟩).kept

theorem condense_eq_condenseWhole (n : ℕ) (samples : List (Sample ν)) :
    condense (fun r => tolerance Target.standard n (Precision.ofInt r : ℚ)) n samples =
      condenseWhole n samples := by
  cases samples with
  | nil => rfl
  | cons s rest =>
    rw [condense, condenseWhole, take_eq_takeWhole]

end Sample

namespace Sketch

open Binary64 Sample

/-- Merging a batch of natural numbers in ascending order. -/
def mergeNat (state : ℕ × List (Sample ℕ)) (batch : List ℕ) : ℕ × List (Sample ℕ) :=
  (state.1 + batch.length,
    condenseWhole (state.1 + batch.length) (weaveNat true batch state.2))

/-- Merging batches of natural numbers. -/
def mergeNats (batches : List (List ℕ)) : ℕ × List (Sample ℕ) := batches.foldl mergeNat (0, [])

/-- Natural numbers in ascending order that stand for doubles. -/
structure Rising (batch : List ℕ) : Prop where
  ascending : batch.IsChain (· ≤ ·)
  lt : ∀ v ∈ batch, v < 2 ^ 52

instance (batch : List ℕ) : Decidable (Rising batch) :=
  decidable_of_iff (batch.IsChain (· ≤ ·) ∧ ∀ v ∈ batch, v < 2 ^ 52)
    ⟨fun h => ⟨h.1, h.2⟩, fun h => ⟨h.ascending, h.lt⟩⟩

/-- Merging a batch of natural numbers under the limits of any targets. -/
def joinNat {ρ : Type} [Precision ρ] (targets : List (Target ρ)) (state : ℕ × List (Sample ℕ))
    (batch : List ℕ) : ℕ × List (Sample ℕ) :=
  let merged := state.1 + batch.length
  (merged, Sample.condense (fun r => tolerance targets merged (Precision.ofInt r)) merged
    (weaveNat true batch state.2))

theorem joinNat_standard (state : ℕ × List (Sample ℕ)) (batch : List ℕ) :
    joinNat (Target.standard : List (Target ℚ)) state batch = mergeNat state batch := by
  rw [joinNat, condense_eq_condenseWhole]
  rfl

/-- Natural numbers are merged as the doubles for which they stand. -/
theorem mergeBatch_map_whole {ρ : Type} [Precision ρ] (targets : List (Target ρ))
    {state : ℕ × List (Sample ℕ)} {batch : List ℕ} (rising : Rising batch)
    (bounded : ∀ s ∈ state.2, s.value < 2 ^ 52) :
    mergeBatch targets (state.1, state.2.map (Sample.map whole)) (batch.map whole) =
        ((joinNat targets state batch).1,
          (joinNat targets state batch).2.map (Sample.map whole)) ∧
      ∀ s ∈ (joinNat targets state batch).2, s.value < 2 ^ 52 := by
  have in_order : sorted (batch.map whole) = batch.map whole := by
    refine sorted_map ((List.isChain_iff_pairwise.1 rising.ascending).imp_of_mem ?_)
    exact fun _ hw le => totalLe_whole le (rising.lt _ hw)
  have woven : Sample.weave true (batch.map whole) (state.2.map (Sample.map whole)) =
      (weaveNat true batch state.2).map (Sample.map whole) :=
    weave_map fun s hs v hv => whole_lt_whole_iff (rising.lt v hv) (bounded s hs)
  refine ⟨?_, fun s hs => ?_⟩
  · rw [mergeBatch]
    dsimp only
    rw [in_order, woven, List.length_map, condense_map]
    rfl
  · have values := map_value_condense_sublist
      (fun r => tolerance targets (state.1 + batch.length) (Precision.ofInt r))
      (state.1 + batch.length) (weaveNat true batch state.2)
    obtain ⟨t, ht, eq⟩ := List.mem_map.1 (values.subset (List.mem_map_of_mem hs))
    exact eq ▸ value_lt_of_mem_weaveNat rising.lt bounded t ht

/-- Merging batches of natural numbers under the limits of any targets. -/
def joinNats {ρ : Type} [Precision ρ] (targets : List (Target ρ)) (batches : List (List ℕ)) :
    ℕ × List (Sample ℕ) := batches.foldl (joinNat targets) (0, [])

theorem joinNats_standard (batches : List (List ℕ)) :
    joinNats (Target.standard : List (Target ℚ)) batches = mergeNats batches := by
  rw [joinNats, funext₂ joinNat_standard, mergeNats]

theorem mergeBatches_map_whole {ρ : Type} [Precision ρ] (targets : List (Target ρ))
    {batches : List (List ℕ)} (rising : ∀ batch ∈ batches, Rising batch) :
    mergeBatches targets (batches.map (List.map whole)) =
        ((joinNats targets batches).1, (joinNats targets batches).2.map (Sample.map whole)) ∧
      ∀ s ∈ (joinNats targets batches).2, s.value < 2 ^ 52 := by
  induction batches using List.reverseRecOn with
  | nil => exact ⟨rfl, by simp [joinNats]⟩
  | append_singleton batches batch ih =>
    have rising := List.forall_mem_append.1 rising
    obtain ⟨merged, bounded⟩ := ih rising.1
    rw [joinNats, List.foldl_append, List.map_append, List.map_singleton, mergeBatches_concat,
      merged]
    exact mergeBatch_map_whole targets (rising.2 batch List.mem_cons_self) bounded

theorem mergeBatches_whole {batches : List (List ℕ)} (rising : ∀ batch ∈ batches, Rising batch) :
    mergeBatches (Target.standard : List (Target ℚ)) (batches.map (List.map whole)) =
      ((mergeNats batches).1, (mergeNats batches).2.map (Sample.map whole)) := by
  rw [(mergeBatches_map_whole _ rising).1, joinNats_standard]

/-- Full batches, each in ascending order, and a smaller rest. -/
structure Batched (batches : List (List ℕ)) (rest : List ℕ) : Prop where
  rising : ∀ batch ∈ batches ++ [rest], Rising batch
  full : ∀ batch ∈ batches, batch.length = capacity
  room : rest.length < capacity
  batches_ne_nil : batches ≠ []
  rest_ne_nil : rest ≠ []

instance (batches : List (List ℕ)) (rest : List ℕ) : Decidable (Batched batches rest) :=
  decidable_of_iff ((∀ batch ∈ batches ++ [rest], Rising batch) ∧
      (∀ batch ∈ batches, batch.length = capacity) ∧ rest.length < capacity ∧ batches ≠ [] ∧
        rest ≠ [])
    ⟨fun h => ⟨h.1, h.2.1, h.2.2.1, h.2.2.2.1, h.2.2.2.2⟩,
      fun h => ⟨h.rising, h.full, h.room, h.batches_ne_nil, h.rest_ne_nil⟩⟩

section Batched

variable {batches : List (List ℕ)} {rest : List ℕ} {k : ℕ}

/-- The values of batches and a rest, as doubles. -/
def wholes (batches : List (List ℕ)) (rest : List ℕ) : List Float :=
  (batches.flatten ++ rest).map whole

theorem Batched.lt (h : Batched batches rest) : ∀ v ∈ batches.flatten ++ rest, v < 2 ^ 52 := by
  intro v hv
  rw [← List.flatten_concat] at hv
  obtain ⟨batch, hb, hv⟩ := List.mem_flatten.1 hv
  exact (h.rising batch hb).lt v hv

theorem Batched.isFinite (h : Batched batches rest) :
    ∀ v ∈ wholes batches rest, v.isFinite = true := by
  intro v hv
  obtain ⟨i, hi, rfl⟩ := List.mem_map.1 hv
  exact isFinite_whole (h.lt i hi)

theorem Batched.wholes_ne_nil (h : Batched batches rest) : wholes batches rest ≠ [] := by
  simp [wholes, h.rest_ne_nil]

theorem Batched.atMost_wholes (h : Batched batches rest) (hk : k < 2 ^ 52) :
    atMost (wholes batches rest) (whole k) = (batches.flatten ++ rest).countP (Nat.ble · k) := by
  rw [atMost, wholes, List.countP_map]
  refine List.countP_congr fun v hv => ?_
  have places : place (whole v) ≤ place (whole k) ↔ v ≤ k := by
    refine Int.cast_le.trans ?_
    rw [place_whole (h.lt v hv), place_whole hk]
    omega
  rw [Function.comp_apply, decide_eq_true_iff, places, Nat.ble_eq]

/-- What the sketch answers is what the merging of natural numbers finds. -/
theorem Batched.quantile_wholes (h : Batched batches rest) {φ : ℚ}
    (found : find Target.standard φ (mergeNats (batches ++ [rest])) = some k) :
    (((standard : Sketch Float ℚ).insertAll (wholes batches rest)).quantile φ).1 = whole k := by
  have full : ∀ batch ∈ batches.map (List.map whole), batch.length = capacity := by
    intro _ hb
    obtain ⟨batch, hb', rfl⟩ := List.mem_map.1 hb
    rw [List.length_map]
    exact h.full batch hb'
  have room : (rest.map whole).length < capacity := by
    rw [List.length_map]
    exact h.room
  have state := at_batches (Target.standard : List (Target ℚ)) full room
  rw [← List.map_flatten, ← List.map_append] at state
  have samples : ((standard : Sketch Float ℚ).insertAll (wholes batches rest)).summary ≠ [] := by
    obtain ⟨init, batch, rfl⟩ := batches.eq_nil_or_concat'.resolve_left h.batches_ne_nil
    have filled : batch.map whole ≠ [] := by
      intro nil
      have length := h.full batch (by simp)
      rw [List.map_eq_nil_iff.1 nil] at length
      cases length
    rw [List.map_append, List.map_singleton, mergeBatches_concat] at state
    exact fun nil => mergeBatch_ne_nil _ filled ((congrArg Prod.snd state.state_eq).symm.trans nil)
  have settled := state.settle fun nil => h.rest_ne_nil (List.map_eq_nil_iff.1 nil)
  have merged := mergeBatches_whole h.rising
  rw [List.map_append, List.map_singleton, mergeBatches_concat] at merged
  rw [merged] at settled
  have answer := settled.find_eq (φ := φ) samples
  rw [find_map, found] at answer
  exact (Option.some.inj answer).symm

end Batched

end Sketch

end Telemetry
