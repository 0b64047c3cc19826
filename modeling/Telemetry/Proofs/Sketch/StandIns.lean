import Telemetry.Proofs.RawDouble
import Telemetry.Proofs.Sketch.Cuts
import Telemetry.Proofs.Sketch.Relabel

/-!
# Sketches of stand-ins

Apart from its sum a sketch only compares the values it is given. Stand-ins that compare and sort as
the values do (`KeepsOrder`) can take their place: the samples are the same, with the stand-ins for
the values (`standIns_run`). The numbers that finite doubles stand for are such stand-ins
(`keepsOrder_toRat`), so that the samples of doubles can be weighed and summed exactly. The bits of
doubles are, too, and they are even summed alike, so that a sketch of doubles answers as the sketch
of their bits does (`RawDouble.answer_ofFloat`).
-/

namespace Telemetry

open LawfulMeasure

variable {α β ρ : Type} [Measure α] [Measure β]

/-- Stand-ins for the values of a kind that compare and sort as those do. -/
structure KeepsOrder (f : α → β) (P : α → Prop) : Prop where
  lt_iff {v w : α} : P v → P w → (f v < f w ↔ v < w)
  sortLe {v w : α} : P v → P w → Measure.sortLe v w = true → Measure.sortLe (f v) (f w) = true

variable {f : α → β} {P : α → Prop}

/-- Stand-ins are sorted as the values are. -/
theorem KeepsOrder.sorted_map [LawfulMeasure α] [LawfulMeasure β] [SortsStrictly β]
    (keeps : KeepsOrder f P) {values : List α} (all : ∀ v ∈ values, P v) :
    sorted (values.map f) = (sorted values).map f := by
  have in_order : (sorted values).Pairwise fun v w => Measure.sortLe v w = true :=
    List.pairwise_mergeSort sortLe_trans sortLe_total values
  have kind : ∀ v ∈ sorted values, P v := fun v hv => all v ((sorted_perm values).subset hv)
  rw [sorted_congr ((sorted_perm values).symm.map f)]
  refine LawfulMeasure.sorted_map (in_order.imp_of_mem fun hv hw => ?_)
  exact keeps.sortLe (kind _ hv) (kind _ hw)

namespace Sample

omit [Measure α] [Measure β] in
theorem inFrontOf_map (s : Sample α) (atHead : Bool) (values : List α) :
    inFrontOf (map f s) atHead (values.map f) = (inFrontOf s atHead values).map (map f) := by
  induction values generalizing atHead with
  | nil => rfl
  | cons v values ih =>
    rw [List.map_cons, inFrontOf_cons, inFrontOf_cons, ih, List.map_cons]
    rfl

/-- Stand-ins are woven in where the values would be. -/
theorem map_weave {values : List α} {samples : List (Sample α)} {atHead : Bool}
    (h : ∀ s ∈ samples, ∀ v ∈ values, (f v < f s.value ↔ v < s.value)) :
    (weave atHead values samples).map (map f) =
      weave atHead (values.map f) (samples.map (map f)) := by
  induction samples generalizing values atHead with
  | nil =>
    rw [List.map_nil, weave, weave, List.map_map, List.map_map]
    rfl
  | cons s rest ih =>
    have h := List.forall_mem_cons.1 h
    obtain ⟨taken, dropped⟩ := takeWhile_dropWhile_map_of_eq (f := f)
      (p := fun w => decide (w < (map f s).value)) (q := fun v => decide (v < s.value))
      fun v hv => decide_eq_decide.2 (h.1 v hv)
    have later := @ih (values.dropWhile (· < s.value)) false
      fun t ht v hv => h.2 t ht v ((List.dropWhile_suffix _).subset hv)
    rw [weave, List.map_append, List.map_cons, later, List.map_cons, weave, taken, dropped,
      inFrontOf_map]

end Sample

/-- Stand-ins that are also summed and weighed as the values are. -/
structure KeepsSums (f : α → β) : Prop where
  zero : f Measure.zero = Measure.zero
  emptySum : f Measure.emptySum = Measure.emptySum
  add (x y : α) : f (x + y) = f x + f y
  weighted (v : α) (n : ℕ) : f (Measure.weighted v n) = Measure.weighted (f v) n

theorem KeepsSums.total_map (sums : KeepsSums f) (samples : List (Sample α)) :
    Sample.total (samples.map (Sample.map f)) = f (Sample.total samples) := by
  rw [Sample.total, Sample.total, List.foldl_map, ← sums.emptySum]
  refine List.foldl_hom f fun sum s => ?_
  rw [sums.add, sums.weighted]
  rfl

namespace Sketch

/-- The same use of a sketch of other values. -/
def Use.map (f : α → β) : Use α ρ → Use β ρ
  | insert v => .insert (f v)
  | quantile φ => .quantile φ
  | toSamples => .toSamples
  | sampledSum => .sampledSum

/-- The sketch `t` holds stand-ins for what `s` holds. -/
structure StandIns (f : α → β) (s : Sketch α ρ) (t : Sketch β ρ) : Prop where
  targets_eq : t.targets = s.targets
  merged_eq : t.merged = s.merged
  summary_eq : t.summary = s.summary.map (Sample.map f)
  buffer_eq : t.buffer.toList = s.buffer.toList.map f

/-- All values that the sketch holds are of one kind. -/
def AllOf (P : α → Prop) (s : Sketch α ρ) : Prop :=
  (∀ v ∈ s.buffer.toList, P v) ∧ ∀ x ∈ s.summary, P x.value

variable {s : Sketch α ρ} {t : Sketch β ρ} {v : α}

omit [Measure α] [Measure β] in
theorem StandIns.isEmpty_eq (h : StandIns f s t) : t.summary.isEmpty = s.summary.isEmpty := by
  rw [h.summary_eq, List.isEmpty_map]

omit [Measure α] [Measure β] in
theorem StandIns.size_eq (h : StandIns f s t) : t.buffer.size = s.buffer.size := by
  rw [← Array.length_toList, h.buffer_eq, List.length_map, Array.length_toList]

theorem StandIns.push (h : StandIns f s t) (v : α) : StandIns f (s.push v) (t.push (f v)) where
  targets_eq := h.targets_eq
  merged_eq := h.merged_eq
  summary_eq := h.summary_eq
  buffer_eq := by
    change (t.buffer.push (f v)).toList = (s.buffer.push v).toList.map f
    rw [Array.toList_push, Array.toList_push, h.buffer_eq, List.map_append, List.map_singleton]

omit [Measure β] in
theorem AllOf.push (h : s.AllOf P) (hv : P v) : (s.push v).AllOf P := by
  refine ⟨?_, h.2⟩
  change ∀ w ∈ (s.buffer.push v).toList, P w
  rw [Array.toList_push]
  exact List.forall_mem_append.2 ⟨h.1, List.forall_mem_singleton.2 hv⟩

section Settle

variable [LawfulMeasure α] [LawfulMeasure β] [SortsStrictly β]

theorem StandIns.sortedBuffer_eq (keeps : KeepsOrder f P) (h : StandIns f s t)
    (all : s.AllOf P) : t.sortedBuffer = s.sortedBuffer.map f := by
  rw [sortedBuffer, h.buffer_eq]
  exact keeps.sorted_map all.1

theorem StandIns.weaveBuffer (keeps : KeepsOrder f P) (h : StandIns f s t) (all : s.AllOf P) :
    StandIns f s.weaveBuffer t.weaveBuffer where
  targets_eq := h.targets_eq
  merged_eq := congrArg₂ (· + ·) h.merged_eq h.size_eq
  summary_eq := by
    change Sample.weave true t.sortedBuffer t.summary =
      (Sample.weave true s.sortedBuffer s.summary).map (Sample.map f)
    rw [h.sortedBuffer_eq keeps all, h.summary_eq, Sample.map_weave]
    exact fun x hx v hv => keeps.lt_iff (all.1 v ((sortedBuffer_perm s).subset hv)) (all.2 x hx)
  buffer_eq := rfl

variable [Precision ρ]

omit [Measure α] [Measure β] [LawfulMeasure α] [LawfulMeasure β] [SortsStrictly β] in
theorem StandIns.condense (h : StandIns f s t) : StandIns f s.condense t.condense where
  targets_eq := h.targets_eq
  merged_eq := h.merged_eq
  summary_eq := by
    simp only [Sketch.condense, limit, h.targets_eq, h.merged_eq, h.summary_eq,
      Sample.condense_map]
  buffer_eq := h.buffer_eq

theorem StandIns.settle (keeps : KeepsOrder f P) (h : StandIns f s t) (all : s.AllOf P) :
    StandIns f s.settle t.settle := by
  unfold Sketch.settle
  rw [Array.isEmpty, Array.isEmpty, h.size_eq]
  split_ifs
  · exact h
  · exact (h.weaveBuffer keeps all).condense

theorem StandIns.quantile (keeps : KeepsOrder f P) (h : StandIns f s t) (all : s.AllOf P) (φ : ρ) :
    StandIns f (s.quantile φ).2 (t.quantile φ).2 := by
  by_cases nil : s.summary = []
  · have nil' : t.summary = [] := by rw [h.summary_eq, nil, List.map_nil]
    rw [Sketch.quantile, Sketch.quantile, if_pos (List.isEmpty_iff.2 nil),
      if_pos (List.isEmpty_iff.2 nil')]
    exact h
  · have filled : t.summary ≠ [] := by rwa [h.summary_eq, ne_eq, List.map_eq_nil_iff]
    rw [quantile_snd φ nil, quantile_snd φ filled]
    exact h.settle keeps all

theorem StandIns.toSamples (keeps : KeepsOrder f P) (h : StandIns f s t) (all : s.AllOf P) :
    t.toSamples.1 = s.toSamples.1.map (Sample.map f) ∧
      StandIns f s.toSamples.2 t.toSamples.2 := by
  unfold Sketch.toSamples
  rw [h.isEmpty_eq]
  split_ifs
  · rw [h.sortedBuffer_eq keeps all, List.map_map, List.map_map]
    exact ⟨rfl, h⟩
  · have settled := (h.settle keeps all).condense
    exact ⟨settled.summary_eq, settled⟩

omit [Measure β] [LawfulMeasure α] [LawfulMeasure β] [SortsStrictly β] in
/-- Whatever is inserted, only that is held. -/
theorem allOf_run (targets : List (Target ρ)) {uses : List (Use α ρ)}
    (all : ∀ v ∈ inserted uses, P v) : ((empty targets).run uses).AllOf P := by
  refine run_induction (P := fun values (s : Sketch α ρ) => (∀ v ∈ values, P v) → s.AllOf P)
    (fun _ => ⟨nofun, nofun⟩) ?_ ?_ ?_ uses all
  · intro values s v ih all
    have all := List.forall_mem_append.1 all
    exact (ih all.1).push (all.2 v (List.mem_singleton.2 rfl))
  · intro values s _ ih all
    refine ⟨nofun, fun x hx => ?_⟩
    rcases List.mem_append.1 (Sample.map_value_weave_perm.subset (List.mem_map_of_mem hx))
      with buffered | sampled
    · exact (ih all).1 _ ((sortedBuffer_perm s).subset buffered)
    · exact List.forall_mem_map.2 (ih all).2 _ sampled
  · intro values s ih all
    refine ⟨(ih all).1, fun x hx => ?_⟩
    have kept := (Sample.map_value_condense_sublist _ _ s.summary).subset (List.mem_map_of_mem hx)
    exact List.forall_mem_map.2 (ih all).2 _ kept

/-- A run over stand-ins leaves stand-ins for what the run over the values leaves. -/
theorem standIns_run (keeps : KeepsOrder f P) (targets : List (Target ρ)) {uses : List (Use α ρ)}
    (all : ∀ v ∈ inserted uses, P v) :
    StandIns f ((empty targets).run uses) ((empty targets).run (uses.map (Use.map f))) := by
  induction uses using List.reverseRecOn with
  | nil => exact ⟨rfl, rfl, rfl, rfl⟩
  | append_singleton uses u ih =>
    rw [inserted_append] at all
    have all := List.forall_mem_append.1 all
    have h := ih all.1
    have kind : ((empty targets).run uses).AllOf P := allOf_run targets all.1
    rw [List.map_append, run, List.foldl_append, run, List.foldl_append]
    cases u with
    | insert v =>
      have kind_push : (((empty targets).run uses).push v).AllOf P :=
        kind.push (all.2 v (List.mem_singleton.2 rfl))
      change StandIns f (((empty targets).run uses).insert v)
        (((empty targets).run (uses.map (Use.map f))).insert (f v))
      rw [insert_eq, insert_eq, (h.push v).size_eq]
      split_ifs
      · exact (h.push v).settle keeps kind_push
      · exact h.push v
    | quantile φ => exact h.quantile keeps kind φ
    | toSamples | sampledSum => exact (h.toSamples keeps kind).2

/-! ### Answers -/

/-- An answer with stand-ins for the values. -/
def Answer.map (f : α → β) : Answer α → Answer β
  | value v => .value (f v)
  | samples xs => .samples (xs.map (Sample.map f))

omit [LawfulMeasure α] [LawfulMeasure β] [SortsStrictly β] in
theorem exactQuantile_map (sums : KeepsSums f) (values : List α) (φ : ρ) :
    exactQuantile (values.map f) φ = f (exactQuantile values φ) := by
  rw [exactQuantile, exactQuantile, List.length_map, ← sums.zero, List.getD_map]

theorem StandIns.quantile_fst (keeps : KeepsOrder f P) (sums : KeepsSums f) (h : StandIns f s t)
    (all : s.AllOf P) (φ : ρ) : (t.quantile φ).1 = f (s.quantile φ).1 := by
  unfold Sketch.quantile
  rw [h.isEmpty_eq]
  split_ifs
  · rw [h.sortedBuffer_eq keeps all]
    exact exactQuantile_map sums _ φ
  · have settled := h.settle keeps all
    have threshold_eq : t.settle.threshold φ = s.settle.threshold φ := by
      simp only [threshold, limit, settled.targets_eq, settled.merged_eq]
    dsimp only
    rw [settled.summary_eq, threshold_eq]
    cases s.settle.summary with
    | nil => exact sums.zero.symm
    | cons first rest => exact Sample.seek_map f _ 0 first rest

/-- A sketch of stand-ins answers with stand-ins. -/
theorem StandIns.answer (keeps : KeepsOrder f P) (sums : KeepsSums f) (h : StandIns f s t)
    (all : s.AllOf P) (r : Read ρ) : (r.answer t).1 = (r.answer s).1.map f := by
  have samples := (h.toSamples keeps all).1
  cases r with
  | quantile φ => exact congrArg Answer.value (h.quantile_fst keeps sums all φ)
  | toSamples => exact congrArg Answer.samples samples
  | sampledSum =>
    exact congrArg Answer.value ((congrArg Sample.total samples).trans (sums.total_map _))

end Settle

end Sketch

/-! ## Doubles -/

/-- Finite doubles compare and sort as the numbers that they stand for. -/
theorem keepsOrder_toRat : KeepsOrder Binary64.toRat fun x : Float => x.isFinite = true where
  lt_iff hv hw := Binary64.toRat_lt_toRat_iff hv hw
  sortLe hv hw h := by
    refine decide_eq_true ((Binary64.toRat_le_toRat_iff hv hw).2 ?_)
    rw [Binary64.le_iff_place_le (Binary64.isNaN_of_isFinite hv) (Binary64.isNaN_of_isFinite hw)]
    exact Binary64.place_le_of_totalLe h

namespace RawDouble

theorem keepsOrder_ofFloat : KeepsOrder ofFloat fun _ => True where
  lt_iff {v w} _ _ := by
    change (ofFloat v).toFloat < (ofFloat w).toFloat ↔ v < w
    rw [toFloat_ofFloat, toFloat_ofFloat]
  sortLe _ _ h := h

theorem keepsSums_ofFloat : KeepsSums ofFloat where
  zero := rfl
  emptySum := rfl
  add x y := by
    change _ = ofFloat ((ofFloat x).toFloat + (ofFloat y).toFloat)
    rw [toFloat_ofFloat, toFloat_ofFloat]
  weighted v n := by
    change _ = ofFloat ((ofFloat v).toFloat * Float.ofNat n)
    rw [toFloat_ofFloat]
    rfl

/-- Whatever doubles are inserted, NaN or not, the sketch of their bits answers with the bits of the
answers. -/
theorem answer_ofFloat [Precision ρ] (targets : List (Target ρ)) (uses : List (Sketch.Use Float ρ))
    (r : Sketch.Read ρ) :
    (r.answer ((Sketch.empty targets).run (uses.map (Sketch.Use.map ofFloat)))).1 =
      (r.answer ((Sketch.empty targets).run uses)).1.map ofFloat :=
  (Sketch.standIns_run keepsOrder_ofFloat targets fun _ _ => trivial).answer keepsOrder_ofFloat
    keepsSums_ofFloat (Sketch.allOf_run targets fun _ _ => trivial) r

end RawDouble

end Telemetry
