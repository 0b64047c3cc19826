import Telemetry.Proofs.Rounding
import Telemetry.Proofs.Sketch.Answer

/-!
# Reads change no answer

A read merges what is buffered, and some reads join samples once more. Neither can be seen from
outside. Joining goes from right to left, and a pair that did not fit when it was met fits even
less when its left sample has grown since. So a second pass finds nothing to join (`condense_condense`),
and whatever the reads are, they leave the same sketch (`Read.answer_snd`). It gives the answers
that the sketch before the reads would have given (`answers_eq_map`).
-/

namespace Telemetry

variable {ν ρ : Type} [Precision ρ]

/-! ## Joining once more -/

namespace Sample

/-- No sample fits together with its right neighbour at the rank between them. -/
def Apart (limit : ℤ → ρ) (m : ℤ) : List (Sample ν) → Prop
  | c :: x :: rest => ¬Fits limit (m - totalWidth (x :: rest)) c x ∧ Apart limit m (x :: rest)
  | _ => True

variable {limit : ℤ → ρ} {m : ℤ} {c x : Sample ν} {xs kept : List (Sample ν)}

/-- A sample that is joined to a wider one leaves less room to the right, too. -/
theorem Apart.widen [LawfulPrecision ρ] (h : Apart limit m (x :: kept)) (w : ℕ) :
    Apart limit m ({ x with width := x.width + w } :: kept) := by
  cases kept with
  | nil => trivial
  | cons y rest =>
    refine ⟨fun fits => h.1 ?_, h.2⟩
    refine LawfulPrecision.ofInt_le_of_le ?_ fits
    dsimp only
    omega

theorem apart_kept [LawfulPrecision ρ] (limit : ℤ → ρ) (m : ℤ) (xs : List (Sample ν)) :
    Apart limit m (xs.foldr (Folding.take limit) ⟨m, []⟩).kept := by
  suffices totalWidth (xs.foldr (Folding.take limit) ⟨m, []⟩).kept = totalWidth xs ∧
      Apart limit m (xs.foldr (Folding.take limit) ⟨m, []⟩).kept from this.2
  refine kept_induction (P := fun xs kept => totalWidth kept = totalWidth xs ∧ Apart limit m kept)
    ⟨rfl, trivial⟩ ?_ ?_ ?_
  · rintro c xs ⟨total, -⟩
    exact ⟨by simp [← total], trivial⟩
  · rintro c xs x kept ⟨total, apart⟩ -
    refine ⟨?_, apart.widen c.width⟩
    simp only [totalWidth_cons] at total ⊢
    omega
  · rintro c xs x kept ⟨total, apart⟩ rejected
    refine ⟨by rw [totalWidth_cons, total, totalWidth_cons], ?_, apart⟩
    rwa [total]

/-- Nothing is joined among samples that are apart. -/
theorem foldr_take_of_apart (h : Apart limit m xs) :
    xs.foldr (Folding.take limit) ⟨m, []⟩ = ⟨m - totalWidth xs, xs⟩ := by
  induction xs with
  | nil => simp
  | cons c rest ih =>
    cases rest with
    | nil => simp [Folding.take]
    | cons x rest =>
      have rank : m - totalWidth (x :: rest) - c.width = m - totalWidth (c :: x :: rest) := by
        rw [totalWidth_cons (s := c)]
        omega
      rw [List.foldr_cons, ih h.2, Folding.take, ← rank]
      exact congrArg _ (if_neg h.1)

/-- A second pass joins nothing. -/
theorem condense_condense [LawfulPrecision ρ] (limit : ℤ → ρ) (merged : ℕ)
    (xs : List (Sample ν)) : condense limit merged (condense limit merged xs) =
      condense limit merged xs := by
  cases xs with
  | nil => rfl
  | cons s rest =>
    show s :: (((rest.foldr (Folding.take limit) ⟨(merged : ℤ) - 1, []⟩).kept).foldr
      (Folding.take limit) ⟨(merged : ℤ) - 1, []⟩).kept = _
    rw [foldr_take_of_apart (apart_kept limit _ rest)]
    rfl

end Sample

namespace Sketch

/-! ## Settled sketches -/

section Settled

variable [Measure ν] {targets : List (Target ρ)} {s : Sketch ν ρ}

/-- Nothing is left to join. -/
def Condensed (s : Sketch ν ρ) : Prop := s.condense = s

theorem Condensed.push (h : s.Condensed) (v : ν) : (s.push v).Condensed :=
  congrArg (fun s : Sketch ν ρ => s.push v) h

theorem settle_settle (s : Sketch ν ρ) : s.settle.settle = s.settle := by
  by_cases empty : s.buffer.isEmpty = true
  · have same : s.settle = s := if_pos empty
    rw [same, same]
  · have woven : s.settle = s.weaveBuffer.condense := if_neg empty
    rw [woven]
    rfl

variable [LawfulPrecision ρ]

omit [Measure ν] in
theorem condensed_condense (s : Sketch ν ρ) : s.condense.Condensed := by
  have again := Sample.condense_condense (fun r => s.limit (Precision.ofInt r)) s.merged s.summary
  exact congrArg (fun samples => { s with summary := samples }) again

theorem Condensed.settle (h : s.Condensed) : s.settle.Condensed := by
  unfold Sketch.settle
  split_ifs
  · exact h
  · exact condensed_condense _

/-- Between two uses there is never anything to join. -/
theorem condensed_run (targets : List (Target ρ)) (uses : List (Use ν ρ)) :
    ((empty targets).run uses).Condensed := by
  induction uses using List.reverseRecOn with
  | nil => exact rfl
  | append_singleton uses u ih =>
    rw [run, List.foldl_append]
    cases u with
    | insert v =>
      show (((empty targets).run uses).insert v).Condensed
      rw [insert_eq]
      split_ifs
      · exact (ih.push v).settle
      · exact ih.push v
    | quantile φ => exact quantile_of_settle (fun _ h => h.settle) φ ih
    | toSamples | sampledSum =>
      exact toSamples_of_settle (fun _ h => h.settle) (fun s _ => condensed_condense s) ih

end Settled

/-! ## Reads -/

/-- What can be asked of a sketch without inserting anything. -/
inductive Read (ρ : Type) where
  | quantile (φ : ρ)
  | toSamples
  | sampledSum

/-- What a read returns. -/
inductive Answer (ν : Type) where
  | value (v : ν)
  | samples (samples : List (Sample ν))

section Reads

variable [Measure ν] {targets : List (Target ρ)} {s : Sketch ν ρ}

/-- What a read returns, with the sketch after it. -/
def Read.answer (s : Sketch ν ρ) : Read ρ → Answer ν × Sketch ν ρ
  | quantile φ => (.value (s.quantile φ).1, (s.quantile φ).2)
  | toSamples => (.samples s.toSamples.1, s.toSamples.2)
  | sampledSum => (.value s.sampledSum.1, s.sampledSum.2)

/-- What several reads in turn return, with the sketch after them. -/
def answers (s : Sketch ν ρ) : List (Read ρ) → List (Answer ν) × Sketch ν ρ
  | [] => ([], s)
  | r :: rest =>
    let (answer, s) := r.answer s
    let (answers, s) := s.answers rest
    (answer :: answers, s)

/-- The sketch that every read leaves. -/
def rested (s : Sketch ν ρ) : Sketch ν ρ := if s.summary.isEmpty then s else s.settle

theorem rested_of_nil (h : s.summary = []) : s.rested = s := if_pos (List.isEmpty_iff.2 h)

theorem rested_of_ne_nil (h : s.summary ≠ []) : s.rested = s.settle :=
  if_neg (mt List.isEmpty_iff.1 h)

theorem count_rested (s : Sketch ν ρ) : s.rested.count = s.count := by
  unfold rested
  split_ifs
  · rfl
  · exact count_settle s

theorem sum_rested (s : Sketch ν ρ) : s.rested.sum = s.sum := by
  unfold rested settle
  split_ifs <;> rfl

theorem rested_rested (s : Sketch ν ρ) : s.rested.rested = s.rested := by
  by_cases nil : s.summary = []
  · rw [rested_of_nil nil, rested_of_nil nil]
  · rw [rested_of_ne_nil nil, rested_of_ne_nil (summary_settle_ne_nil nil), settle_settle]

variable [LawfulPrecision ρ]

theorem Condensed.rested (h : s.Condensed) : s.rested.Condensed := by
  unfold Sketch.rested
  split_ifs
  · exact h
  · exact h.settle

theorem Condensed.toSamples_eq (h : s.Condensed) (samples : s.summary ≠ []) :
    s.toSamples = (s.settle.summary, s.settle) := by
  have settled : s.settle.condense = s.settle := h.settle
  rw [toSamples_of_ne_nil samples, settled]

/-- Every read leaves the same sketch. -/
theorem Read.answer_snd (h : s.Condensed) (r : Read ρ) : (r.answer s).2 = s.rested := by
  by_cases nil : s.summary = []
  · have empty := List.isEmpty_iff.2 nil
    rw [rested_of_nil nil]
    cases r with
    | quantile φ =>
      show (s.quantile φ).2 = s
      rw [Sketch.quantile, if_pos empty]
    | toSamples | sampledSum =>
      show s.toSamples.2 = s
      rw [Sketch.toSamples, if_pos empty]
  · rw [rested_of_ne_nil nil]
    cases r with
    | quantile φ => exact quantile_snd φ nil
    | toSamples | sampledSum => exact congrArg Prod.snd (h.toSamples_eq nil)

/-- An answer is the same after any other read. -/
theorem Read.answer_rested (h : s.Condensed) (r : Read ρ) :
    (r.answer s.rested).1 = (r.answer s).1 := by
  by_cases nil : s.summary = []
  · rw [rested_of_nil nil]
  · have samples := summary_settle_ne_nil nil
    have same : s.settle.toSamples.1 = s.toSamples.1 := by
      rw [h.toSamples_eq nil, h.settle.toSamples_eq samples, settle_settle]
    rw [rested_of_ne_nil nil]
    cases r with
    | quantile φ =>
      refine congrArg Answer.value ?_
      rw [Sketch.quantile, Sketch.quantile, if_neg (mt List.isEmpty_iff.1 samples),
        if_neg (mt List.isEmpty_iff.1 nil), settle_settle]
    | toSamples => exact congrArg Answer.samples same
    | sampledSum => exact congrArg (fun xs => Answer.value (Sample.total xs)) same

/-- Reads in turn return what each would return by itself. -/
theorem answers_fst (h : s.Condensed) (reads : List (Read ρ)) :
    (s.answers reads).1 = reads.map fun r => (r.answer s).1 := by
  induction reads generalizing s with
  | nil => rfl
  | cons r rest ih =>
    show (r.answer s).1 :: ((r.answer s).2.answers rest).1 = _
    rw [r.answer_snd h, ih h.rested, List.map_cons]
    simp only [Read.answer_rested h]

theorem answers_snd (h : s.Condensed) (reads : List (Read ρ)) :
    (s.answers reads).2 = if reads = [] then s else s.rested := by
  induction reads generalizing s with
  | nil => rfl
  | cons r rest ih =>
    show ((r.answer s).2.answers rest).2 = _
    rw [r.answer_snd h, ih h.rested, rested_rested, ite_self, if_neg (List.cons_ne_nil r rest)]

end Reads

/-- Reads do not disturb each other, whatever the values are. After any run, of several reads in
turn each returns what it would return as the only one, and the number of values and their sum
stay. -/
theorem answers_eq_map [Measure ν] [LawfulPrecision ρ] (targets : List (Target ρ))
    (uses : List (Use ν ρ)) (reads : List (Read ρ)) :
    let s : Sketch ν ρ := (empty targets).run uses
    (s.answers reads).1 = reads.map (fun r => (r.answer s).1) ∧
      (s.answers reads).2.count = s.count ∧ (s.answers reads).2.sum = s.sum := by
  intro s
  have condensed : s.Condensed := condensed_run targets uses
  rw [answers_snd condensed]
  refine ⟨answers_fst condensed reads, ?_, ?_⟩
  · split_ifs
    · rfl
    · exact count_rested s
  · split_ifs
    · rfl
    · exact sum_rested s

theorem answers_eq_map_fullBuffer :
    let uses : List (Use Float Float) := .insert (0 / 0) :: List.replicate 499 (.insert 1)
    let reads : List (Read Float) := [.quantile 0.5, .toSamples, .sampledSum, .quantile 0.5]
    let s : Sketch Float Float := (empty Target.standard).run uses
    (inserted uses).length = 500 ∧ (s.answers reads).1 = reads.map (fun r => (r.answer s).1) := by
  intro uses reads s
  have length : (inserted uses).length = 500 := by decide +kernel
  exact ⟨length, (answers_eq_map Target.standard uses reads).1⟩

end Sketch

end Telemetry
