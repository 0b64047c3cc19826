import Telemetry.Proofs.Sketch.Extremes
import Telemetry.Proofs.Sketch.Monotone
import Telemetry.Proofs.Sketch.Reads
import Telemetry.Proofs.WellFormed

/-!
# Reported quantiles

A report asks each sketch for several quantiles in turn. A question does not disturb those after it
(`quantiles_fst`), so what a summary shows are answers of one and the same sketch, and these do not
cross. It makes no difference what was done to the sketches before, be it requests taken in or
questions asked, as long as no value was NaN (`quantiles_ordered`).
-/

namespace Telemetry

variable {ρ : Type} [Precision ρ]

/-! ## Questions in turn -/

namespace Sketch

/-- Several questions in turn get the answers that each would get by itself. -/
theorem quantiles_fst {ν : Type} [Measure ν] [LawfulPrecision ρ] {s : Sketch ν ρ}
    (h : s.Condensed) (φs : List ρ) : (s.quantiles φs).1 = φs.map fun φ => (s.quantile φ).1 := by
  induction φs generalizing s with
  | nil => rfl
  | cons φ rest ih =>
    have after : (s.quantile φ).2 = s.rested := Read.answer_snd h (.quantile φ)
    have same : ∀ φ : ρ, (s.rested.quantile φ).1 = (s.quantile φ).1 := fun φ =>
      Answer.value.inj (Read.answer_rested h (.quantile φ))
    show (s.quantile φ).1 :: ((s.quantile φ).2.quantiles rest).1 = _
    rw [after, ih h.rested, List.map_cons]
    simp only [same]

/-! ## Sketches of numbers -/

/-- The sketch is what some uses over numbers make of the standard one. -/
def Reached (s : Sketch Float ρ) : Prop :=
  ∃ uses : List (Use Float ρ), (∀ v ∈ inserted uses, v.isNaN = false) ∧ s = standard.run uses

theorem reached_standard : (standard : Sketch Float ρ).Reached :=
  ⟨[], by simp [inserted], rfl⟩

theorem Reached.run {s : Sketch Float ρ} (h : s.Reached) (more : List (Use Float ρ))
    (hm : ∀ v ∈ inserted more, v.isNaN = false) : (s.run more).Reached := by
  obtain ⟨uses, numbers, rfl⟩ := h
  refine ⟨uses ++ more, ?_, (List.foldl_append ..).symm⟩
  rw [inserted, List.filterMap_append]
  exact List.forall_mem_append.2 ⟨numbers, hm⟩

theorem Reached.insert {s : Sketch Float ρ} (h : s.Reached) {v : Float} (hv : v.isNaN = false) :
    (s.insert v).Reached :=
  h.run [.insert v] (List.forall_mem_singleton.2 hv)

/-- An answer is a number, also that of a sketch of no values. -/
theorem isNaN_quantile {targets : List (Target ρ)} {uses : List (Use Float ρ)}
    (numbers : ∀ v ∈ inserted uses, v.isNaN = false) (φ : ρ) :
    (((empty targets).run uses).quantile φ).1.isNaN = false := by
  by_cases none : inserted uses = []
  · have nil : ((empty targets).run uses).summary = [] := by
      by_contra samples
      have filled := (capacity_le_merged_run targets uses samples).trans
        (holds_run targets uses).merged_le
      rw [none] at filled
      exact absurd filled (by decide)
    rw [quantile_exact numbers φ nil, none, LawfulMeasure.sorted, List.mergeSort_nil]
    exact Binary64.isNaN_ofNat 0
  · exact numbers _ (quantile_mem numbers φ none)

theorem Reached.quantile_mono {s : Sketch Float ℚ} (h : s.Reached) {φ φ' : ℚ} (le : φ ≤ φ') :
    (s.quantile φ).1 ≤ (s.quantile φ').1 := by
  obtain ⟨uses, numbers, rfl⟩ := h
  exact LawfulMeasure.le_of_place_le (isNaN_quantile numbers φ) (isNaN_quantile numbers φ')
    (place_quantile_mono Target.valid_standard Target.endsBelowTop_standard numbers le)

end Sketch

/-! ## Traffic -/

namespace EndpointStats

/-- The sketches are made by uses over numbers. -/
structure Reached (s : EndpointStats ρ) : Prop where
  contentLength : s.contentLength.Reached
  clientDuration : s.clientDuration.Reached
  serverDuration : s.serverDuration.Reached

theorem Reached.insert {s : EndpointStats ρ} (h : s.Reached) (r : Request) : (s.insert r).Reached where
  contentLength := h.contentLength.insert (Binary64.isNaN_ofInt _)
  clientDuration := h.clientDuration.insert (Binary64.isNaN_ofInt _)
  serverDuration := h.serverDuration.insert (Binary64.isNaN_ofInt _)

theorem reached_ofRequests (requests : List Request) :
    (ofRequests requests : EndpointStats ρ).Reached := by
  induction requests using List.reverseRecOn with
  | nil => exact ⟨Sketch.reached_standard, Sketch.reached_standard, Sketch.reached_standard⟩
  | append_singleton requests r ih =>
    rw [ofRequests_concat]
    exact ih.insert r

end EndpointStats

/-- The sketches of all endpoints are made by uses over numbers. -/
def Traffic.Reached (t : Traffic ρ) : Prop := ∀ e s, t.get? e = some s → s.Reached

theorem Traffic.reached_ofRequests (requests : List Request) :
    (ofRequests requests : Traffic ρ).Reached := by
  intro e s found
  rw [get?_ofRequests] at found
  split_ifs at found
  obtain rfl := Option.some.inj found
  exact EndpointStats.reached_ofRequests _

/-! ## Summaries -/

namespace TrafficReporter

/-- A summary shows the answers to the reported quantiles. -/
theorem quantiles_summarize [LawfulPrecision ρ] {s : Sketch Float ρ} (h : s.Reached)
    (mode : SumMode) : (summarize mode s).quantiles =
      (reportedQuantiles Float).zip ((reportedQuantiles ρ).map fun φ => (s.quantile φ).1) := by
  obtain ⟨uses, -, rfl⟩ := h
  have condensed : (Sketch.standard.run uses : Sketch Float ρ).Condensed :=
    Sketch.condensed_run Target.standard uses
  rw [← Sketch.quantiles_fst condensed]
  rfl

/-- A reported summary is that of a sketch of an endpoint. -/
theorem exists_summarize_of_mem_report {q : TrafficReporter} {t : Traffic ρ} {p : DataPoint}
    {summary : Summary} (hp : p ∈ (q.report t).points) (shown : p.value = .summary summary) :
    ∃ e s, t.get? e = some s ∧ ∃ sketch ∈ [s.contentLength, s.clientDuration, s.serverDuration],
      summary = summarize q.sumMode sketch := by
  obtain ⟨⟨e, s⟩, entry, tried⟩ := List.mem_flatMap.1 (Report.mem_points_ofAttempts.1 hp)
  refine ⟨e, s, Std.TreeMap.mem_toList_iff_getElem?_eq_some.1 entry, ?_⟩
  have made : ∀ {d : Descriptor} {value : Measurement} {record : String} {texts : List String},
      .ok p = Report.attempt record d.name (DataPoint.build d value texts) →
        value = .summary summary := fun tried =>
    (DataPoint.value_of_build (Report.eq_ok_of_attempt tried.symm)).symm.trans shown
  simp only [endpointPoints, summaryPoint, totalPoint, List.mem_cons, List.mem_map] at tried
  rcases tried with tried | tried | tried | ⟨codes, -, tried⟩
  · exact ⟨_, by simp, (Measurement.summary.inj (made tried)).symm⟩
  · exact ⟨_, by simp, (Measurement.summary.inj (made tried)).symm⟩
  · exact ⟨_, by simp, (Measurement.summary.inj (made tried)).symm⟩
  · cases made tried.symm

/-- Quantiles do not cross. A sketch that uses over numbers made of the standard one answers a
greater quantile with no less, and a summary that is reported of such sketches is ordered. The
sketches of the traffic that requests make are such. -/
theorem quantiles_ordered :
    (∀ s : Sketch Float ℚ, s.Reached → ∀ φ φ' : ℚ, φ ≤ φ' →
        (s.quantile φ).1 ≤ (s.quantile φ').1) ∧
      (∀ (q : TrafficReporter) (t : Traffic ℚ), t.Reached → ∀ p ∈ (q.report t).points,
        ∀ summary, p.value = .summary summary → ∃ p50 p90 p99,
          summary.quantiles = (reportedQuantiles Float).zip [p50, p90, p99] ∧
            p50 ≤ p90 ∧ p90 ≤ p99) ∧
      ∀ requests, (Traffic.ofRequests requests : Traffic ℚ).Reached := by
  refine ⟨fun s h φ φ' le => h.quantile_mono le, ?_, Traffic.reached_ofRequests⟩
  intro q t reached p hp summary shown
  obtain ⟨e, s, found, sketch, mem, rfl⟩ := exists_summarize_of_mem_report hp shown
  obtain ⟨contentLength, clientDuration, serverDuration⟩ := reached e s found
  have made : sketch.Reached := by
    simp only [List.mem_cons, List.not_mem_nil, or_false] at mem
    rcases mem with rfl | rfl | rfl <;> assumption
  have lower : (1 / 2 : ℚ) ≤ 9 / 10 := by norm_num
  have upper : (9 / 10 : ℚ) ≤ 99 / 100 := by norm_num
  exact ⟨_, _, _, quantiles_summarize made q.sumMode, made.quantile_mono lower,
    made.quantile_mono upper⟩

/-- Two requests to one endpoint. -/
def twoAnswers : List Request :=
  let get : Endpoint := ⟨"app", "0", "/", "GET"⟩
  [⟨get, 200, 512, 7, 5⟩, ⟨get, 404, 0, 9, 2⟩]

theorem quantiles_ordered_twoAnswers :
    let s : Sketch Float ℚ := .run .standard (Sketch.insertions Sketch.descent)
    let t : Traffic ℚ := .ofRequests twoAnswers
    s.Reached ∧ (1 / 2 : ℚ) ≤ 9 / 10 ∧ (s.quantile (1 / 2)).1 ≤ (s.quantile (9 / 10)).1 ∧
      t.Reached ∧ ∃ q, build "firehose" .exact = .ok q ∧
        ∃ p ∈ (q.report t).points, ∃ summary, p.value = .summary summary ∧ ∃ p50 p90 p99,
          summary.quantiles = (reportedQuantiles Float).zip [p50, p90, p99] ∧
            p50 ≤ p90 ∧ p90 ≤ p99 := by
  obtain ⟨answers, summaries, requests⟩ := quantiles_ordered
  have reached : (.run .standard (Sketch.insertions Sketch.descent) : Sketch Float ℚ).Reached :=
    Sketch.reached_standard.run _ Sketch.isNaN_of_mem_descent
  have le : (1 / 2 : ℚ) ≤ 9 / 10 := by norm_num
  obtain ⟨q, built, p, hp, counted⟩ : ∃ q, build "firehose" .exact = .ok q ∧
      ∃ p ∈ (q.report (.ofRequests twoAnswers : Traffic ℚ)).points, p.count? = some 2 :=
    ⟨_, rfl, by decide +kernel⟩
  refine ⟨reached, le, answers _ reached _ _ le, requests _, q, built, p, hp, ?_⟩
  cases shown : p.value with
  | counter | gauge => simp [DataPoint.count?, shown] at counted
  | summary summary => exact ⟨summary, rfl, summaries q _ (requests _) p hp summary shown⟩

end TrafficReporter

end Telemetry
