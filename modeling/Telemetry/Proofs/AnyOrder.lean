import Telemetry.Proofs.Reporters
import Telemetry.Proofs.Sketch.Conservation
import Telemetry.Proofs.Sketch.Cuts
import Telemetry.Proofs.WholeSums

/-!
# Requests in any order

The order in which the requests of an endpoint come can show in two ways. A sketch merges the first
values before it has seen the later ones, and a running sum of doubles is rounded after each of its
steps. Neither happens as long as the requests are few and their numbers small (`Modest`): then
nothing is merged, and all sums are exact. A report of such requests is the same in any order
(`report_perm_of_perm`).
-/

namespace Telemetry

/-- The requests of an endpoint do not fill a buffer, and the sizes of their numbers add up to sums
that a double can hold. -/
structure Modest (own : List Request) : Prop where
  few : own.length < Sketch.capacity
  contentLength : (own.map fun r => r.contentLength.natAbs).sum ≤ 2 ^ 53
  clientDuration : (own.map fun r => r.clientDuration.natAbs).sum ≤ 2 ^ 53
  serverDuration : (own.map fun r => r.serverDuration.natAbs).sum ≤ 2 ^ 53

theorem Modest.sublist {own others : List Request} (h : Modest own) (sub : others.Sublist own) :
    Modest others where
  few := sub.length_le.trans_lt h.few
  contentLength := ((sub.map _).sum_le_sum fun _ _ => Nat.zero_le _).trans h.contentLength
  clientDuration := ((sub.map _).sum_le_sum fun _ _ => Nat.zero_le _).trans h.clientDuration
  serverDuration := ((sub.map _).sum_le_sum fun _ _ => Nat.zero_le _).trans h.serverDuration

variable {ρ : Type} [Precision ρ] {requests others own : List Request}

/-! ## One sketch -/

theorem Sketch.alike_insertAll {values others : List Float} (room : values.length < capacity)
    (perm : values.Perm others) :
    (standard.insertAll values : Sketch Float ρ).Alike (standard.insertAll others) := by
  have start : At Target.standard (0, []) [] (standard : Sketch Float ρ) := ⟨rfl, rfl, rfl⟩
  exact (start.insertAll room).alike (start.insertAll (perm.length_eq ▸ room)) perm

/-- The running sum of integers whose sizes are small in total does not depend on their order. -/
theorem Sketch.sum_insertAll_perm {zs zs' : List ℤ} (small : (zs.map Int.natAbs).sum ≤ 2 ^ 53)
    (perm : zs.Perm zs') : (standard.insertAll (zs.map Float.ofInt) : Sketch Float ρ).sum =
      (standard.insertAll (zs'.map Float.ofInt) : Sketch Float ρ).sum := by
  have exact_sum : ∀ zs : List ℤ, (zs.map Int.natAbs).sum ≤ 2 ^ 53 →
      (standard.insertAll (zs.map Float.ofInt) : Sketch Float ρ).sum = Float.ofInt zs.sum := by
    intro zs small
    have total := Binary64.foldl_add_ofInt zs 0 (by simpa using small)
    rw [zero_add] at total
    exact (sum_insertAll standard _).trans total
  rw [exact_sum zs small, exact_sum zs' ((perm.map Int.natAbs).sum_eq ▸ small), perm.sum_eq]

namespace TrafficReporter

/-- The questions that a summary asks change neither the count nor the running sum. -/
theorem summarize_eq (mode : SumMode) (s : Sketch Float ρ) : summarize mode s =
    { count := s.count
      sum := match mode with
        | .exact => s.sum
        | .samples => Sample.total (s.quantiles (reportedQuantiles ρ)).2.toSamples.1
      quantiles := (reportedQuantiles Float).zip (s.quantiles (reportedQuantiles ρ)).1 } := by
  rw [← Sketch.count_quantiles s (reportedQuantiles ρ),
    ← Sketch.sum_quantiles s (reportedQuantiles ρ)]
  rfl

theorem summarize_congr (mode : SumMode) {s t : Sketch Float ρ} (alike : s.Alike t)
    (count : s.count = t.count) (sum : s.sum = t.sum) : summarize mode s = summarize mode t := by
  obtain ⟨answers, after⟩ := alike.quantiles (reportedQuantiles ρ)
  rw [summarize_eq, summarize_eq, count, sum, answers, after.toSamples.1]

/-- A summary of one number of each request. -/
theorem summarize_insertAll_perm (mode : SumMode) (number : Request → ℤ)
    (few : own.length < Sketch.capacity)
    (small : (own.map fun r => (number r).natAbs).sum ≤ 2 ^ 53) (perm : own.Perm others) :
    let sketch (requests : List Request) : Sketch Float ρ :=
      .insertAll .standard (requests.map fun r => Float.ofInt (number r))
    summarize mode (sketch own) = summarize mode (sketch others) := by
  refine summarize_congr mode (Sketch.alike_insertAll ?_ (perm.map _)) ?_ ?_
  · rwa [List.length_map]
  · rw [Sketch.count_insertAll, Sketch.count_insertAll, List.length_map, List.length_map,
      perm.length_eq]
  · have small_numbers : ((own.map number).map Int.natAbs).sum ≤ 2 ^ 53 := by rwa [List.map_map]
    have sums := Sketch.sum_insertAll_perm (ρ := ρ) small_numbers (perm.map number)
    rwa [List.map_map, List.map_map] at sums

end TrafficReporter

/-! ## One endpoint -/

theorem EndpointStats.statusCodes_perm (perm : own.Perm others) :
    (ofRequests own : EndpointStats ρ).statusCodes.toList.Perm
      (ofRequests others : EndpointStats ρ).statusCodes.toList := by
  have codes := perm.map Request.statusCode
  refine (toList_perm_count (getElem?_statusCodes own)).trans (.trans ?_
    (toList_perm_count (getElem?_statusCodes others)).symm)
  simp only [codes.count_eq]
  exact codes.dedup.map _

theorem TrafficReporter.endpointPoints_perm (q : TrafficReporter) (e : Endpoint)
    (modest : Modest own) (perm : own.Perm others) :
    (q.endpointPoints e (.ofRequests own : EndpointStats ρ)).Perm
      (q.endpointPoints e (.ofRequests others : EndpointStats ρ)) := by
  have summaries : ∀ (sketch : EndpointStats ρ → Sketch Float ρ) (number : Request → ℤ),
      sketch .empty = .standard →
      (∀ s r, sketch (s.insert r) = (sketch s).insert (Float.ofInt (number r))) →
      (own.map fun r => (number r).natAbs).sum ≤ 2 ^ 53 →
      summarize q.sumMode (sketch (.ofRequests own)) =
        summarize q.sumMode (sketch (.ofRequests others)) := by
    intro sketch number start step small
    rw [EndpointStats.sketch_ofRequests sketch number start step,
      EndpointStats.sketch_ofRequests sketch number start step]
    exact summarize_insertAll_perm q.sumMode number modest.few small perm
  unfold endpointPoints summaryPoint
  rw [summaries EndpointStats.contentLength Request.contentLength rfl (fun _ _ => rfl)
      modest.contentLength,
    summaries EndpointStats.clientDuration Request.clientDuration rfl (fun _ _ => rfl)
      modest.clientDuration,
    summaries EndpointStats.serverDuration Request.serverDuration rfl (fun _ _ => rfl)
      modest.serverDuration]
  have totals := (EndpointStats.statusCodes_perm (ρ := ρ) perm).map fun codes =>
    q.totalPoint e codes.1 codes.2
  exact ((totals.cons _).cons _).cons _

/-! ## All endpoints -/

namespace TrafficReporter

/-- Requests in another order make the same report up to the order of its data points, down to the
bits of each value: as many requests are discarded, and the same data points are shown. It only
takes modest requests of each endpoint that belongs to an application. -/
theorem report_perm_of_perm (q : TrafficReporter) (perm : requests.Perm others)
    (modest : ∀ e : Endpoint, e.applicationId ≠ "" →
      Modest (requests.filter fun r => r.toEndpoint = e)) :
    let report := q.report (Traffic.ofRequests requests : Traffic ρ)
    let report' := q.report (Traffic.ofRequests others : Traffic ρ)
    report.discarded = report'.discarded ∧ report.points.Perm report'.points := by
  intro report report'
  constructor
  · change (Traffic.ofRequests requests : Traffic ρ).discarded =
      (Traffic.ofRequests others : Traffic ρ).discarded
    rw [Traffic.discarded_ofRequests, Traffic.discarded_ofRequests, perm.countP_eq]
  · -- Data points are kept in order, so it is enough to permute the attempts at them.
    refine List.Perm.filterMap _ ?_
    have own_perm : ∀ e, (Traffic.requestsOf requests e).Perm (Traffic.requestsOf others e) :=
      fun e => (perm.filter _).filter _
    have endpoints := ((perm.filter fun r => r.applicationId ≠ "").map Request.toEndpoint).dedup
    have attempts := Traffic.flatMap_toList_ofRequests_perm (ρ := ρ) q.endpointPoints
    refine (attempts requests).trans (.trans ?_ (attempts others).symm)
    refine endpoints.flatMap fun e he => ?_
    have owned := Traffic.applicationId_ne_of_mem he
    refine q.endpointPoints_perm e ?_ (own_perm e)
    rw [Traffic.requestsOf_eq_filter owned]
    exact modest e owned

/-- Requests of two endpoints that arrive in turns. All client durations add up to `2 ^ 53`. -/
def inTurns : List Request :=
  let get : Endpoint := ⟨"app", "0", "/", "GET"⟩
  let put : Endpoint := { get with method := "PUT" }
  [⟨get, 200, 512, 2 ^ 53 - 19, -5⟩, ⟨put, 200, 16, 8, 4⟩, ⟨get, 404, 0, 1, 2⟩,
    ⟨{ get with applicationId := "" }, 200, 64, 3, 1⟩, ⟨put, 201, 2, 6, 5⟩, ⟨get, 200, 256, 1, 5⟩]

theorem modest_inTurns : Modest inTurns where
  few := by decide
  contentLength := by decide
  clientDuration := by decide
  serverDuration := by decide

theorem report_perm_of_perm_reverse : ∃ q, build "firehose" .exact = .ok q ∧
    (∀ e : Endpoint, e.applicationId ≠ "" →
      Modest (inTurns.filter fun r => r.toEndpoint = e)) ∧
    let report := q.report (Traffic.ofRequests inTurns : Traffic Float)
    let report' := q.report (Traffic.ofRequests inTurns.reverse : Traffic Float)
    report.discarded = report'.discarded ∧ report.points.Perm report'.points := by
  have modest : ∀ e : Endpoint, e.applicationId ≠ "" →
      Modest (inTurns.filter fun r => r.toEndpoint = e) :=
    fun e _ => modest_inTurns.sublist List.filter_sublist
  refine ⟨_, rfl, modest, ?_⟩
  exact report_perm_of_perm _ (List.reverse_perm inTurns).symm modest

end TrafficReporter

end Telemetry
