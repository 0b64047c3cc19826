import Mathlib.Data.List.Perm.Lattice
import Telemetry.Proofs.Reporters

/-!
# Series

Data points of one name with the same labels are one series to whoever stores them. A reporter of
traffic that was built shows all there is to show, three summaries for each endpoint and a counter
for each status code that an endpoint answered with, and no two of them are one series
(`report_complete`). Gauges are told apart less well. Their names and label names are normalized,
which takes some names of readings to one, so that readings of two identities can be one series
(`not_forall_series_nodup`). It takes readings that are alike after that (`report_series_nodup`).
-/

namespace Telemetry

/-! ## Pairs -/

/-- Pairs without repetition, grouped by their first part. -/
theorem dedup_map_pair_perm {α β γ : Type} [DecidableEq β] [DecidableEq γ] (f : α → β) (g : α → γ)
    (xs : List α) : (xs.map fun x => (f x, g x)).dedup.Perm
      ((xs.map f).dedup.flatMap fun b =>
        ((xs.filter fun x => f x = b).map g).dedup.map (Prod.mk b)) := by
  have nodup : ((xs.map f).dedup.flatMap fun b =>
      ((xs.filter fun x => f x = b).map g).dedup.map (Prod.mk b)).Nodup := by
    refine List.nodup_flatMap.2 ⟨fun b _ => ?_, ?_⟩
    · exact (List.nodup_dedup _).map (Prod.mk_right_injective b)
    · refine (List.nodup_dedup _).imp fun {b b'} other => ?_
      intro p hp hp'
      obtain ⟨c, -, rfl⟩ := List.mem_map.1 hp
      obtain ⟨c', -, eq⟩ := List.mem_map.1 hp'
      exact other (congrArg Prod.fst eq).symm
  rw [List.perm_ext_iff_of_nodup (List.nodup_dedup _) nodup]
  rintro ⟨b, c⟩
  simp only [List.mem_dedup, List.mem_map, List.mem_flatMap, List.mem_filter, decide_eq_true_eq,
    Prod.mk.injEq]
  constructor
  · rintro ⟨x, hx, rfl, rfl⟩
    exact ⟨f x, ⟨x, hx, rfl⟩, g x, ⟨x, ⟨hx, rfl⟩, rfl⟩, rfl, rfl⟩
  · rintro ⟨_, -, _, ⟨x, ⟨hx, rfl⟩, rfl⟩, rfl, rfl⟩
    exact ⟨x, hx, rfl, rfl⟩

/-- A list of pairs is known from the lists of its two sides. -/
theorem map_pair_inj {α β γ : Type} (f : α → β) (g : α → γ) {xs ys : List α} :
    (xs.map fun x => (f x, g x)) = ys.map (fun x => (f x, g x)) ↔
      xs.map f = ys.map f ∧ xs.map g = ys.map g := by
  constructor
  · intro same
    have left := congrArg (List.map Prod.fst) same
    have right := congrArg (List.map Prod.snd) same
    rw [List.map_map, List.map_map] at left right
    exact ⟨left, right⟩
  · rintro ⟨left, right⟩
    rw [← List.zip_map', ← List.zip_map', left, right]

namespace DataPoint

/-- The metric and the texts of the labels. -/
def key (p : DataPoint) : String × List String := (p.name, p.labelValues)

def isSummary (p : DataPoint) : Bool :=
  match p.value with
  | .summary _ => true
  | _ => false

def isCounter (p : DataPoint) : Bool :=
  match p.value with
  | .counter _ => true
  | _ => false

/-- The data point has the name, the help text and the labels of a descriptor. -/
def Of (d : Descriptor) (p : DataPoint) : Prop :=
  p.name = d.name ∧ p.help = d.help ∧ p.labelNames = d.labelNames

end DataPoint

namespace TrafficReporter

variable {scope : String} {q : TrafficReporter}

/-- The descriptors of the metrics that are summaries. -/
def summaries (q : TrafficReporter) : List Descriptor :=
  [q.responseSize, q.clientDuration, q.serverDuration]

theorem descriptors_eq (q : TrafficReporter) : q.descriptors = q.requestTotal :: q.summaries := rfl

/-- Whatever the scope is, the names of the metrics differ. -/
theorem Built.nodup_names (h : q.Built scope) : (q.descriptors.map Descriptor.name).Nodup := by
  have names : q.descriptors.map Descriptor.name =
      ("request_total" :: summaryNames).map (metricName scope) := by
    simp only [descriptors, summaryNames, List.map_cons, List.map_nil, h.requestTotal.name_eq,
      h.responseSize.name_eq, h.clientDuration.name_eq, h.serverDuration.name_eq]
  rw [names]
  refine List.Nodup.map_on (fun a ha b hb same => ?_) (by decide)
  have filled : ∀ name ∈ "request_total" :: summaryNames, name.isEmpty = false := by decide
  exact (metricName_inj (filled a ha) (filled b hb)).1 same

section Points

variable {ρ : Type} [Precision ρ]

theorem filter_isSummary_points (q : TrafficReporter) (e : Endpoint) (s : EndpointStats ρ) :
    ((q.points e s).filter DataPoint.isSummary).map DataPoint.key =
      q.summaries.map fun d => (d.name, e.labelValues) := by
  have counters : (s.statusCodes.toList.map fun codes =>
      q.requestTotal.point (.counter (Float.ofNat codes.2))
        (e.labelValues ++ [toString codes.1])).filter DataPoint.isSummary = [] := by
    refine List.filter_eq_nil_iff.2 fun p hp => ?_
    obtain ⟨codes, -, rfl⟩ := List.mem_map.1 hp
    exact Bool.false_ne_true
  rw [points, List.filter_cons_of_pos rfl, List.filter_cons_of_pos rfl,
    List.filter_cons_of_pos rfl, counters]
  rfl

theorem filter_isCounter_points (q : TrafficReporter) (e : Endpoint) (s : EndpointStats ρ) :
    ((q.points e s).filter DataPoint.isCounter).map DataPoint.key =
      s.statusCodes.toList.map fun codes =>
        (q.requestTotal.name, e.labelValues ++ [toString codes.1]) := by
  have counters : (s.statusCodes.toList.map fun codes =>
      q.requestTotal.point (.counter (Float.ofNat codes.2))
        (e.labelValues ++ [toString codes.1])).filter DataPoint.isCounter = _ :=
    List.filter_eq_self.2 fun p hp => by
      obtain ⟨codes, -, rfl⟩ := List.mem_map.1 hp
      rfl
  rw [points, List.filter_cons_of_neg Bool.false_ne_true,
    List.filter_cons_of_neg Bool.false_ne_true, List.filter_cons_of_neg Bool.false_ne_true,
    counters, List.map_map]
  rfl

/-- The data points of an endpoint are of the reporter's metrics, and each is of one kind. -/
theorem of_mem_points {e : Endpoint} {s : EndpointStats ρ} {p : DataPoint} (hp : p ∈ q.points e s) :
    (∃ d ∈ q.descriptors, p.Of d) ∧ p.isCounter = !p.isSummary := by
  simp only [points, List.mem_cons, List.mem_map] at hp
  simp only [descriptors, List.mem_cons, List.not_mem_nil, or_false]
  rcases hp with rfl | rfl | rfl | ⟨codes, -, rfl⟩
  · exact ⟨⟨_, .inr (.inl rfl), rfl, rfl, rfl⟩, rfl⟩
  · exact ⟨⟨_, .inr (.inr (.inl rfl)), rfl, rfl, rfl⟩, rfl⟩
  · exact ⟨⟨_, .inr (.inr (.inr rfl)), rfl, rfl, rfl⟩, rfl⟩
  · exact ⟨⟨_, .inl rfl, rfl, rfl, rfl⟩, rfl⟩

/-- The data points of traffic are those of its endpoints. -/
theorem Built.points_report_perm (h : q.Built scope) (requests : List Request) :
    (q.report (Traffic.ofRequests requests : Traffic ρ)).points.Perm
      (((Traffic.attributed requests).map Request.toEndpoint).dedup.flatMap fun e =>
        q.points e (.ofRequests (Traffic.requestsOf requests e) : EndpointStats ρ)) := by
  rw [h.report_eq]
  exact Traffic.flatMap_toList_ofRequests_perm q.points requests

/-- The keys that the summaries of traffic have to have: each metric once for each endpoint. -/
def summaryKeys (q : TrafficReporter) (requests : List Request) : List (String × List String) :=
  (((requests.filter fun r => r.applicationId ≠ "").map Request.toEndpoint).dedup).flatMap fun e =>
    q.summaries.map fun d => (d.name, e.labelValues)

/-- The keys that the counters have to have: each status code once for each endpoint with it. -/
def counterKeys (q : TrafficReporter) (requests : List Request) : List (String × List String) :=
  ((requests.filter fun r => r.applicationId ≠ "").map fun r =>
    (r.toEndpoint, r.statusCode)).dedup.map
      fun s => (q.requestTotal.name, s.1.labelValues ++ [toString s.2])

theorem Built.summaries_perm (h : q.Built scope) (requests : List Request) :
    (((q.report (Traffic.ofRequests requests : Traffic ρ)).points.filter
      DataPoint.isSummary).map DataPoint.key).Perm (q.summaryKeys requests) := by
  have perm := ((h.points_report_perm (ρ := ρ) requests).filter DataPoint.isSummary).map
    DataPoint.key
  simp only [List.filter_flatMap, List.map_flatMap, filter_isSummary_points] at perm
  exact perm

theorem Built.counters_perm (h : q.Built scope) (requests : List Request) :
    (((q.report (Traffic.ofRequests requests : Traffic ρ)).points.filter
      DataPoint.isCounter).map DataPoint.key).Perm (q.counterKeys requests) := by
  have perm := ((h.points_report_perm (ρ := ρ) requests).filter DataPoint.isCounter).map
    DataPoint.key
  simp only [List.filter_flatMap, List.map_flatMap, filter_isCounter_points] at perm
  refine perm.trans ?_
  have grouped := (dedup_map_pair_perm Request.toEndpoint Request.statusCode
    (Traffic.attributed requests)).map
      fun s => (q.requestTotal.name, s.1.labelValues ++ [toString s.2])
  rw [List.map_flatMap] at grouped
  refine .trans (.flatMap_left _ fun e _ => ?_) grouped.symm
  have codes := toList_perm_count
    (EndpointStats.getElem?_statusCodes (ρ := ρ) (Traffic.requestsOf requests e))
  have keys := codes.map fun codes => (q.requestTotal.name, e.labelValues ++ [toString codes.1])
  rw [List.map_map] at keys
  rw [List.map_map]
  exact keys

theorem labelValues_injective : Function.Injective Endpoint.labelValues := by
  rintro ⟨a, b, c, d⟩ ⟨a', b', c', d'⟩ same
  simpa [Endpoint.labelValues] using same

/-- Endpoints and status codes are kept apart by their texts, metrics by their names. -/
theorem Built.nodup_keys (h : q.Built scope) (requests : List Request) :
    (q.summaryKeys requests ++ q.counterKeys requests).Nodup := by
  have names := h.nodup_names
  rw [descriptors_eq, List.map_cons, List.nodup_cons] at names
  refine List.nodup_append'.2 ⟨?_, ?_, ?_⟩
  · refine List.nodup_flatMap.2 ⟨fun e _ => ?_, (List.nodup_dedup _).imp fun {e e'} other => ?_⟩
    · have each := names.2.map (Prod.mk_left_injective e.labelValues)
      rwa [List.map_map] at each
    · intro key hk hk'
      obtain ⟨d, -, rfl⟩ := List.mem_map.1 hk
      obtain ⟨d', -, eq⟩ := List.mem_map.1 hk'
      exact other (labelValues_injective (congrArg Prod.snd eq).symm)
  · refine (List.nodup_dedup _).map ?_
    rintro ⟨e, code⟩ ⟨e', code'⟩ same
    obtain ⟨labels, status⟩ := List.append_inj' (congrArg Prod.snd same) rfl
    rw [Prod.mk.injEq]
    exact ⟨labelValues_injective labels, Int.repr_inj.1 (List.singleton_inj.1 status)⟩
  · intro key hk hk'
    obtain ⟨e, -, hk⟩ := List.mem_flatMap.1 hk
    obtain ⟨d, hd, rfl⟩ := List.mem_map.1 hk
    obtain ⟨s, -, eq⟩ := List.mem_map.1 hk'
    have same : q.requestTotal.name = d.name := congrArg Prod.fst eq
    exact names.1 (same ▸ List.mem_map_of_mem hd)

theorem Built.keys_perm (h : q.Built scope) (requests : List Request) :
    ((q.report (Traffic.ofRequests requests : Traffic ρ)).points.map DataPoint.key).Perm
      (q.summaryKeys requests ++ q.counterKeys requests) := by
  have others : (q.report (Traffic.ofRequests requests : Traffic ρ)).points.filter
      (fun p => !p.isSummary) =
        (q.report (Traffic.ofRequests requests : Traffic ρ)).points.filter DataPoint.isCounter := by
    refine List.filter_congr fun p hp => ?_
    obtain ⟨e, -, hp⟩ := List.mem_flatMap.1 ((h.points_report_perm requests).subset hp)
    exact (of_mem_points hp).2.symm
  have split := (List.filter_append_perm DataPoint.isSummary
    (q.report (Traffic.ofRequests requests : Traffic ρ)).points).map DataPoint.key
  rw [others, List.map_append] at split
  exact split.symm.trans ((h.summaries_perm requests).append (h.counters_perm requests))

end Points

/-- What is shown of requests is complete. Nothing is skipped. There are three summaries for each
endpoint that a request with an application had, one for each metric, a counter for each status code
of such an endpoint, and nothing else. Each data point is of just one of the reporter's metrics, and
no two agree in name and texts. -/
theorem report_complete {ρ : Type} [Precision ρ] {scope : String} {mode : SumMode}
    {q : TrafficReporter} (built : build scope mode = .ok q) (requests : List Request) :
    let report := q.report (Traffic.ofRequests requests : Traffic ρ)
    let owned := requests.filter fun r => r.applicationId ≠ ""
    let endpoints := (owned.map Request.toEndpoint).dedup
    let statuses := (owned.map fun r => (r.toEndpoint, r.statusCode)).dedup
    report.skipped = [] ∧
      ((report.points.filter DataPoint.isSummary).map DataPoint.key).Perm
        (endpoints.flatMap fun e => [q.responseSize, q.clientDuration, q.serverDuration].map
          fun d => (d.name, e.labelValues)) ∧
      ((report.points.filter DataPoint.isCounter).map DataPoint.key).Perm
        (statuses.map fun s => (q.requestTotal.name, s.1.labelValues ++ [toString s.2])) ∧
      report.points.length = 3 * endpoints.length + statuses.length ∧
      (∀ p ∈ report.points, ∃! d, d ∈ q.descriptors ∧ p.Of d) ∧
      report.points.Pairwise fun p p' => ¬(p.name = p'.name ∧ p.labelValues = p'.labelValues) := by
  intro report owned endpoints statuses
  have h : q.Built scope := built_of_build built
  have keys := h.keys_perm (ρ := ρ) requests
  refine ⟨congrArg Report.skipped (h.report_eq _), h.summaries_perm requests,
    h.counters_perm requests, ?_, fun p hp => ?_, ?_⟩
  · have length := keys.length_eq
    rw [List.length_map, List.length_append, summaryKeys, counterKeys, List.length_map,
      List.length_flatMap] at length
    rw [length]
    simp [summaries, endpoints, statuses, owned, Nat.mul_comm]
  · obtain ⟨e, -, hp⟩ := List.mem_flatMap.1 ((h.points_report_perm requests).subset hp)
    obtain ⟨⟨d, mem, of⟩, -⟩ := of_mem_points hp
    refine ⟨d, ⟨mem, of⟩, fun d' own => ?_⟩
    exact List.inj_on_of_nodup_map h.nodup_names own.1 mem (own.2.1.symm.trans of.1)
  · have nodup := keys.nodup_iff.2 (h.nodup_keys requests)
    refine (List.pairwise_map.1 nodup).imp fun other same => other ?_
    exact Prod.ext same.1 same.2

/-- Requests to two endpoints, one of which answered in two ways, and one without an application. -/
def threeAnswers : List Request :=
  let get : Endpoint := ⟨"app", "0", "/", "GET"⟩
  [⟨get, 200, 512, 7, 5⟩, ⟨get, 404, 0, 9, 2⟩, ⟨{ get with method := "PUT" }, 200, 16, 8, 4⟩,
    ⟨{ get with applicationId := "" }, 200, 64, 3, 1⟩, ⟨get, 200, 256, 6, 5⟩]

theorem report_complete_threeAnswers : ∃ q, build "firehose" .samples = .ok q ∧
    let report := q.report (Traffic.ofRequests threeAnswers : Traffic Float)
    report.skipped = [] ∧ report.points.length = 9 ∧
      (∀ p ∈ report.points, ∃! d, d ∈ q.descriptors ∧ p.Of d) ∧
      report.points.Pairwise fun p p' => ¬(p.name = p'.name ∧ p.labelValues = p'.labelValues) := by
  have built : build "firehose" .samples = .ok _ := rfl
  obtain ⟨skipped, -, -, length, described, differ⟩ :=
    report_complete (ρ := Float) built threeAnswers
  exact ⟨_, built, skipped, length.trans (by decide), described, differ⟩

end TrafficReporter

/-! ## Readings -/

/-- An identity as far as an exposition can tell it: the name and the keys of the tags are
normalized, and all else is as it was. -/
structure Likeness where
  origin : String
  deployment : String
  job : String
  index : String
  ip : String
  name : String
  tags : List (String × String)
  deriving DecidableEq

def Identity.likeness (i : Identity) : Likeness where
  origin := i.origin
  deployment := i.deployment
  job := i.job
  index := i.index
  ip := i.ip
  name := Name.normalize i.name
  tags := i.tags.entries.map fun tag => (Name.normalize tag.1, tag.2)

/-- The metric with the names and the texts of the labels. -/
def DataPoint.series (p : DataPoint) : String × List String × List String :=
  (p.name, p.labelNames, p.labelValues)

namespace ReadingReporter

variable {p : ReadingReporter} {r s : Reading} {a b : DataPoint}

theorem series_of_gauge_eq_ok (h : p.gauge r = .ok a) : a.series =
    (p.metricName r, "environment" :: labelNames r, p.environment :: labelValues r) := by
  rw [gauge, bind_eq_ok_iff] at h
  obtain ⟨d, built, made⟩ := h
  obtain ⟨name, -, labels, const⟩ := Descriptor.build_eq_ok_iff.1 built
  unfold DataPoint.build at made
  split_ifs at made
  cases made
  simp only [DataPoint.series, Descriptor.labelNames, name, const, labels, constLabels,
    List.map_cons, List.map_nil, List.singleton_append]

/-- Of one origin, two readings have metrics of one name if their names are alike. -/
theorem metricName_eq_iff (origin : r.origin = s.origin) :
    p.metricName r = p.metricName s ↔ Name.normalize r.name = Name.normalize s.name := by
  have filled : ∀ a b : String, (a ++ "_" ++ b).isEmpty = false := by
    intro a b
    simp
  rw [metricName, metricName, Name.qualify_inj rfl (filled _ _) (filled _ _), origin,
    String.append_right_inj]

/-- Two gauges are one series if and only if their readings are alike and of one unit. -/
theorem series_eq_iff (ha : p.gauge r = .ok a) (hb : p.gauge s = .ok b) :
    a.series = b.series ↔ (r.likeness, r.unit) = (s.likeness, s.unit) := by
  have tags := @map_pair_inj (String × String) _ _ (fun tag => Name.normalize tag.1) Prod.snd
    r.tags.entries s.tags.entries
  rw [series_of_gauge_eq_ok ha, series_of_gauge_eq_ok hb]
  simp only [Prod.mk.injEq, labelNames, labelValues, Identity.likeness, Likeness.mk.injEq,
    List.cons_append, List.cons.injEq, List.append_cancel_left_eq, List.nil_append, true_and, tags]
  constructor
  · rintro ⟨metric, keys, origin, deployment, job, index, ip, unit, texts⟩
    exact ⟨⟨origin, deployment, job, index, ip, (metricName_eq_iff origin).1 metric, keys, texts⟩,
      unit⟩
  · rintro ⟨⟨origin, deployment, job, index, ip, name, keys, texts⟩, unit⟩
    exact ⟨(metricName_eq_iff origin).2 name, keys, origin, deployment, job, index, ip, unit, texts⟩

/-- The gauges of a report are those that can be made, in the order of the readings. -/
theorem points_report (p : ReadingReporter) (readings : List Reading) :
    (p.report readings).points = readings.filterMap fun r => (p.gauge r).toOption := by
  rw [report, Report.ofAttempts, List.filterMap_map]
  refine List.filterMap_congr fun r _ => ?_
  dsimp only [Function.comp_apply]
  cases p.gauge r <;> rfl

theorem nodup_series_iff (p : ReadingReporter) (readings : List Reading) :
    ((p.report readings).points.map DataPoint.series).Nodup ↔
      ((readings.filter fun r => (p.gauge r).isOk).map fun r => (r.likeness, r.unit)).Nodup := by
  rw [points_report, List.Nodup, List.pairwise_map, List.pairwise_filterMap, List.Nodup,
    List.pairwise_map, List.pairwise_filter]
  refine List.Pairwise.iff fun {r s} => ?_
  cases ha : p.gauge r with
  | error e => simp [Except.toOption, Except.isOk, Except.toBool]
  | ok a =>
    cases hb : p.gauge s with
    | error e => simp [Except.toOption, Except.isOk, Except.toBool]
    | ok b =>
      have same := series_eq_iff ha hb
      simp [Except.toOption, Except.isOk, Except.toBool, same]

/-- Readings stay apart as series as far as normalized names can tell them apart: if no two
readings are alike, no two gauges are one series. And two gauges are one series just where two
readings that are shown are alike and of one unit. -/
theorem report_series_nodup (p : ReadingReporter) (readings : List Reading) :
    let shown := readings.filter fun r => (p.gauge r).isOk
    let apart := ((p.report readings).points.map DataPoint.series).Nodup
    ((readings.map fun r => r.likeness).Nodup → apart) ∧
      (apart ↔ (shown.map fun r => (r.likeness, r.unit)).Nodup) := by
  intro shown apart
  refine ⟨fun unlike => (p.nodup_series_iff readings).2 ?_, p.nodup_series_iff readings⟩
  have unlikeShown : (shown.map fun r => r.likeness).Nodup :=
    unlike.sublist (List.filter_sublist.map _)
  refine List.Nodup.of_map Prod.fst ?_
  rwa [List.map_map]

/-- Readings of one job whose names differ until they are normalized. -/
def twoSpellings : List Reading :=
  let reading (name : String) (value : Float) : Reading :=
    { origin := "cell", deployment := "cf", job := "diego", index := "0", ip := "10.0.0.1",
      name := name, tags := .empty, value := value, unit := "count" }
  [reading "numCPUS" 4, reading "num_cpus" 8]

theorem not_forall_series_nodup : ¬∀ (scope environment : String) (p : ReadingReporter)
    (readings : List Reading), build scope environment = .ok p →
      (readings.map Reading.toIdentity).Nodup →
        ((p.report readings).points.map DataPoint.series).Nodup := by
  intro apart
  have built : build "firehose" "prod" = .ok _ := rfl
  have differ : (twoSpellings.map Reading.toIdentity).Nodup := by decide
  have series := (nodup_series_iff _ twoSpellings).1 (apart _ _ _ _ built differ)
  revert series
  decide

end ReadingReporter

end Telemetry
