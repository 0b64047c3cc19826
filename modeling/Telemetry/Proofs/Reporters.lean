import Std.Data.String.ToInt
import Telemetry.Proofs.Name
import Telemetry.Proofs.Rounding
import Telemetry.Proofs.Sketch.Run
import Telemetry.Proofs.Traffic
import Telemetry.Reporter.Readings
import Telemetry.Reporter.Traffic

/-!
# What reporters show

A reporter that was built can make every data point of traffic, since the labels are complete. The
data points that carry the labels of an endpoint are the endpoint's own (`Built.filter_carries`):
three summaries that count all of its requests, and one counter for each status code. Counters are
doubles, and exact while there are fewer than `2 ^ 53` requests, so that their sums can be compared
with the number of requests (`Built.sum_totals_shown`). Readings become gauges or are skipped, one
by one (`length_report`).
-/

namespace Telemetry

/-! ## Looking at data points -/

namespace DataPoint

/-- The value of a counter. -/
def total? (p : DataPoint) : Option ℚ :=
  match p.value with
  | .counter total => some (Binary64.toRat total)
  | _ => none

/-- The number of values of a summary. -/
def count? (p : DataPoint) : Option ℕ :=
  match p.value with
  | .summary s => some s.count
  | _ => none

def isGauge (p : DataPoint) : Bool :=
  match p.value with
  | .gauge _ => true
  | _ => false

/-- The data point has all of these labels with these texts. -/
def Carries (labels : List (String × String)) (p : DataPoint) : Prop :=
  ∀ l ∈ labels, p.label? l.1 = some l.2

instance (labels : List (String × String)) (p : DataPoint) : Decidable (p.Carries labels) :=
  List.decidableBAll _ _

end DataPoint

/-- The values of the counters of a metric. -/
def totals (metric : String) (points : List DataPoint) : List ℚ :=
  points.filterMap fun p => if p.name = metric then p.total? else none

/-- The numbers of values of the summaries of a metric. -/
def counts (metric : String) (points : List DataPoint) : List ℕ :=
  points.filterMap fun p => if p.name = metric then p.count? else none

/-- The labels of an endpoint. -/
def Endpoint.labels (e : Endpoint) : List (String × String) :=
  TrafficReporter.endpointLabels.zip e.labelValues

/-! ## Building -/

theorem bind_eq_ok_iff {ε α β : Type} {x : Except ε α} {f : α → Except ε β} {b : β} :
    x >>= f = .ok b ↔ ∃ a, x = .ok a ∧ f a = .ok b := by
  cases x with
  | error e => simp [bind, Except.bind]
  | ok a => simp [bind, Except.bind]

theorem bind_eq_error_iff {ε α β : Type} {x : Except ε α} {f : α → Except ε β} {e : ε} :
    x >>= f = .error e ↔ x = .error e ∨ ∃ a, x = .ok a ∧ f a = .error e := by
  cases x with
  | error e => simp [bind, Except.bind]
  | ok a => simp [bind, Except.bind]

theorem DataPoint.value_of_build {d : Descriptor} {value : Measurement} {texts : List String}
    {p : DataPoint} (h : build d value texts = .ok p) : p.value = value := by
  unfold build at h
  split_ifs at h
  cases h
  rfl

/-- A descriptor without constant labels. -/
structure Descriptor.Plain (metric : String) (labels : List String) (d : Descriptor) : Prop where
  name_eq : d.name = metric
  constLabels_eq : d.constLabels = []
  variableLabels_eq : d.variableLabels = labels

namespace Descriptor

variable {metric help : String} {labels texts : List String} {d : Descriptor}
  {value : Measurement}

/-- A descriptor that is built is the one with these parts. -/
theorem build_eq_ok_iff {constLabels : List (String × String)} :
    build metric help labels constLabels = .ok d ↔
      d.name = metric ∧ d.help = help ∧ d.variableLabels = labels ∧
        d.constLabels = constLabels := by
  constructor
  · intro built
    unfold build at built
    split_ifs at built
    split at built <;> cases built
    exact ⟨rfl, rfl, rfl, rfl⟩
  · rintro ⟨rfl, rfl, rfl, rfl⟩
    unfold build
    rw [dif_pos d.name_valid]
    split
    · next e offence =>
      have legal : labelOffence [] (d.constLabels.map Prod.fst ++ d.variableLabels) = none :=
        (labelOffence_eq_none_iff _ _).2 ⟨d.labels_valid, d.labels_nodup, by simp⟩
      cases legal.symm.trans offence
    · rfl

theorem Plain.of_build (h : build metric help labels [] = .ok d) : d.Plain metric labels := by
  obtain ⟨name, -, variableLabels, constLabels⟩ := build_eq_ok_iff.1 h
  exact ⟨name, constLabels, variableLabels⟩

/-- The data point of a metric without constant labels. -/
def point (d : Descriptor) (value : Measurement) (texts : List String) : DataPoint where
  name := d.name
  help := d.help
  labelNames := d.labelNames
  labelValues := texts
  value := value

theorem Plain.build_eq (h : d.Plain metric labels) (value : Measurement) (texts : List String)
    (complete : texts.length = labels.length) :
    DataPoint.build d value texts = .ok (d.point value texts) := by
  rw [DataPoint.build, h.variableLabels_eq, if_pos complete, h.constLabels_eq]
  rfl

theorem Plain.label?_point (h : d.Plain metric labels) (name : String) :
    (d.point value texts).label? name = (labels.zip texts).lookup name := by
  rw [DataPoint.label?, point, labelNames, h.constLabels_eq, h.variableLabels_eq]
  rfl

end Descriptor

section Select

variable {metric : String} {d : Descriptor} {α : Type} {points : List DataPoint}

theorem totals_cons_summary (s : Summary) (texts : List String) :
    totals metric (d.point (.summary s) texts :: points) = totals metric points :=
  List.filterMap_cons_none (ite_self none)

theorem counts_cons_summary (s : Summary) (texts : List String) :
    counts metric (d.point (.summary s) texts :: points) =
      if d.name = metric then s.count :: counts metric points else counts metric points := by
  split_ifs with same
  · exact List.filterMap_cons_some (if_pos same)
  · exact List.filterMap_cons_none (if_neg same)

theorem totals_map_counter (same : d.name = metric) (xs : List α) (value : α → Float)
    (texts : α → List String) :
    totals metric (xs.map fun x => d.point (.counter (value x)) (texts x)) =
      xs.map fun x => Binary64.toRat (value x) := by
  rw [totals, List.filterMap_map, ← List.filterMap_eq_map]
  exact List.filterMap_congr fun x _ => if_pos same

theorem counts_map_counter (xs : List α) (value : α → Float) (texts : α → List String) :
    counts metric (xs.map fun x => d.point (.counter (value x)) (texts x)) = [] := by
  rw [counts, List.filterMap_map]
  exact List.filterMap_eq_nil_iff.2 fun _ _ => ite_self none

theorem totals_append (points others : List DataPoint) :
    totals metric (points ++ others) = totals metric points ++ totals metric others :=
  List.filterMap_append

theorem counts_append (points others : List DataPoint) :
    counts metric (points ++ others) = counts metric points ++ counts metric others :=
  List.filterMap_append

/-- Gauges are neither counters nor summaries. -/
theorem select_gauges (h : ∀ p ∈ points, p.isGauge = true) (metric : String) :
    totals metric points = [] ∧ counts metric points = [] := by
  have other : ∀ p ∈ points, p.total? = none ∧ p.count? = none := by
    intro p hp
    have gauge := h p hp
    unfold DataPoint.isGauge at gauge
    unfold DataPoint.total? DataPoint.count?
    split at gauge
    · simp [*]
    · cases gauge
  constructor
  · refine List.filterMap_eq_nil_iff.2 fun p hp => ?_
    rw [(other p hp).1, ite_self]
  · refine List.filterMap_eq_nil_iff.2 fun p hp => ?_
    rw [(other p hp).2, ite_self]

end Select

namespace TrafficReporter

/-- The name of a metric of traffic. -/
def metricName (scope name : String) : String := Name.qualify scope subsystem name

/-- The names of the three metrics that are summaries. -/
def summaryNames : List String :=
  ["response_size_bytes", "client_request_duration_nanoseconds",
    "server_request_duration_nanoseconds"]

/-- What is known of the metrics of a reporter that was built. -/
structure Built (scope : String) (q : TrafficReporter) : Prop where
  requestTotal : q.requestTotal.Plain (metricName scope "request_total")
    (endpointLabels ++ [statusLabel])
  responseSize : q.responseSize.Plain (metricName scope "response_size_bytes") endpointLabels
  clientDuration : q.clientDuration.Plain
    (metricName scope "client_request_duration_nanoseconds") endpointLabels
  serverDuration : q.serverDuration.Plain
    (metricName scope "server_request_duration_nanoseconds") endpointLabels

theorem built_of_build {scope : String} {mode : SumMode} {q : TrafficReporter}
    (h : build scope mode = .ok q) : q.Built scope := by
  unfold build at h
  simp only [bind_eq_ok_iff] at h
  obtain ⟨_, requestTotal, _, responseSize, _, clientDuration, _, serverDuration, eq⟩ := h
  cases eq
  exact ⟨.of_build requestTotal, .of_build responseSize, .of_build clientDuration,
    .of_build serverDuration⟩

theorem metricName_inj {scope a b : String} (ha : a.isEmpty = false) (hb : b.isEmpty = false) :
    metricName scope a = metricName scope b ↔ a = b :=
  Name.qualify_inj rfl ha hb

end TrafficReporter

/-! ## What is shown of an endpoint -/

namespace EndpointStats

variable {ρ : Type} [Precision ρ]

/-- Each sketch of an endpoint holds one value of every request. -/
theorem count_ofRequests (requests : List Request) :
    (ofRequests requests : EndpointStats ρ).contentLength.count = requests.length ∧
      (ofRequests requests : EndpointStats ρ).clientDuration.count = requests.length ∧
      (ofRequests requests : EndpointStats ρ).serverDuration.count = requests.length := by
  have counted : ∀ number : Request → ℤ, (Sketch.standard.insertAll
      (requests.map fun r => Float.ofInt (number r)) : Sketch Float ρ).count = requests.length := by
    intro number
    rw [Sketch.count_insertAll, List.length_map]
    exact Nat.zero_add _
  refine ⟨?_, ?_, ?_⟩
  · rw [sketch_ofRequests contentLength Request.contentLength rfl (fun _ _ => rfl), counted]
  · rw [sketch_ofRequests clientDuration Request.clientDuration rfl (fun _ _ => rfl), counted]
  · rw [sketch_ofRequests serverDuration Request.serverDuration rfl (fun _ _ => rfl), counted]

end EndpointStats

namespace TrafficReporter

section Points

variable {ρ : Type} [Precision ρ]

/-- The data points of an endpoint. -/
def points (q : TrafficReporter) (e : Endpoint) (s : EndpointStats ρ) : List DataPoint :=
  q.responseSize.point (.summary (summarize q.sumMode s.contentLength)) e.labelValues ::
  q.clientDuration.point (.summary (summarize q.sumMode s.clientDuration)) e.labelValues ::
  q.serverDuration.point (.summary (summarize q.sumMode s.serverDuration)) e.labelValues ::
  s.statusCodes.toList.map fun codes =>
    q.requestTotal.point (.counter (Float.ofNat codes.2)) (e.labelValues ++ [toString codes.1])

theorem count_summarize (mode : SumMode) (s : Sketch Float ρ) :
    (summarize mode s).count = s.count :=
  Sketch.count_quantiles s (reportedQuantiles ρ)

variable {scope : String} {q : TrafficReporter}

theorem Built.endpointPoints_eq (h : q.Built scope) (e : Endpoint) (s : EndpointStats ρ) :
    q.endpointPoints e s = (q.points e s).map .ok := by
  have total : ∀ code n, q.totalPoint e code n = .ok (q.requestTotal.point
      (.counter (Float.ofNat n)) (e.labelValues ++ [toString code])) := by
    intro code n
    rw [totalPoint, h.requestTotal.build_eq _ (e.labelValues ++ [toString code]) rfl]
    rfl
  rw [endpointPoints, summaryPoint, summaryPoint, summaryPoint,
    h.responseSize.build_eq _ e.labelValues rfl, h.clientDuration.build_eq _ e.labelValues rfl,
    h.serverDuration.build_eq _ e.labelValues rfl]
  simp only [total, points, List.map_cons, List.map_map]
  rfl

theorem Built.report_eq (h : q.Built scope) (t : Traffic ρ) :
    q.report t = ⟨t.toList.flatMap fun (e, s) => q.points e s, [], t.discarded⟩ := by
  have attempts : (t.toList.flatMap fun (e, s) => q.endpointPoints e s) =
      (t.toList.flatMap fun (e, s) => q.points e s).map .ok := by
    simp only [h.endpointPoints_eq, List.map_flatMap]
  rw [report, attempts, Report.ofAttempts, List.filterMap_map, List.filterMap_map]
  congr 1
  · exact List.filterMap_some
  · exact List.filterMap_eq_nil_iff.2 fun _ _ => rfl

/-- Data points of an endpoint carry the labels of that one only. -/
theorem Built.carries_iff (h : q.Built scope) {e e' : Endpoint} {s : EndpointStats ρ}
    {p : DataPoint} (hp : p ∈ q.points e s) : p.Carries e'.labels ↔ e = e' := by
  have labels : ∀ more moreTexts, (∀ name, p.label? name =
      ((endpointLabels ++ more).zip (e.labelValues ++ moreTexts)).lookup name) →
      (p.Carries e'.labels ↔ e = e') := by
    intro more moreTexts eq
    obtain ⟨a, b, c, d⟩ := e
    obtain ⟨a', b', c', d'⟩ := e'
    simp [DataPoint.Carries, Endpoint.labels, Endpoint.labelValues, endpointLabels, eq, List.lookup]
  unfold points at hp
  simp only [List.mem_cons, List.mem_map] at hp
  rcases hp with rfl | rfl | rfl | ⟨⟨code, n⟩, -, rfl⟩
  · exact labels [] [] h.responseSize.label?_point
  · exact labels [] [] h.clientDuration.label?_point
  · exact labels [] [] h.serverDuration.label?_point
  · exact labels _ _ h.requestTotal.label?_point

/-- Among the data points of traffic, those that carry an endpoint's labels are the endpoint's. -/
theorem Built.filter_carries (h : q.Built scope) (t : Traffic ρ) (e : Endpoint) :
    (q.report t).points.filter (fun p => p.Carries e.labels) =
      (t.get? e).elim [] (q.points e) := by
  have own : ∀ s : EndpointStats ρ, (q.points e s).filter (fun p => p.Carries e.labels) =
      q.points e s := fun s =>
    List.filter_eq_self.2 fun p hp => decide_eq_true ((h.carries_iff hp).2 rfl)
  rw [h.report_eq, List.filter_flatMap, Traffic.toList, flatMap_toList_of_key _ e]
  · simp only [own]
    rfl
  · intro e' s other
    refine List.filter_eq_nil_iff.2 fun p hp carries => other ?_
    exact (h.carries_iff hp).1 (of_decide_eq_true carries)

theorem Built.totals_points (h : q.Built scope) (e : Endpoint) (s : EndpointStats ρ) :
    totals (metricName scope "request_total") (q.points e s) =
      s.statusCodes.toList.map fun codes => Binary64.toRat (Float.ofNat codes.2) := by
  rw [points, totals_cons_summary, totals_cons_summary, totals_cons_summary,
    totals_map_counter h.requestTotal.name_eq]

/-- Each of the three summaries is there once. -/
theorem Built.counts_points (h : q.Built scope) (e : Endpoint) (s : EndpointStats ρ)
    {name : String} (hn : name ∈ summaryNames) {k : ℕ} (contentLength : s.contentLength.count = k)
    (clientDuration : s.clientDuration.count = k) (serverDuration : s.serverDuration.count = k) :
    counts (metricName scope name) (q.points e s) = [k] := by
  rw [points, counts_cons_summary, counts_cons_summary, counts_cons_summary, counts_map_counter,
    h.responseSize.name_eq, h.clientDuration.name_eq, h.serverDuration.name_eq, count_summarize,
    count_summarize, count_summarize]
  simp only [summaryNames, List.mem_cons, List.not_mem_nil, or_false] at hn
  rcases hn with rfl | rfl | rfl <;> simp [metricName_inj, *]

/-- Each of the three summaries counts all requests. -/
theorem Built.counts_ofRequests (h : q.Built scope) (e : Endpoint) (own : List Request)
    {name : String} (hn : name ∈ summaryNames) :
    counts (metricName scope name) (q.points e (.ofRequests own : EndpointStats ρ)) =
      [own.length] := by
  obtain ⟨contentLength, clientDuration, serverDuration⟩ :=
    EndpointStats.count_ofRequests (ρ := ρ) own
  exact h.counts_points e _ hn contentLength clientDuration serverDuration

theorem Built.carries_status_iff (h : q.Built scope) {e : Endpoint} {s : EndpointStats ρ}
    {p : DataPoint} (hp : p ∈ q.points e s) (code : ℤ) :
    p.Carries (e.labels ++ [(statusLabel, toString code)]) ↔
      p.label? statusLabel = some (toString code) := by
  have own := (h.carries_iff hp).2 rfl
  rw [DataPoint.Carries, List.forall_mem_append]
  exact (and_iff_right own).trans List.forall_mem_singleton

/-- Only counters have a status code. -/
theorem label?_status_summary {d : Descriptor} {metric : String} (h : d.Plain metric endpointLabels)
    (value : Measurement) (e : Endpoint) :
    (d.point value e.labelValues).label? statusLabel = none := by
  rw [h.label?_point]
  simp [endpointLabels, Endpoint.labelValues, statusLabel, List.lookup]

theorem Built.label?_status_counter (h : q.Built scope) (value : Measurement) (e : Endpoint)
    (text : String) : (q.requestTotal.point value (e.labelValues ++ [text])).label? statusLabel =
      some text := by
  rw [h.requestTotal.label?_point]
  simp [endpointLabels, Endpoint.labelValues, statusLabel, List.lookup]

/-- The data points of an endpoint with a status code are the counter of this one. -/
theorem Built.filter_status (h : q.Built scope) (e : Endpoint) (s : EndpointStats ρ) (code : ℤ) :
    ((q.points e s).filter fun p => p.Carries (e.labels ++ [(statusLabel, toString code)])) =
      (s.statusCodes.toList.filter fun codes => codes.1 = code).map fun codes =>
        q.requestTotal.point (.counter (Float.ofNat codes.2))
          (e.labelValues ++ [toString codes.1]) := by
  have looked_up : ((q.points e s).filter fun p =>
        p.Carries (e.labels ++ [(statusLabel, toString code)])) =
      (q.points e s).filter fun p => p.label? statusLabel = some (toString code) :=
    List.filter_congr fun p hp => decide_eq_decide.2 (h.carries_status_iff hp code)
  rw [looked_up, points, List.filter_cons_of_neg, List.filter_cons_of_neg,
    List.filter_cons_of_neg, List.filter_map]
  · refine congrArg _ (List.filter_congr fun codes _ => decide_eq_decide.2 ?_)
    rw [h.label?_status_counter]
    exact (Option.some_inj.trans Int.repr_inj)
  · simp [label?_status_summary h.serverDuration]
  · simp [label?_status_summary h.clientDuration]
  · simp [label?_status_summary h.responseSize]

theorem Built.totals_status (h : q.Built scope) (e : Endpoint) (s : EndpointStats ρ) (code : ℤ) :
    totals (metricName scope "request_total")
        ((q.points e s).filter fun p => p.Carries (e.labels ++ [(statusLabel, toString code)])) =
      (s.statusCodes[code]?).elim [] fun n => [Binary64.toRat (Float.ofNat n)] := by
  rw [h.filter_status, totals_map_counter h.requestTotal.name_eq, filter_toList_of_key]
  cases s.statusCodes[code]? <;> rfl

theorem Built.not_isGauge_of_mem_report (t : Traffic ρ) (h : q.Built scope) :
    ∀ p ∈ (q.report t).points, p.isGauge = false := by
  intro p hp
  rw [h.report_eq] at hp
  obtain ⟨⟨e, s⟩, -, hp⟩ := List.mem_flatMap.1 hp
  simp only [points, List.mem_cons, List.mem_map] at hp
  rcases hp with rfl | rfl | rfl | ⟨codes, -, rfl⟩ <;> rfl

end Points

/-! ## What is shown of requests -/

section Requests

variable {scope : String} {q : TrafficReporter} {requests own : List Request}

/-- The data points of the traffic that requests make. -/
def shown (q : TrafficReporter) (requests : List Request) : List DataPoint :=
  (q.report (.ofRequests requests : Traffic Float)).points

/-- Counters are exact as long as the requests are few. -/
theorem toRat_of_mem_statusCodes {codes : ℤ × ℕ} (few : own.length < 2 ^ 53)
    (mem : codes ∈ (EndpointStats.ofRequests own : EndpointStats Float).statusCodes.toList) :
    Binary64.toRat (Float.ofNat codes.2) = codes.2 := by
  have found := Std.TreeMap.mem_toList_iff_getElem?_eq_some.1 mem
  rw [EndpointStats.getElem?_statusCodes] at found
  split_ifs at found
  have le := List.count_le_length (a := codes.1) (l := own.map Request.statusCode)
  rw [Option.some.inj found, List.length_map] at le
  exact Binary64.toRat_ofNat (le.trans_lt few)

/-- The counters of an endpoint are together as much as its requests. -/
theorem Built.sum_totals_points (h : q.Built scope) (e : Endpoint) (few : own.length < 2 ^ 53) :
    (totals (metricName scope "request_total")
      (q.points e (.ofRequests own : EndpointStats Float))).sum = own.length := by
  have counted := EndpointStats.requests_ofRequests (ρ := Float) own
  rw [EndpointStats.requests, values_eq_map_toList, ← List.sum_eq_foldr] at counted
  rw [h.totals_points, List.map_congr_left fun codes mem => toRat_of_mem_statusCodes few mem,
    ← counted, Nat.cast_list_sum, List.map_map]
  rfl

theorem length_requestsOf_lt (few : requests.length < 2 ^ 53) (e : Endpoint) :
    (Traffic.requestsOf requests e).length < 2 ^ 53 := by
  refine lt_of_le_of_lt ?_ few
  exact (List.length_filter_le _ _).trans (List.length_filter_le _ _)

/-- The data points with the labels of an endpoint are those of its own requests. -/
theorem Built.filter_carries_shown (h : q.Built scope) (requests : List Request) (e : Endpoint) :
    ((q.shown requests).filter fun p => p.Carries e.labels) =
      if Traffic.requestsOf requests e = [] then []
      else q.points e (.ofRequests (Traffic.requestsOf requests e) : EndpointStats Float) := by
  rw [shown, h.filter_carries, Traffic.get?_ofRequests]
  split_ifs <;> rfl

theorem Built.sum_totals (h : q.Built scope) (few : requests.length < 2 ^ 53) (e : Endpoint) :
    (totals (metricName scope "request_total")
        ((q.shown requests).filter fun p => p.Carries e.labels)).sum =
      (Traffic.requestsOf requests e).length := by
  rw [h.filter_carries_shown]
  split_ifs with nil
  · rw [nil]
    rfl
  · exact h.sum_totals_points e (length_requestsOf_lt few e)

theorem Built.counts_eq (h : q.Built scope) (requests : List Request) (e : Endpoint)
    {name : String} (hn : name ∈ summaryNames) :
    counts (metricName scope name) ((q.shown requests).filter fun p => p.Carries e.labels) =
      if Traffic.requestsOf requests e = [] then []
      else [(Traffic.requestsOf requests e).length] := by
  rw [h.filter_carries_shown]
  split_ifs with nil
  · rfl
  · exact h.counts_ofRequests e _ hn

theorem Built.totals_status_eq (h : q.Built scope) (few : requests.length < 2 ^ 53) (e : Endpoint)
    (code : ℤ) :
    let n := (Traffic.requestsOf requests e).countP fun r => r.statusCode = code
    totals (metricName scope "request_total") ((q.shown requests).filter fun p =>
        p.Carries (e.labels ++ [(statusLabel, toString code)])) =
      if n = 0 then [] else [(n : ℚ)] := by
  intro n
  have narrower : ((q.shown requests).filter fun p =>
        p.Carries (e.labels ++ [(statusLabel, toString code)])) =
      ((q.shown requests).filter fun p => p.Carries e.labels).filter fun p =>
        p.Carries (e.labels ++ [(statusLabel, toString code)]) := by
    rw [List.filter_filter]
    refine List.filter_congr fun p _ => ?_
    rw [← Bool.decide_and, decide_eq_decide]
    exact (and_iff_left_of_imp fun h l hl => h l (List.mem_append_left _ hl)).symm
  have counted : ((Traffic.requestsOf requests e).map Request.statusCode).count code = n :=
    List.countP_map ..
  have unrounded : Binary64.toRat (Float.ofNat n) = n :=
    Binary64.toRat_ofNat (List.countP_le_length.trans_lt (length_requestsOf_lt few e))
  rw [narrower, h.filter_carries_shown]
  split_ifs with nil zero zero
  · rfl
  · exact absurd (by simp [n, nil]) zero
  · rw [h.totals_status, EndpointStats.getElem?_statusCodes, counted, if_pos zero]
    rfl
  · rw [h.totals_status, EndpointStats.getElem?_statusCodes, counted, if_neg zero]
    exact congrArg (fun x => [x]) unrounded

/-- All counters together are as much as the requests that belong to an application. -/
theorem Built.sum_totals_shown (h : q.Built scope) (few : requests.length < 2 ^ 53) :
    (totals (metricName scope "request_total") (q.shown requests)).sum =
      (Traffic.attributed requests).length := by
  rw [shown, h.report_eq, totals, List.filterMap_flatMap, List.flatMap_def,
    List.sum_flatten, List.map_map]
  refine Traffic.sum_toList_ofRequests requests _ fun e _ => ?_
  exact h.sum_totals_points e (length_requestsOf_lt few e)

theorem Built.sum_counts_shown (h : q.Built scope) (requests : List Request) {name : String}
    (hn : name ∈ summaryNames) : (counts (metricName scope name) (q.shown requests)).sum =
      (Traffic.attributed requests).length := by
  rw [shown, h.report_eq, counts, List.filterMap_flatMap, List.flatMap_def,
    List.sum_flatten, List.map_map]
  refine Traffic.sum_toList_ofRequests requests _ fun e _ => ?_
  exact congrArg List.sum (h.counts_ofRequests e (Traffic.requestsOf requests e) hn)

end Requests

end TrafficReporter

/-! ## What is shown of readings -/

/-- Every attempt at a data point makes one or is skipped. -/
theorem Report.length_ofAttempts (attempts : List (Except Skip DataPoint)) (discarded : ℕ) :
    (ofAttempts attempts discarded).points.length +
      (ofAttempts attempts discarded).skipped.length = attempts.length := by
  induction attempts with
  | nil => rfl
  | cons a rest ih =>
    simp only [ofAttempts] at ih ⊢
    cases a <;> simp only [List.filterMap_cons, List.length_cons] <;> omega

namespace ReadingReporter

variable {p : ReadingReporter} {readings : List Reading}

theorem value_of_gauge_eq_ok {r : Reading} {point : DataPoint} (h : p.gauge r = .ok point) :
    point.value = .gauge r.value := by
  rw [gauge, bind_eq_ok_iff] at h
  obtain ⟨d, -, made⟩ := h
  exact DataPoint.value_of_build made

theorem isGauge_of_mem_report : ∀ point ∈ (p.report readings).points, point.isGauge = true := by
  intro point hp
  obtain ⟨attempt, mem, made⟩ := List.mem_filterMap.1 hp
  obtain ⟨r, -, rfl⟩ := List.mem_map.1 mem
  cases tried : p.gauge r with
  | error e =>
    rw [tried] at made
    cases made
  | ok gauge =>
    rw [tried] at made
    cases made
    rw [DataPoint.isGauge, value_of_gauge_eq_ok tried]

theorem discarded_report (p : ReadingReporter) (readings : List Reading) :
    (p.report readings).discarded = 0 := rfl

theorem length_report (p : ReadingReporter) (readings : List Reading) :
    (p.report readings).points.length + (p.report readings).skipped.length = readings.length := by
  rw [report, Report.length_ofAttempts, List.length_map]

end ReadingReporter

end Telemetry
