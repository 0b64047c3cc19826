import Telemetry.Proofs.Inbox
import Telemetry.Proofs.Reporters
import Telemetry.Settings

/-!
# What a scrape accounts for

A scrape reads its inbox twice, at one instant, so both reporters see the same records: those that
the first read leaves (`scrape_source`). With that, every record that the inbox keeps is found again
in what the scrape shows and tells. A request counts once in a counter and once in each of three
summaries, or among the discarded ones; a reading is a gauge, or it is skipped with an error. The
books balance after everything that can happen to the inbox before (`scrape_balanced`).
-/

namespace Telemetry

/-- An exposition can be built if both reporters can, and it has the two. -/
theorem Settings.exposition_eq_ok_iff {c : Settings} {x : Exposition} : c.exposition = .ok x ↔
    ∃ p, ReadingReporter.build c.scope c.environment = .ok p ∧
      ∃ q, TrafficReporter.build c.scope c.sumMode = .ok q ∧
        ⟨[.readings p, .traffic q]⟩ = x := by
  simp only [exposition, bind_eq_ok_iff, pure, Except.pure, Except.ok.injEq]

theorem Settings.exists_reporters {c : Settings} {x : Exposition} (h : c.exposition = .ok x) :
    ∃ (p : ReadingReporter) (q : TrafficReporter), x = ⟨[.readings p, .traffic q]⟩ ∧
      q.Built c.scope := by
  obtain ⟨p, -, q, built, eq⟩ := exposition_eq_ok_iff.1 h
  exact ⟨p, q, eq.symm, TrafficReporter.built_of_build built⟩

namespace Exposition

/-! ## Runs -/

/-- What happens to an inbox that is exposed: an event, or a scrape at an instant. A scrape during
which time passes is two events, a read of the readings and one of the requests. -/
inductive Step where
  | event (e : Inbox.Event)
  | scrape (now : ℤ)

/-- The inbox after a step. -/
def Step.apply (x : Exposition) (b : Inbox) : Step → Inbox
  | event e => e.apply b
  | scrape now => (x.scrape (InboxAt.mk b now)).source.inbox

/-- The inbox after several steps in turn. -/
def run (x : Exposition) (b : Inbox) (steps : List Step) : Inbox := steps.foldl (Step.apply x) b

/-- The reads and other events that a step consists of. -/
def Step.events : Step → List Inbox.Event
  | event e => [e]
  | scrape now => [.readReadings now, .readRequests now]

/-! ## One scrape -/

section Scrape

variable {scope : String} {p : ReadingReporter} {q : TrafficReporter} {x : Exposition} {now : ℤ}
  {b : Inbox}

theorem scrape_source (hx : x = ⟨[.readings p, .traffic q]⟩) :
    (x.scrape (InboxAt.mk b now)).source = InboxAt.mk (b.update now).1 now := by
  subst hx
  simp only [scrape, runAll, Reporter.run, Source.readings, Source.requests, Inbox.update_update]

theorem scrape_value (hx : x = ⟨[.readings p, .traffic q]⟩) :
    (x.scrape (InboxAt.mk b now)).value =
      (p.report ((b.update now).1.readings.map Stamped.item)).points ++
        q.shown ((b.update now).1.requests.toList.map Stamped.item) := by
  subst hx
  simp only [scrape, runAll, Reporter.run, Source.readings, Source.requests, Inbox.update_update,
    List.flatMap_cons, List.flatMap_nil, List.append_nil, TrafficReporter.shown]

theorem scrape_log (hx : x = ⟨[.readings p, .traffic q]⟩) (hq : q.Built scope) :
    let report := p.report ((b.update now).1.readings.map Stamped.item)
    let requests := (b.update now).1.requests.toList.map Stamped.item
    (x.scrape (InboxAt.mk b now)).log =
      (b.update now).2 ++ report.skipped.map LogEntry.skipped ++
        [.scraped (report.points ++ q.shown requests).length report.skipped.length
          (Traffic.ofRequests requests : Traffic Float).discarded] := by
  subst hx
  simp only [scrape, runAll, Reporter.run, Source.readings, Source.requests, Inbox.update_update,
    List.flatMap_cons, List.flatMap_nil, List.append_nil, hq.report_eq, TrafficReporter.shown,
    List.map_cons, List.map_nil, List.foldr_cons, List.foldr_nil, ReadingReporter.discarded_report,
    Nat.zero_add, Nat.add_zero]

/-- To the inbox a step is no more than its events. -/
theorem apply_step (hx : x = ⟨[.readings p, .traffic q]⟩) (b : Inbox) (s : Step) :
    s.apply x b = b.run s.events := by
  cases s with
  | event e => rfl
  | scrape now =>
    show (x.scrape (InboxAt.mk b now)).source.inbox = ((b.update now).1.update now).1
    rw [scrape_source hx, Inbox.update_update]

theorem run_eq (hx : x = ⟨[.readings p, .traffic q]⟩) (b : Inbox) (steps : List Step) :
    x.run b steps = b.run (steps.flatMap Step.events) := by
  induction steps generalizing b with
  | nil => rfl
  | cons s rest ih =>
    show x.run (s.apply x b) rest = _
    rw [ih, apply_step hx, List.flatMap_cons, Inbox.run, Inbox.run, Inbox.run, List.foldl_append]

end Scrape

/-! ## The books -/

open TrafficReporter in
/-- What a scrape shows and tells is as much as the requests and the readings that are live. -/
structure Balanced (scope : String) (live : List Request) (readings : List Reading)
    (points : List DataPoint) (log : List LogEntry) : Prop where
  /-- The counters of an endpoint together, and each of its summaries, count its requests. -/
  endpoint : ∀ e : Endpoint, e.applicationId ≠ "" →
    let own := live.filter fun r => r.toEndpoint = e
    let shown := points.filter fun p => p.Carries e.labels
    (totals (metricName scope "request_total") shown).sum = own.length ∧
      ∀ name ∈ summaryNames,
        counts (metricName scope name) shown = if own = [] then [] else [own.length]
  /-- The counter of a status code counts the endpoint's requests with that code. -/
  status : ∀ e : Endpoint, e.applicationId ≠ "" → ∀ code : ℤ,
    let n := live.countP fun r => r.toEndpoint = e ∧ r.statusCode = code
    totals (metricName scope "request_total")
        (points.filter fun p => p.Carries (e.labels ++ [(statusLabel, toString code)])) =
      if n = 0 then [] else [(n : ℚ)]
  /-- Over all endpoints, together with the discarded requests that the log tells of, these are the
  live requests. So are the counters and the summaries of these metrics at large, which leaves none
  without an endpoint. -/
  total : ∃ made skipped discarded,
    (log.filter fun entry => entry.level = .debug) = [.scraped made skipped discarded] ∧
      let endpoints := ((live.filter fun r => r.applicationId ≠ "").map Request.toEndpoint).dedup
      (endpoints.map fun e => (totals (metricName scope "request_total")
          (points.filter fun p => p.Carries e.labels)).sum).sum + discarded = live.length ∧
        (totals (metricName scope "request_total") points).sum + discarded = live.length ∧
        ∀ name ∈ summaryNames, (counts (metricName scope name) points).sum + discarded = live.length
  /-- Gauges and errors are as many as the identities of the live readings. -/
  gauges : (points.filter fun p => p.isGauge).length +
      (log.filter fun entry => entry.level = .error).length =
    (readings.map Reading.toIdentity).dedup.length

section Balanced

variable {scope : String} {p : ReadingReporter} {q : TrafficReporter} {live : List Request}
  {readings : List Reading}

/-- Gauges hide no counters and summaries. -/
theorem select_report (metric : String) (f : DataPoint → Bool) (others : List DataPoint) :
    totals metric (((p.report readings).points ++ others).filter f) =
        totals metric (others.filter f) ∧
      counts metric (((p.report readings).points ++ others).filter f) =
        counts metric (others.filter f) := by
  have gauges : ∀ point ∈ (p.report readings).points.filter f, point.isGauge = true :=
    fun point hp => ReadingReporter.isGauge_of_mem_report point (List.mem_of_mem_filter hp)
  have none := select_gauges gauges metric
  rw [List.filter_append, totals_append, counts_append, none.1, none.2]
  exact ⟨rfl, rfl⟩

/-- The entries of a level in the log of a scrape. -/
theorem filter_level_log {before : List LogEntry} (skipped : List Skip) (last : LogEntry)
    (trace : ∀ entry ∈ before, entry.level = .trace) (debug : last.level = .debug) :
    (before ++ skipped.map LogEntry.skipped ++ [last]).filter (fun x => x.level = .debug) =
        [last] ∧
      (before ++ skipped.map LogEntry.skipped ++ [last]).filter (fun x => x.level = .error) =
        skipped.map LogEntry.skipped := by
  have dropped : ∀ level ≠ Level.trace, before.filter (fun x => x.level = level) = [] := by
    intro level other
    refine List.filter_eq_nil_iff.2 fun entry mem => ?_
    simp [trace entry mem, other.symm]
  have error : ∀ entry ∈ skipped.map LogEntry.skipped, entry.level = .error := by
    intro entry mem
    obtain ⟨skip, -, rfl⟩ := List.mem_map.1 mem
    rfl
  rw [List.filter_append, List.filter_append, List.filter_append, List.filter_append,
    dropped _ (by decide), dropped _ (by decide)]
  constructor
  · rw [List.filter_eq_nil_iff.2 fun entry mem => by simp [error entry mem]]
    simp [debug]
  · rw [List.filter_eq_self.2 fun entry mem => by simp [error entry mem]]
    simp [debug]

theorem balanced_report (hq : q.Built scope) (few : live.length < 2 ^ 53)
    (nodup : (readings.map Reading.toIdentity).Nodup) {before : List LogEntry}
    (trace : ∀ entry ∈ before, entry.level = .trace) (made : ℕ) :
    Balanced scope live readings ((p.report readings).points ++ q.shown live)
      (before ++ (p.report readings).skipped.map LogEntry.skipped ++
        [.scraped made (p.report readings).skipped.length
          (Traffic.ofRequests live : Traffic Float).discarded]) := by
  obtain ⟨debug, error⟩ := filter_level_log (p.report readings).skipped
    (.scraped made (p.report readings).skipped.length
      (Traffic.ofRequests live : Traffic Float).discarded) trace rfl
  have select := @select_report p readings
  have all : ∀ metric, totals metric ((p.report readings).points ++ q.shown live) =
      totals metric (q.shown live) ∧ counts metric ((p.report readings).points ++ q.shown live) =
        counts metric (q.shown live) := fun metric => by
    simpa only [List.filter_true] using select metric (fun _ => true) (q.shown live)
  have discarded := Traffic.length_attributed_add_discarded (ρ := Float) live
  have each : ∀ e : Endpoint, e.applicationId ≠ "" →
      (totals (TrafficReporter.metricName scope "request_total")
        (((p.report readings).points ++ q.shown live).filter fun p => p.Carries e.labels)).sum =
        (Traffic.requestsOf live e).length := by
    intro e _
    rw [(select _ _ _).1, hq.sum_totals few]
  refine ⟨?_, ?_, ⟨_, _, _, debug, ?_, ?_, ?_⟩, ?_⟩
  · intro e owned own shown
    have own_eq : own = Traffic.requestsOf live e := (Traffic.requestsOf_eq_filter owned).symm
    refine ⟨by rw [each e owned, own_eq], fun name hn => ?_⟩
    rw [(select _ _ _).2, hq.counts_eq live e hn, own_eq]
  · intro e owned code n
    have counted : n = (Traffic.requestsOf live e).countP fun r => r.statusCode = code := by
      rw [Traffic.requestsOf_eq_filter owned, List.countP_filter]
      exact List.countP_congr fun r _ => by simp [and_comm]
    rw [(select _ _ _).1, hq.totals_status_eq few e code, counted]
  · show ((((Traffic.attributed live).map Request.toEndpoint).dedup.map _).sum : ℚ) + _ = _
    rw [List.map_congr_left fun e he => each e (Traffic.applicationId_ne_of_mem he),
      Traffic.sum_length_requestsOf, ← Nat.cast_add, discarded]
  · rw [(all _).1, hq.sum_totals_shown few, ← Nat.cast_add, discarded]
  · intro name hn
    rw [(all _).2, hq.sum_counts_shown live hn, discarded]
  · have shown : (q.shown live).filter (fun p => p.isGauge) = [] :=
      List.filter_eq_nil_iff.2 fun point hp => by
        simp [hq.not_isGauge_of_mem_report _ point hp]
    rw [error, List.length_map, List.filter_append, shown, List.append_nil,
      List.filter_eq_self.2 ReadingReporter.isGauge_of_mem_report, ReadingReporter.length_report,
      nodup.dedup, List.length_map]

end Balanced

/-- After anything that can happen to an inbox and its exposition, what a scrape shows and tells
accounts for exactly the records that the scrape leaves in the inbox. -/
theorem scrape_balanced {c : Settings} {x : Exposition} (built : c.exposition = .ok x)
    (steps : List Step) (now : ℤ)
    (few : (x.scrape (InboxAt.mk (x.run c.inbox steps) now)).source.inbox.requests.size < 2 ^ 53) :
    let r := x.scrape (InboxAt.mk (x.run c.inbox steps) now)
    Balanced c.scope (r.source.inbox.requests.toList.map Stamped.item)
      (r.source.inbox.readings.map Stamped.item) r.value r.log := by
  intro r
  obtain ⟨p, q, hx, hq⟩ := Settings.exists_reporters built
  have events := run_eq hx c.inbox steps
  have source : r.source = _ := scrape_source hx
  have value : r.value = _ := scrape_value hx
  have log : r.log = _ := scrape_log hx hq
  rw [source, value, log]
  refine balanced_report hq ?_ ?_ (Inbox.level_of_mem_update _ now) _
  · rw [List.length_map, Array.length_toList]
    rwa [scrape_source hx] at few
  · rw [events, Inbox.update_run (e := .readReadings now) _ _ rfl, List.map_map]
    exact (Inbox.filed_readings c.lifetime _).1

/-- Two requests to an endpoint with a scrape in between, one without an application, and a reading
that replaces another. -/
def mixedSteps : List Step :=
  let get : Endpoint := ⟨"app", "0", "/", "GET"⟩
  let load : Identity := ⟨"cell", "cf", "diego", "0", "10.0.0.1", "load", .empty⟩
  [.event (.send 0 (.request ⟨get, 200, 512, 7, 5⟩)), .event (.send 1 (.reading ⟨load, 1, "ms"⟩)),
    .scrape 2, .event (.send 3 (.request ⟨get, 404, 0, 9, 2⟩)),
    .event (.send 4 (.request ⟨{ get with applicationId := "" }, 200, 64, 3, 1⟩)),
    .event (.send 5 (.reading ⟨load, 2, "ms"⟩)), .event (.prune 6)]

theorem scrape_balanced_mixedSteps : ∃ x, ({} : Settings).exposition = .ok x ∧
    (x.scrape (InboxAt.mk (x.run ({} : Settings).inbox mixedSteps) 7)).source.inbox.requests.size =
      3 ∧
    let r := x.scrape (InboxAt.mk (x.run ({} : Settings).inbox mixedSteps) 7)
    Balanced "firehose" (r.source.inbox.requests.toList.map Stamped.item)
      (r.source.inbox.readings.map Stamped.item) r.value r.log := by
  have built : ({} : Settings).exposition = .ok _ := rfl
  refine ⟨_, built, ?three, scrape_balanced built mixedSteps 7 (lt_of_eq_of_lt ?three ?_)⟩
  · decide +kernel
  · decide

end Exposition

end Telemetry
