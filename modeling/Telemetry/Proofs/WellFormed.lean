import Mathlib.Data.List.Nodup
import Telemetry.Exposition
import Telemetry.Proofs.Name
import Telemetry.Proofs.Reporters

/-!
# Well-formed data points

Names are checked in one place, when a descriptor is built, while names, labels and texts are put
together from readings and requests in several others. But a data point can only be built from a
descriptor, and with as many texts as the descriptor asks for. That is enough for it to be
well-formed (`wellFormed_of_build`). Whatever reporters an exposition has and whatever its source
gives, it shows nothing else (`wellFormed_of_mem_scrape`).
-/

namespace Telemetry

/-- The name and the label names are legal, each label has its own name and one text, and looking
up a label finds this text. -/
structure DataPoint.WellFormed (p : DataPoint) : Prop where
  name_mem : p.name.toList ∈ Name.metricNames
  labelName_mem : ∀ l ∈ p.labelNames, l.toList ∈ Name.labelNames
  not_reserved : ∀ l ∈ p.labelNames, ¬['_', '_'] <+: l.toList
  labelNames_nodup : p.labelNames.Nodup
  length_eq : p.labelValues.length = p.labelNames.length
  label?_getElem : ∀ (i : ℕ) (l text : String),
    p.labelNames[i]? = some l → p.labelValues[i]? = some text → p.label? l = some text
  label?_eq_none : ∀ l ∉ p.labelNames, p.label? l = none

/-! ## Looking up labels -/

section Lookup

variable {α β : Type} [DecidableEq α] {keys : List α} {values : List β} {k : α} {v : β}

theorem lookup_zip_of_notMem (absent : k ∉ keys) : (keys.zip values).lookup k = none := by
  rw [List.lookup_eq_none_iff]
  rintro ⟨key, value⟩ mem
  have other : k ≠ key := fun same => absent (same ▸ (List.of_mem_zip mem).1)
  simpa using other

theorem lookup_zip_getElem (nodup : keys.Nodup) {i : ℕ} (hk : keys[i]? = some k)
    (hv : values[i]? = some v) : (keys.zip values).lookup k = some v := by
  induction keys generalizing values i with
  | nil => cases hk
  | cons key keys ih =>
    obtain ⟨fresh, nodup⟩ := List.nodup_cons.1 nodup
    cases values with
    | nil => cases hv
    | cons value values =>
      rw [List.zip_cons_cons, List.lookup_cons]
      cases i with
      | zero =>
        obtain rfl := Option.some.inj hk
        obtain rfl := Option.some.inj hv
        simp
      | succ i =>
        rw [List.getElem?_cons_succ] at hk hv
        have other : k ≠ key := fun same => fresh (same ▸ List.mem_of_getElem? hk)
        rw [beq_false_of_ne other]
        exact ih nodup hk hv

end Lookup

/-! ## One data point -/

theorem DataPoint.wellFormed_of_build {d : Descriptor} {value : Measurement} {texts : List String}
    {p : DataPoint} (h : build d value texts = .ok p) : p.WellFormed := by
  unfold build at h
  split_ifs at h with complete
  cases h
  have legal : ∀ l ∈ d.labelNames, l.toList ∈ Name.labelNames ∧ ¬['_', '_'] <+: l.toList :=
    fun l hl => (Name.isLabelName_iff l).1 (d.labels_valid l hl)
  refine ⟨(Name.isMetricName_iff d.name).1 d.name_valid, fun l hl => (legal l hl).1,
    fun l hl => (legal l hl).2, d.labels_nodup, ?_, fun i l text => ?_, fun l => ?_⟩
  · rw [List.length_append, List.length_map, Descriptor.labelNames, List.length_append,
      List.length_map, complete]
  · exact lookup_zip_getElem d.labels_nodup
  · exact lookup_zip_of_notMem

/-! ## Reports and scrapes -/

/-- The data points of a report are those of its attempts. -/
theorem Report.mem_points_ofAttempts {attempts : List (Except Skip DataPoint)} {discarded : ℕ}
    {p : DataPoint} : p ∈ (ofAttempts attempts discarded).points ↔ .ok p ∈ attempts := by
  rw [ofAttempts, List.mem_filterMap]
  constructor
  · rintro ⟨attempt, mem, made⟩
    cases attempt with
    | error s => cases made
    | ok q =>
      obtain rfl := Option.some.inj made
      exact mem
  · intro mem
    exact ⟨_, mem, rfl⟩

theorem Report.eq_ok_of_attempt {record metric : String} {made : Except MetricError DataPoint}
    {p : DataPoint} (h : attempt record metric made = .ok p) : made = .ok p := by
  cases made with
  | error e => cases h
  | ok q =>
    cases h
    rfl

theorem ReadingReporter.wellFormed_of_mem_report (q : ReadingReporter) (readings : List Reading) :
    ∀ p ∈ (q.report readings).points, p.WellFormed := by
  intro p hp
  obtain ⟨r, -, tried⟩ := List.mem_map.1 (Report.mem_points_ofAttempts.1 hp)
  have made := Report.eq_ok_of_attempt tried
  rw [gauge, bind_eq_ok_iff] at made
  obtain ⟨d, -, built⟩ := made
  exact DataPoint.wellFormed_of_build built

theorem TrafficReporter.wellFormed_of_mem_report {ρ : Type} [Precision ρ] (q : TrafficReporter)
    (t : Traffic ρ) : ∀ p ∈ (q.report t).points, p.WellFormed := by
  intro p hp
  obtain ⟨⟨e, s⟩, -, tried⟩ := List.mem_flatMap.1 (Report.mem_points_ofAttempts.1 hp)
  simp only [endpointPoints, summaryPoint, totalPoint, List.mem_cons, List.mem_map] at tried
  rcases tried with tried | tried | tried | ⟨codes, -, tried⟩
  · exact DataPoint.wellFormed_of_build (Report.eq_ok_of_attempt tried.symm)
  · exact DataPoint.wellFormed_of_build (Report.eq_ok_of_attempt tried.symm)
  · exact DataPoint.wellFormed_of_build (Report.eq_ok_of_attempt tried.symm)
  · exact DataPoint.wellFormed_of_build (Report.eq_ok_of_attempt tried)

section Scrape

variable {σ : Type} [Source σ]

theorem Reporter.wellFormed_of_mem_run (q : Reporter) (source : σ) :
    ∀ p ∈ (q.run source).value.points, p.WellFormed := by
  cases q with
  | readings q => exact q.wellFormed_of_mem_report _
  | traffic q => exact q.wellFormed_of_mem_report _

namespace Exposition

/-- Each reporter runs on what those before it left of the source. -/
theorem wellFormed_of_mem_runAll (reporters : List Reporter) (source : σ) :
    ∀ report ∈ (runAll reporters source).value, ∀ p ∈ report.points, p.WellFormed := by
  induction reporters generalizing source with
  | nil => simp [runAll]
  | cons q rest ih =>
    refine List.forall_mem_cons.2 ⟨q.wellFormed_of_mem_run source, ?_⟩
    exact ih (q.run source).source

/-- Every data point that an exposition shows is well-formed, whatever its reporters are and
whatever its source gives at each read. -/
theorem wellFormed_of_mem_scrape (x : Exposition) (source : σ) :
    ∀ p ∈ (x.scrape source).value, p.WellFormed := by
  intro p hp
  obtain ⟨report, mem, hp⟩ := List.mem_flatMap.1 hp
  exact wellFormed_of_mem_runAll x.reporters source report mem p hp

/-- A source with one reading, whose name and tag are not spelled the way labels are. -/
def oneReading : Snapshot where
  readings :=
    [{ origin := "cell", deployment := "cf", job := "diego", index := "0", ip := "10.0.0.1",
       name := "numCPUS", tags := .ofList [("cellZone", "z1")], value := 4, unit := "count" }]
  requests := []

theorem wellFormed_of_mem_scrape_oneReading : ∃ q,
    ReadingReporter.build "firehose" "prod" = .ok q ∧
      ∃ p ∈ (scrape ⟨[.readings q]⟩ oneReading).value, p.WellFormed ∧
        p.label? "cell_zone" = some "z1" := by
  obtain ⟨q, built, p, mem, zone⟩ : ∃ q, ReadingReporter.build "firehose" "prod" = .ok q ∧
      ∃ p ∈ (scrape ⟨[.readings q]⟩ oneReading).value, p.label? "cell_zone" = some "z1" :=
    ⟨_, rfl, by decide⟩
  exact ⟨q, built, p, mem, wellFormed_of_mem_scrape _ oneReading p mem, zone⟩

end Exposition

end Scrape

end Telemetry
