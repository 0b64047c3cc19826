import Telemetry.Proofs.FirstOffence
import Telemetry.Proofs.Series

/-!
# Which readings are skipped

A reading that a reporter cannot show is skipped by itself, for the labels that its tags make. The
names that all gauges have are legal and differ, and so is the name of every metric once the reporter
was built. So it is the tags alone that decide (`gauge_eq`): of the labels that they make, in the
order of the raw keys, the first that is no label name or that the gauge has already is why the
reading is skipped (`report_shows_or_skips`).
-/

namespace Telemetry.ReadingReporter

open Name

/-- The label names that every gauge has. -/
def givenLabels : List String := "environment" :: fixedLabels

/-- The label names that the tags of a reading make, in the order of the raw keys. -/
def tagLabels (r : Reading) : List String := r.tags.entries.map fun tag => normalize tag.1

/-- Why a reading is skipped, if it is. -/
def refusal (r : Reading) : Option MetricError := labelOffence givenLabels (tagLabels r)

/-- The gauge that shows a reading. -/
def gaugePoint (p : ReadingReporter) (r : Reading) : DataPoint where
  name := p.metricName r
  help := help r
  labelNames := givenLabels ++ tagLabels r
  labelValues := [p.environment, r.origin, r.deployment, r.job, r.index, r.ip, r.unit] ++
    r.tags.entries.map Prod.snd
  value := .gauge r.value

variable {scope environment : String} {p : ReadingReporter} {r : Reading}

/-! ## One reading -/

/-- The pass over all labels of a gauge ends with the pass over those of the tags. -/
theorem labelOffence_labelNames (environment : String) (r : Reading) :
    labelOffence [] ((constLabels environment).map Prod.fst ++ labelNames r) = refusal r := by
  have given : labelOffence [] givenLabels = none := by decide
  change labelOffence [] (givenLabels ++ tagLabels r) = _
  rw [labelOffence_append given, List.append_nil]
  rfl

theorem build_gaugePoint {d : Descriptor} (h : Descriptor.build (p.metricName r) (help r)
    (labelNames r) (constLabels p.environment) = .ok d) :
    DataPoint.build d (.gauge r.value) (labelValues r) = .ok (p.gaugePoint r) := by
  obtain ⟨name, help, labels, const⟩ := Descriptor.build_eq_ok_iff.1 h
  rw [DataPoint.build, if_pos (labels ▸ length_labelValues r), Descriptor.labelNames, name, help,
    labels, const]
  rfl

/-- In a legal scope the tags of a reading decide what becomes of it. -/
theorem gauge_eq (h : IsScope p.scope) (r : Reading) :
    p.gauge r = match refusal r with
      | none => .ok (p.gaugePoint r)
      | some e => .error e := by
  have labels := labelOffence_labelNames p.environment r
  cases verdict : refusal r with
  | none =>
    obtain ⟨d, built⟩ : ∃ d, Descriptor.build (p.metricName r) (help r) (labelNames r)
        (constLabels p.environment) = .ok d := by
      rw [Descriptor.exists_build_iff, isMetricName_metricName, labels]
      exact ⟨h, verdict⟩
    rw [gauge, bind_eq_ok_iff]
    exact ⟨d, built, build_gaugePoint built⟩
  | some e =>
    rw [gauge, bind_eq_error_iff, Descriptor.build_eq_error_iff, isMetricName_metricName, labels]
    exact .inl (.inr ⟨h, verdict⟩)

/-! ## All readings -/

theorem skipped_report (p : ReadingReporter) (readings : List Reading) :
    (p.report readings).skipped = readings.filterMap fun r =>
      match p.gauge r with
      | .ok _ => none
      | .error e => some ⟨recordName r, p.metricName r, e⟩ := by
  rw [report, Report.ofAttempts]
  dsimp only
  rw [List.filterMap_map]
  refine List.filterMap_congr fun r _ => ?_
  dsimp only [Function.comp_apply]
  cases p.gauge r <;> rfl

theorem environment_of_build (h : build scope environment = .ok p) :
    p.environment = environment := by
  rw [build, bind_eq_ok_iff] at h
  obtain ⟨d, -, made⟩ := h
  cases made
  rfl

/-- A reporter that was built shows each reading as one gauge or skips it, both in the order of the
readings. It skips a reading for its own tags only: for the first label that they make, in the order
of the raw keys, that is no label name, or is one that every gauge has or that an earlier tag
made. -/
theorem report_shows_or_skips (built : build scope environment = .ok p) (readings : List Reading) :
    let report := p.report readings
    report.points = (readings.filter fun r => refusal r = none).map p.gaugePoint ∧
      report.skipped = readings.filterMap (fun r =>
        (refusal r).map fun e => ⟨r.origin ++ "/" ++ r.name, p.metricName r, e⟩) ∧
      report.discarded = 0 ∧ p.environment = environment ∧
      ∀ r, (refusal r = none ↔ ∀ i, ¬OffendsAt givenLabels (tagLabels r) i) ∧
        ∀ e, refusal r = some e ↔ IsFirstOffence givenLabels (tagLabels r) e := by
  intro report
  have legal : IsScope p.scope := by
    rw [scope_of_build built]
    exact exists_build_iff.1 ⟨p, built⟩
  refine ⟨?_, ?_, rfl, environment_of_build built,
    fun r => ⟨labelOffence_eq_none_iff_forall, fun e => labelOffence_eq_some_iff⟩⟩
  · rw [points_report, ← List.filterMap_eq_map, List.filterMap_filter]
    refine List.filterMap_congr fun r _ => ?_
    rw [gauge_eq legal]
    cases refusal r <;> rfl
  · rw [skipped_report]
    refine List.filterMap_congr fun r _ => ?_
    rw [gauge_eq legal]
    cases refusal r <;> rfl

/-- Readings whose tags make labels that are legal, given already, made twice, and illegal. -/
def fourTags : List Reading :=
  let reading (name : String) (tags : List (String × String)) : Reading :=
    { origin := "cell", deployment := "cf", job := "diego", index := "0", ip := "10.0.0.1",
      name := name, tags := .ofList tags, value := 4, unit := "count" }
  [reading "memory" [("zone", "z1")], reading "disk" [("unit", "mb"), ("9", "")],
    reading "cpu" [("cell_zone", "z1"), ("cellZone", "z2")], reading "load" [("1st", "z1")]]

theorem report_shows_or_skips_fourTags : ∃ q, build "firehose" "prod" = .ok q ∧
    (q.report fourTags).points = (fourTags.filter fun r => refusal r = none).map q.gaugePoint ∧
      (q.report fourTags).skipped.map Skip.cause =
        [.invalidLabelName "9", .duplicateLabelName "cell_zone", .invalidLabelName "1st"] := by
  have built : build "firehose" "prod" = .ok _ := rfl
  obtain ⟨points, skipped, -⟩ := report_shows_or_skips built fourTags
  exact ⟨_, built, points, by rw [skipped]; decide⟩

end Telemetry.ReadingReporter
