import Telemetry.Proofs.Exposition
import Telemetry.Proofs.WellFormed

/-!
# Scopes

The scope of all metric names is checked once, when the reporters are built, on names that are
fixed. Later names are put together from whatever origins and names the readings bring, but the one
check covers them all: what stands behind a scope are characters that any name may hold, so it is
the scope alone that makes a name illegal (`isMetricName_qualify_iff`). Hence both reporters can be
built with the same scopes, and of an exposition that was built no data point fails for its name.
Nor does one for the number of its texts, so that only labels are left (`scope_check_suffices`).
-/

namespace Telemetry

/-! ## Legal names -/

namespace Name

/-- The characters of metric names, of which digits may not come first. -/
def IsNameChar (c : Char) : Prop := c.isAlphanum ∨ c = '_' ∨ c = ':'

instance (c : Char) : Decidable (IsNameChar c) := inferInstanceAs (Decidable (_ ∨ _ ∨ _))

/-- The scopes that are empty or match `[a-zA-Z_:][a-zA-Z0-9_:]*`. -/
def IsScope (scope : String) : Prop := scope = "" ∨ scope.toList ∈ metricNames

variable {scope subsystem a b : String}

theorem IsMetricName.isNameChar (h : IsMetricName a) : ∀ c ∈ a.toList, IsNameChar c := by
  unfold IsMetricName at h
  split at h
  · exact h.elim
  · rename_i first rest chars
    obtain ⟨first_legal, rest_legal⟩ := h
    rw [chars]
    refine List.forall_mem_cons.2 ⟨first_legal.imp_left fun alpha => ?_, rest_legal⟩
    rw [Char.isAlphanum, alpha, Bool.true_or]

theorem IsMetricName.ne_empty (h : IsMetricName a) : a ≠ "" := by
  rintro rfl
  exact h

theorem isNameChar_append (ha : ∀ c ∈ a.toList, IsNameChar c) (hb : ∀ c ∈ b.toList, IsNameChar c) :
    ∀ c ∈ (a ++ b).toList, IsNameChar c := by
  rw [String.toList_append]
  exact List.forall_mem_append.2 ⟨ha, hb⟩

theorem isNameChar_underscore : ∀ c ∈ "_".toList, IsNameChar c :=
  List.forall_mem_singleton.2 (.inr (.inl rfl))

theorem isMetricName_append_iff (ha : a ≠ "") :
    IsMetricName (a ++ b) ↔ IsMetricName a ∧ ∀ c ∈ b.toList, IsNameChar c := by
  unfold IsMetricName
  rw [String.toList_append]
  cases chars : a.toList with
  | nil => exact absurd (String.toList_eq_nil_iff.1 chars) ha
  | cons first rest =>
    simp only [List.cons_append]
    rw [List.forall_mem_append, ← and_assoc]
    rfl

/-- Whether a qualified name is legal depends on the scope only. -/
theorem isMetricName_qualify_iff (hs : IsMetricName subsystem) (ha : a ≠ "")
    (chars : ∀ c ∈ a.toList, IsNameChar c) :
    IsMetricName (qualify scope subsystem a) ↔ IsScope scope := by
  have rest : ∀ c ∈ ("_" ++ a).toList, IsNameChar c :=
    isNameChar_append isNameChar_underscore chars
  rw [qualify_eq (String.isEmpty_eq_false_iff.2 hs.ne_empty) (String.isEmpty_eq_false_iff.2 ha),
    qualifier, IsScope, ← isMetricName_iff]
  by_cases none : scope = ""
  · rw [if_pos (String.isEmpty_iff.2 none), String.empty_append, String.append_assoc,
      isMetricName_append_iff hs.ne_empty]
    exact iff_of_true ⟨hs, rest⟩ (.inl none)
  · have behind : ∀ c ∈ ("_" ++ (subsystem ++ ("_" ++ a))).toList, IsNameChar c :=
      isNameChar_append isNameChar_underscore (isNameChar_append hs.isNameChar rest)
    rw [if_neg (mt String.isEmpty_iff.1 none), String.append_assoc, String.append_assoc,
      String.append_assoc, isMetricName_append_iff none, or_iff_right none]
    exact and_iff_left behind

theorem isNameChar_normalizeChar (previous : Option Char) (c : Char) (next : Option Char) :
    ∀ d ∈ normalizeChar previous c next, IsNameChar d := by
  have underscore : IsNameChar '_' := .inr (.inl rfl)
  have lower : c.isUpper = true → IsNameChar c.toLower := by
    intro upper
    have alpha : c.toLower.isAlpha = true := by
      rw [Char.isAlpha_toLower_eq_isAlpha, Char.isAlpha, upper, Bool.true_or]
    exact .inl (by rw [Char.isAlphanum, alpha, Bool.true_or])
  unfold normalizeChar
  split_ifs with upper starts legal
  · exact List.forall_mem_cons.2 ⟨underscore, List.forall_mem_singleton.2 (lower upper)⟩
  · exact List.forall_mem_singleton.2 (lower upper)
  · refine List.forall_mem_singleton.2 ?_
    rcases Bool.or_eq_true_iff.1 legal with alphanumeric | equal
    · exact .inl alphanumeric
    · exact .inr (.inl (beq_iff_eq.1 equal))
  · exact List.forall_mem_singleton.2 underscore

/-- Normalizing leaves only characters of names. -/
theorem isNameChar_normalize (name : String) : ∀ c ∈ (normalize name).toList, IsNameChar c := by
  have after : ∀ (previous : Option Char) (chars : List Char),
      ∀ c ∈ normalizeAfter previous chars, IsNameChar c := by
    intro previous chars
    induction chars generalizing previous with
    | nil => simp [normalizeAfter]
    | cons c rest ih =>
      exact List.forall_mem_append.2 ⟨isNameChar_normalizeChar previous c _, ih (some c)⟩
  rw [normalize, String.toList_ofList]
  exact after none name.toList

end Name

/-! ## Refusals -/

/-- What is wrong with label names is that one is illegal or repeated. -/
theorem eq_of_labelOffence {seen names : List String} {e : MetricError}
    (h : labelOffence seen names = some e) :
    ∃ label, e = .invalidLabelName label ∨ e = .duplicateLabelName label := by
  induction names generalizing seen with
  | nil => cases h
  | cons name rest ih =>
    unfold labelOffence at h
    split_ifs at h with legal old
    · exact ⟨name, .inr (Option.some.inj h).symm⟩
    · exact ih h
    · exact ⟨name, .inl (Option.some.inj h).symm⟩

namespace Descriptor

variable {name help : String} {variableLabels : List String}
  {constLabels : List (String × String)}

theorem exists_build_iff : (∃ d, build name help variableLabels constLabels = .ok d) ↔
    Name.IsMetricName name ∧
      labelOffence [] (constLabels.map Prod.fst ++ variableLabels) = none := by
  unfold build
  split_ifs with legal
  · rw [and_iff_right legal]
    split
    · next e offence => simp [offence]
    · next offence => simp [offence]
  · simp [legal]

theorem build_eq_error_iff {e : MetricError} :
    build name help variableLabels constLabels = .error e ↔
      ¬Name.IsMetricName name ∧ e = .invalidMetricName name ∨
        Name.IsMetricName name ∧
          labelOffence [] (constLabels.map Prod.fst ++ variableLabels) = some e := by
  unfold build
  split_ifs with legal
  · split
    · next e offence => simp [legal, offence]
    · next offence => simp [legal, offence]
  · simp [legal, eq_comm]

end Descriptor

/-- A data point fails if it is not given a text for each label. -/
theorem DataPoint.exists_build_iff {d : Descriptor} {value : Measurement} {texts : List String} :
    (∃ p, build d value texts = .ok p) ↔ texts.length = d.variableLabels.length := by
  unfold build
  split_ifs with complete <;> simp [complete]

namespace ReadingReporter

open Name

variable {scope environment : String} {p : ReadingReporter}

theorem isMetricName_subsystem : IsMetricName subsystem := by decide

theorem isMetricName_collector : IsMetricName (qualify scope subsystem "collector") ↔
    IsScope scope := by
  have legal : IsMetricName "collector" := by decide
  rw [isMetricName_qualify_iff isMetricName_subsystem legal.ne_empty legal.isNameChar]

theorem exists_build_iff : (∃ p, build scope environment = .ok p) ↔ IsScope scope := by
  have labels : labelOffence [] ["environment"] = none := by decide
  have described : (∃ d, Descriptor.build (qualify scope subsystem "collector")
      "Cloud Foundry Firehose value metrics collector." [] (constLabels environment) = .ok d) ↔
        IsScope scope := by
    rw [Descriptor.exists_build_iff, isMetricName_collector]
    exact and_iff_left labels
  simp only [build, bind_eq_ok_iff]
  rw [← described]
  constructor
  · rintro ⟨_, d, built, -⟩
    exact ⟨d, built⟩
  · rintro ⟨d, built⟩
    exact ⟨_, d, built, rfl⟩

/-- The name of the reporter itself is the one that is refused. -/
theorem build_eq_error (h : ¬IsScope scope) :
    build scope environment = .error (.invalidMetricName (scope ++ "_value_metrics_collector")) := by
  have named : scope ≠ "" := fun none => h (.inl none)
  have name : qualify scope subsystem "collector" = scope ++ "_value_metrics_collector" := by
    rw [qualify_eq rfl rfl, qualifier, if_neg (mt String.isEmpty_iff.1 named), String.append_assoc,
      String.append_assoc, String.append_assoc]
    rfl
  rw [← name]
  exact bind_eq_error_iff.2
    (.inl (Descriptor.build_eq_error_iff.2 (.inl ⟨mt isMetricName_collector.1 h, rfl⟩)))

theorem scope_of_build (h : build scope environment = .ok p) : p.scope = scope := by
  rw [build, bind_eq_ok_iff] at h
  obtain ⟨d, -, made⟩ := h
  cases made
  rfl

theorem isMetricName_metricName (p : ReadingReporter) (r : Reading) :
    IsMetricName (p.metricName r) ↔ IsScope p.scope := by
  have parts : normalize r.origin ++ "_" ++ normalize r.name ≠ "" := by simp
  have chars : ∀ c ∈ (normalize r.origin ++ "_" ++ normalize r.name).toList, IsNameChar c :=
    isNameChar_append (isNameChar_append (isNameChar_normalize _) isNameChar_underscore)
      (isNameChar_normalize _)
  rw [metricName, isMetricName_qualify_iff isMetricName_subsystem parts chars]

theorem length_labelValues (r : Reading) : (labelValues r).length = (labelNames r).length := by
  simp [labelValues, labelNames, fixedLabels]

/-- In a legal scope only labels can keep a reading from being shown. -/
theorem label_of_gauge_eq_error (h : IsScope p.scope) {r : Reading} {e : MetricError}
    (failed : p.gauge r = .error e) :
    ∃ label, e = .invalidLabelName label ∨ e = .duplicateLabelName label := by
  rcases bind_eq_error_iff.1 failed with refused | ⟨d, described, failed⟩
  · rw [Descriptor.build_eq_error_iff, isMetricName_metricName] at refused
    rcases refused with ⟨illegal, -⟩ | ⟨-, offence⟩
    · exact absurd h illegal
    · exact eq_of_labelOffence offence
  · obtain ⟨-, -, labels, -⟩ := Descriptor.build_eq_ok_iff.1 described
    obtain ⟨point, made⟩ : ∃ point, DataPoint.build d (.gauge r.value) (labelValues r) = .ok point :=
      DataPoint.exists_build_iff.2 (labels ▸ length_labelValues r)
    cases failed.symm.trans made

end ReadingReporter

namespace TrafficReporter

open Name

variable {scope : String}

theorem exists_descriptor_iff (name help : String) {labels : List String}
    (hn : IsMetricName name) (hl : labelOffence [] labels = none) :
    (∃ d, descriptor scope name help labels = .ok d) ↔ IsScope scope := by
  rw [descriptor, Descriptor.exists_build_iff,
    isMetricName_qualify_iff (by decide) hn.ne_empty hn.isNameChar]
  exact and_iff_left hl

theorem exists_build_iff {mode : SumMode} : (∃ q, build scope mode = .ok q) ↔ IsScope scope := by
  have total : labelOffence [] (endpointLabels ++ [statusLabel]) = none := by decide
  have summary : labelOffence [] endpointLabels = none := by decide
  simp only [build, bind_eq_ok_iff]
  constructor
  · rintro ⟨q, d, described, -⟩
    exact (exists_descriptor_iff "request_total" _ (by decide) total).1 ⟨d, described⟩
  · intro h
    obtain ⟨_, requestTotal⟩ := (exists_descriptor_iff "request_total" _ (by decide) total).2 h
    obtain ⟨_, responseSize⟩ :=
      (exists_descriptor_iff "response_size_bytes" _ (by decide) summary).2 h
    obtain ⟨_, clientDuration⟩ :=
      (exists_descriptor_iff "client_request_duration_nanoseconds" _ (by decide) summary).2 h
    obtain ⟨_, serverDuration⟩ :=
      (exists_descriptor_iff "server_request_duration_nanoseconds" _ (by decide) summary).2 h
    exact ⟨_, _, requestTotal, _, responseSize, _, clientDuration, _, serverDuration, rfl⟩

end TrafficReporter

/-! ## Skips -/

namespace Report

theorem mem_skipped_ofAttempts {attempts : List (Except Skip DataPoint)} {discarded : ℕ}
    {s : Skip} : s ∈ (ofAttempts attempts discarded).skipped ↔ .error s ∈ attempts := by
  rw [ofAttempts, List.mem_filterMap]
  constructor
  · rintro ⟨attempt, mem, made⟩
    cases attempt with
    | error s' =>
      obtain rfl := Option.some.inj made
      exact mem
    | ok p => cases made
  · intro mem
    exact ⟨_, mem, rfl⟩

theorem eq_error_of_attempt {record metric : String} {made : Except MetricError DataPoint}
    {s : Skip} (h : attempt record metric made = .error s) : made = .error s.cause := by
  cases made with
  | error e =>
    cases h
    rfl
  | ok p => cases h

end Report

theorem ReadingReporter.label_of_mem_skipped {p : ReadingReporter} (h : Name.IsScope p.scope)
    {readings : List Reading} {skip : Skip} (hs : skip ∈ (p.report readings).skipped) :
    ∃ label, skip.cause = .invalidLabelName label ∨ skip.cause = .duplicateLabelName label := by
  obtain ⟨r, -, tried⟩ := List.mem_map.1 (Report.mem_skipped_ofAttempts.1 hs)
  exact label_of_gauge_eq_error h (Report.eq_error_of_attempt tried)

namespace Settings

open Name

theorem exists_exposition_iff {c : Settings} : (∃ x, c.exposition = .ok x) ↔ IsScope c.scope := by
  simp only [exposition_eq_ok_iff]
  constructor
  · rintro ⟨_, p, built, -⟩
    exact ReadingReporter.exists_build_iff.1 ⟨p, built⟩
  · intro h
    obtain ⟨p, readings⟩ := ReadingReporter.exists_build_iff.2 h
    obtain ⟨q, traffic⟩ := TrafficReporter.exists_build_iff.2 h
    exact ⟨_, p, readings, q, traffic, rfl⟩

/-- The check of the scope is exact: an exposition can be built with just the scopes that are empty
or a legal name, otherwise the name of the reporter of readings is refused, and one reporter can be
built if and only if the other can. It suffices, too: once an exposition is built, whatever source
its reporters run on, what they skip has illegal or repeated labels. -/
theorem scope_check_suffices (c : Settings) :
    ((∃ x, c.exposition = .ok x) ↔ IsScope c.scope) ∧
      (¬IsScope c.scope →
        c.exposition = .error (.invalidMetricName (c.scope ++ "_value_metrics_collector"))) ∧
      ((∃ p, ReadingReporter.build c.scope c.environment = .ok p) ↔
        ∃ q, TrafficReporter.build c.scope c.sumMode = .ok q) ∧
      ∀ x, c.exposition = .ok x → ∀ {σ : Type} [Source σ] (source : σ),
        ∀ report ∈ (Exposition.runAll x.reporters source).value, ∀ skip ∈ report.skipped,
          ∃ label, skip.cause = .invalidLabelName label ∨
            skip.cause = .duplicateLabelName label := by
  refine ⟨exists_exposition_iff, fun h => ?_, ?_, ?_⟩
  · rw [exposition, ReadingReporter.build_eq_error h]
    rfl
  · rw [ReadingReporter.exists_build_iff, TrafficReporter.exists_build_iff]
  · intro x built σ _ source report hr skip hs
    obtain ⟨p, readings, q, traffic, rfl⟩ := exposition_eq_ok_iff.1 built
    have legal : IsScope p.scope := by
      rw [ReadingReporter.scope_of_build readings]
      exact ReadingReporter.exists_build_iff.1 ⟨p, readings⟩
    simp only [Exposition.runAll, Reporter.run, List.mem_cons, List.not_mem_nil, or_false] at hr
    rcases hr with rfl | rfl
    · exact ReadingReporter.label_of_mem_skipped legal hs
    · rw [(TrafficReporter.built_of_build traffic).report_eq] at hs
      cases hs

/-- A source with one reading, whose tag cannot be made a label. -/
def digitTag : Snapshot where
  readings :=
    [{ origin := "cell/0", deployment := "cf", job := "diego", index := "0", ip := "10.0.0.1",
       name := "load avg", tags := .ofList [("1st zone", "z1")], value := 4, unit := "" }]
  requests := []

theorem scope_check_suffices_digitTag :
    ¬IsScope "no spaces" ∧
      ({ scope := "no spaces" } : Settings).exposition =
        .error (.invalidMetricName "no spaces_value_metrics_collector") ∧
      ∃ x, ({} : Settings).exposition = .ok x ∧
        ∃ report ∈ (Exposition.runAll x.reporters digitTag).value, ∃ skip ∈ report.skipped,
          skip.metric = "firehose_value_metrics_cell_0_load_avg" ∧
            ∃ label, skip.cause = .invalidLabelName label ∨
              skip.cause = .duplicateLabelName label := by
  have illegal : ¬IsScope "no spaces" := by
    rw [IsScope, ← isMetricName_iff]
    decide
  obtain ⟨x, built, report, hr, skip, hs, metric⟩ : ∃ x, ({} : Settings).exposition = .ok x ∧
      ∃ report ∈ (Exposition.runAll x.reporters digitTag).value, ∃ skip ∈ report.skipped,
        skip.metric = "firehose_value_metrics_cell_0_load_avg" :=
    ⟨_, rfl, by decide⟩
  exact ⟨illegal, (scope_check_suffices { scope := "no spaces" }).2.1 illegal, x, built, report, hr,
    skip, hs, metric, (scope_check_suffices {}).2.2.2 x built digitTag report hr skip hs⟩

end Settings

end Telemetry
