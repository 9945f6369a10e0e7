import Csc512.Chaos.Report

/-!
# What breaks a report

The report of some runs is written from what the programs print. Where the figures of an output
cannot be read there are no metrics, and the feedback asks for them all the same. The program's own
figure for its memory is formatted as a float. And where a profile that failed has more than one
run, the reason is looked for in the first of them.

## Main results

* `savesReport_iff` — when a report is written
* `not_savesReport` — a line that breaks the report
-/

namespace Csc512

namespace Chaos

section Errors

variable (U : CharTable) (maxStrDigits : ℕ)

/-- The last run of a profile. -/
def lastRun (results : List ChaosRunResult) (profile : Text) : Option ChaosRunResult :=
  results.reverse.find? fun r => r.profileName = profile

/-- The first run of a profile. -/
def firstRun (results : List ChaosRunResult) (profile : Text) : Option ChaosRunResult :=
  results.find? fun r => r.profileName = profile

/-- An integer that is not too large for a float. -/
def FitsFloat (n : ℕ) : Prop := (floatOfInt n).isSome

/-- Each profile has an output that can be read, and its memory was measured or the figure in its
output fits a float. If there is no wall time to compare with, then the first run of each profile
that failed has failed. -/
structure ReportWritable (results : List ChaosRunResult) : Prop where
  outputs : ∀ r ∈ nonBaseline results, ∀ q ∈ lastRun results r.profileName,
    OutputReadable U maxStrDigits q.stdout
  memory : ∀ r ∈ nonBaseline results, (Double.rat 0).lt r.peakRssMb ∨
    ∀ q ∈ lastRun results r.profileName, FitsFloat (largest (valuesOf U q.stdout).mem)
  failures : (∃ baseline ∈ baseline? results, baseline.wallTimeS.truthy) ∨
    ∀ r ∈ nonBaseline results, r.failed → ∀ q ∈ firstRun results r.profileName, q.failed

/-! ### Rows -/

theorem mapM_isSome_iff {α β : Type} {f : α → Option β} {l : List α} :
    (l.mapM f).isSome ↔ ∀ a ∈ l, (f a).isSome := by
  induction l with
  | nil => simp
  | cons a l ih =>
    rw [List.mapM_cons, List.forall_mem_cons, ← ih]
    cases f a <;> cases l.mapM f <;> simp

/-- What is computed for the members of a list, in order. -/
theorem map_eq_of_mapM {α β γ : Type} {f : α → Option β} {g : α → γ} {h : β → γ}
    (hf : ∀ a b, f a = some b → h b = g a) {l : List α} {l' : List β} (hl : l.mapM f = some l') :
    l'.map h = l.map g := by
  induction l generalizing l' with
  | nil =>
    cases hl
    rfl
  | cons a l ih =>
    rw [List.mapM_cons] at hl
    obtain ⟨b, hb, hl⟩ := Option.bind_eq_some_iff.mp hl
    obtain ⟨bs, hbs, hl⟩ := Option.bind_eq_some_iff.mp hl
    cases hl
    rw [List.map_cons, List.map_cons, hf a b hb, ih hbs]

variable {results : List ChaosRunResult}

theorem exists_find_profile {r : ChaosRunResult} (hr : r ∈ results) :
    ∃ q, results.find? (fun q => q.profileName = r.profileName) = some q :=
  Option.isSome_iff_exists.mp (List.find?_isSome.mpr ⟨r, hr, decide_eq_true rfl⟩)

theorem exists_lastRun {r : ChaosRunResult} (hr : r ∈ nonBaseline results) :
    ∃ q, lastRun results r.profileName = some q :=
  exists_find_profile (List.mem_reverse.mpr (List.filter_sublist.mem hr))

variable {U maxStrDigits}

/-- The metrics of a profile and its memory can be written. -/
theorem row_isSome_iff {r : ChaosRunResult} (hr : r ∈ nonBaseline results) {α : Type}
    (row : Metrics → Text → α) :
    ((metricsOf (parseMetrics U maxStrDigits) results r.profileName).bind fun m =>
        (memoryText r m).map (row m)).isSome ↔
      (∀ q ∈ lastRun results r.profileName, OutputReadable U maxStrDigits q.stdout) ∧
        ((Double.rat 0).lt r.peakRssMb ∨
          ∀ q ∈ lastRun results r.profileName, FitsFloat (largest (valuesOf U q.stdout).mem)) := by
  obtain ⟨q, hq⟩ := exists_lastRun hr
  have hmetrics : metricsOf (parseMetrics U maxStrDigits) results r.profileName
      = parseMetrics U maxStrDigits q.stdout := congrArg (Option.bind · _) hq
  rw [hmetrics, hq]
  simp only [Option.mem_some_iff, forall_eq']
  by_cases h : OutputReadable U maxStrDigits q.stdout
  · obtain ⟨m, hm, hpeak⟩ := exists_parseMetrics h
    rw [hm, Option.bind_some, Option.isSome_map, and_iff_right h, memoryText, hpeak, FitsFloat]
    by_cases hmeasured : (Double.rat 0).lt r.peakRssMb
    · rw [if_pos hmeasured]
      exact iff_of_true rfl (.inl hmeasured)
    · rw [if_neg hmeasured, Option.isSome_map]
      exact (or_iff_right hmeasured).symm
  · have hnone : parseMetrics U maxStrDigits q.stdout = none :=
      Option.not_isSome_iff_eq_none.mp fun hsome => h (parseMetrics_isSome_iff.mp hsome)
    rw [hnone]
    exact iff_of_false nofun fun hall => h hall.1

/-! ### Reasons -/

/-- The comparisons of a report. -/
def comparisonsOf (results : List ChaosRunResult) : List Comparison :=
  (compareToBaseline results).getD []

/-- There is a change in wall time for each profile, if the baseline took some time, and otherwise
for none. -/
theorem isSome_wallTimePct_iff {r : ChaosRunResult} (hr : r ∈ nonBaseline results) :
    ((comparisonOf (comparisonsOf results) r.profileName).bind Comparison.wallTimePct).isSome ↔
      ∃ baseline ∈ baseline? results, baseline.wallTimeS.truthy := by
  cases hbaseline : baseline? results with
  | none =>
    have hnone : comparisonsOf results = [] := by
      rw [comparisonsOf, compareToBaseline, hbaseline]
      rfl
    rw [hnone, comparisonOf]
    simp
  | some baseline =>
    have hsome : comparisonsOf results = (nonBaseline results).map (compare baseline) := by
      rw [comparisonsOf, compareToBaseline_eq hbaseline]
      rfl
    rw [hsome, comparisonOf]
    have hfound : (((nonBaseline results).map (compare baseline)).reverse.find?
        fun c => c.profile = r.profileName).isSome :=
      List.find?_isSome.mpr ⟨compare baseline r,
        List.mem_reverse.mpr (List.mem_map_of_mem hr), decide_eq_true rfl⟩
    obtain ⟨c, hc⟩ := Option.isSome_iff_exists.mp hfound
    obtain ⟨q, -, rfl⟩ := List.mem_map.mp (List.mem_reverse.mp (List.mem_of_find?_eq_some hc))
    rw [hc, Option.bind_some]
    show (pctChange baseline.wallTimeS q.wallTimeS).isSome ↔ _
    rw [pctChange]
    by_cases htime : baseline.wallTimeS.truthy
    · rw [if_pos htime]
      exact iff_of_true Option.isSome_some ⟨baseline, rfl, htime⟩
    · rw [if_neg htime]
      refine iff_of_false Bool.false_ne_true ?_
      rintro ⟨b, hb, htruthy⟩
      obtain rfl := Option.some.inj hb
      exact htime htruthy

/-- A profile is among the failures because a run failed, or because it was too slow. -/
theorem failed_or_of_verdictClass {r : ChaosRunResult} {cmp : Option Comparison}
    (h : verdictClass r cmp = .fail) : r.failed ∨ (cmp.bind Comparison.wallTimePct).isSome := by
  rw [verdictClass_eq] at h
  cases hpct : cmp.bind Comparison.wallTimePct with
  | some pct => exact .inr rfl
  | none =>
    rw [hpct] at h
    cases hfailed : r.failed with
    | true => exact .inl rfl
    | false =>
      have hlt : ∀ bound : ℚ, 0 ≤ bound → (Double.rat bound).lt (orZero none) = false :=
        fun bound hbound => (slowerThan_eq none hbound).symm
      rw [hfailed, classAt, Bool.false_or, hlt 200 (by norm_num), hlt 30 (by norm_num)] at h
      cases h

theorem verdictClass_of_failed {r : ChaosRunResult} (h : r.failed) (cmp : Option Comparison) :
    verdictClass r cmp = .fail := by
  rw [verdictClass_eq, h]
  rfl

/-- There is a reason if the first run has failed or there is a change in wall time. -/
theorem failureReason_isSome_iff {r : ChaosRunResult} (hr : r ∈ nonBaseline results) :
    (failureReason results (comparisonsOf results) r.profileName).isSome ↔
      (∃ baseline ∈ baseline? results, baseline.wallTimeS.truthy) ∨
        ∀ q ∈ firstRun results r.profileName, q.failed := by
  obtain ⟨q, hq⟩ := exists_find_profile (List.filter_sublist.mem hr)
  have hfirst : firstRun results r.profileName = some q := hq
  rw [failureReason, hq, Option.bind_some, hfirst]
  simp only [Option.mem_some_iff, forall_eq']
  rw [← isSome_wallTimePct_iff hr]
  by_cases hoom : q.oomKilled
  · rw [if_pos hoom]
    exact iff_of_true rfl (.inr (by simp [ChaosRunResult.failed, hoom]))
  by_cases htime : q.timedOut
  · rw [if_neg hoom, if_pos htime]
    exact iff_of_true rfl (.inr (by simp [ChaosRunResult.failed, htime]))
  by_cases hcode : q.returncode ≠ 0
  · rw [if_neg hoom, if_neg htime, if_pos hcode]
    exact iff_of_true rfl (.inr (by simp [ChaosRunResult.failed, hcode]))
  · have hfailed : ¬ q.failed := by
      simp [ChaosRunResult.failed, hoom, htime, not_not.mp hcode]
    rw [if_neg hoom, if_neg htime, if_neg hcode, Option.isSome_map]
    exact (or_iff_left hfailed).symm

/-- The profiles among the failures of a report. -/
def failuresOf (results : List ChaosRunResult) : List Text :=
  ((nonBaseline results).filter fun r => verdictClass r
    (comparisonOf (comparisonsOf results) r.profileName) = .fail).map ChaosRunResult.profileName

/-- There is a reason for each failure. -/
theorem reasons_isSome_iff :
    ((failuresOf results).mapM (failureReason results (comparisonsOf results))).isSome ↔
      (∃ baseline ∈ baseline? results, baseline.wallTimeS.truthy) ∨
        ∀ r ∈ nonBaseline results, r.failed → ∀ q ∈ firstRun results r.profileName, q.failed := by
  rw [mapM_isSome_iff, failuresOf, List.forall_mem_map]
  constructor
  · intro h
    refine or_iff_not_imp_left.mpr fun hbaseline r hr hfailed => ?_
    have hreason := h r (List.mem_filter.mpr ⟨hr, decide_eq_true (verdictClass_of_failed hfailed _)⟩)
    exact ((failureReason_isSome_iff hr).mp hreason).resolve_left hbaseline
  · intro h r hmem
    obtain ⟨hr, hclass⟩ := List.mem_filter.mp hmem
    rw [failureReason_isSome_iff hr]
    rcases h with hbaseline | hall
    · exact .inl hbaseline
    · rcases failed_or_of_verdictClass (of_decide_eq_true hclass) with hfailed | hpct
      · exact .inr (hall r hr hfailed)
      · exact .inl ((isSome_wallTimePct_iff hr).mp hpct)

/-! ### The report -/

/-- What the report says of a run. -/
def rowOf (U : CharTable) (results : List ChaosRunResult) (r : ChaosRunResult) (m : Metrics)
    (memory : Text) : ProfileRow :=
  ⟨r.profileName, statusLine r (comparisonOf (comparisonsOf results) r.profileName), memory,
    generateFeedback U m r⟩

/-- **When a report is written**, with an entry for each profile. -/
theorem savesReport_iff (U : CharTable) (maxStrDigits : ℕ) (results : List ChaosRunResult) :
    (∃ report, saveRunReport U (parseMetrics U maxStrDigits) results = some report ∧
        report.rows.map ProfileRow.profile
          = (nonBaseline results).map ChaosRunResult.profileName) ↔
      ReportWritable U maxStrDigits results := by
  constructor
  · rintro ⟨report, hreport, -⟩
    obtain ⟨rows, hrows, hreport⟩ := Option.bind_eq_some_iff.mp hreport
    obtain ⟨reasons, hreasons, -⟩ := Option.map_eq_some_iff.mp hreport
    have hall := mapM_isSome_iff.mp (Option.isSome_of_eq_some hrows)
    have hrow := fun r hr => (row_isSome_iff hr (rowOf U results r)).mp (hall r hr)
    exact ⟨fun r hr => (hrow r hr).1, fun r hr => (hrow r hr).2,
      reasons_isSome_iff.mp (Option.isSome_of_eq_some hreasons)⟩
  · rintro ⟨houtputs, hmemory, hfailures⟩
    obtain ⟨reasons, hreasons⟩ := Option.isSome_iff_exists.mp (reasons_isSome_iff.mpr hfailures)
    obtain ⟨rows, hrows⟩ := Option.isSome_iff_exists.mp (mapM_isSome_iff.mpr fun r hr =>
      (row_isSome_iff hr (rowOf U results r)).mpr ⟨houtputs r hr, hmemory r hr⟩)
    refine ⟨⟨rows, _, _, _, reasons⟩, Option.bind_eq_some_iff.mpr ⟨rows, hrows,
      Option.map_eq_some_iff.mpr ⟨reasons, hreasons, rfl⟩⟩, map_eq_of_mapM (fun r row h => ?_) hrows⟩
    obtain ⟨m, -, h⟩ := Option.bind_eq_some_iff.mp h
    obtain ⟨memory, -, rfl⟩ := Option.map_eq_some_iff.mp h
    rfl

end Errors

/-- A program that prints a throughput of nothing but a point. -/
def pointRun : ChaosRunResult :=
  { returncode := 0, stdout := lit "[I/O] throughput: .", profileName := lit "cpu_half",
    wallTimeS := .rat 1 }

/-- **A line that breaks the report**: the point is no number, and there are no metrics. -/
theorem not_savesReport : ¬ ∀ (U : CharTable) (maxStrDigits : ℕ) (results : List ChaosRunResult),
    ∃ report, saveRunReport U (parseMetrics U maxStrDigits) results = some report ∧
      report.rows.map ProfileRow.profile
        = (nonBaseline results).map ChaosRunResult.profileName := by
  intro h
  obtain ⟨report, hreport, -⟩ := h .ascii 4300 [pointRun]
  have hnone : saveRunReport .ascii (parseMetrics .ascii 4300) [pointRun] = none :=
    Option.isNone_iff_eq_none.mp (by decide +kernel)
  rw [hnone] at hreport
  cases hreport

end Chaos

end Csc512
