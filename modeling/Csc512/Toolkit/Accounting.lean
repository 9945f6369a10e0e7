import Csc512.Toolkit.Report
import Mathlib.Algebra.GroupWithZero.Nat

/-!
# Accounting for plugins

The engine keeps a table with the status of every plugin. It is put together from three places: the
plugins that are not for the target are entered before the scan, those that run are entered as
running and updated as they complete, and the two tables are merged at the end.

## Main results

* `perm_entries_runScan` — the table of a run has one entry for each plugin, with its outcome
* `plugin_accounting` — states, counts, errors and numbers of findings
-/

namespace Csc512

namespace Toolkit

/-! ### What the report says of plugins -/

/-- The number of findings of a plugin that was executed. -/
def PluginStatus.findingsCount? : PluginStatus → Option ℕ
  | success findingsCount => some findingsCount
  | _ => none

/-- The error of a plugin that failed. -/
def PluginStatus.error? : PluginStatus → Option Text
  | failed error => some error
  | _ => none

/-- The reason for leaving a plugin out. -/
def PluginStatus.reason? : PluginStatus → Option Text
  | skipped reason => some reason
  | _ => none

/-- The plugins with one state, in the order of the table, with what the report says of each. -/
def pluginsWith {α : Type} (state : PluginStatus → Option α) (report : ScanReport) :
    List (Text × α) :=
  report.pluginExecution.entries.filterMap fun e => (state e.2).map (Prod.mk e.1)

/-- The plugins that were executed, with the numbers of their findings. -/
def executedPlugins : ScanReport → List (Text × ℕ) := pluginsWith PluginStatus.findingsCount?

/-- The plugins that failed, with their errors. -/
def failedPlugins : ScanReport → List (Text × Text) := pluginsWith PluginStatus.error?

/-- The plugins that were left out, with the reasons. -/
def leftOutPlugins : ScanReport → List (Text × Text) := pluginsWith PluginStatus.reason?

/-- What a plugin that runs ends in. -/
def Plugin.executed (p : Plugin) (profile : TargetProfile) : PluginStatus :=
  match p.execute profile with
  | .ok findings => .success findings.length
  | .error e => .failed e

/-- Why a plugin does not run. -/
def Plugin.skipReason (p : Plugin) (profile : TargetProfile) : Text :=
  if profile.mode ∉ p.scanModes then lit "Plugin not applicable for " ++ profile.mode ++ lit " mode"
  else lit "Plugin.can_handle() returned False for target"

/-- What becomes of a plugin. -/
def Plugin.outcome (p : Plugin) (profile : TargetProfile) : PluginStatus :=
  if p.applies profile then p.executed profile else .skipped (p.skipReason profile)

/-- What is said of a plugin that failed. -/
def failureMessage (name error : Text) : Text := lit "Plugin " ++ name ++ lit " failed: " ++ error

/-! ### The tables -/

variable {plugins completed : List Plugin} {profile : TargetProfile}

theorem pluginExecution_complete (report : ScanReport) (p : Plugin) :
    (complete profile report p).pluginExecution
      = report.pluginExecution.upsert p.name fun _ => p.executed profile := by
  unfold complete Plugin.executed
  cases p.execute profile <;> rfl

theorem pluginExecution_foldl_complete (completed : List Plugin) (report : ScanReport) :
    (completed.foldl (complete profile) report).pluginExecution
      = completed.foldl (fun d p => d.upsert p.name fun _ => p.executed profile)
          report.pluginExecution := by
  induction completed generalizing report with
  | nil => rfl
  | cons p completed ih => rw [List.foldl_cons, List.foldl_cons, ih, pluginExecution_complete]

theorem skippedPlugins_eq : skippedPlugins plugins profile
    = (plugins.filter fun p => !p.applies profile).foldl
        (fun d p => d.upsert p.name fun _ => .skipped (p.skipReason profile)) Dict.empty := by
  rw [skippedPlugins, List.foldl_filter]
  congr 1
  funext d p
  by_cases hmode : profile.mode ∈ p.scanModes
  · by_cases happlies : p.applies profile <;> simp [Plugin.skipReason, hmode, happlies]
  · have happlies : p.applies profile = false := by simp [Plugin.applies, hmode]
    simp [Plugin.skipReason, hmode, happlies]

theorem get?_skippedPlugins (hnames : (plugins.map Plugin.name).Nodup) {k : Text}
    {status : PluginStatus} : (skippedPlugins plugins profile).get? k = some status ↔
      ∃ p ∈ plugins, p.applies profile = false ∧ p.name = k ∧
        PluginStatus.skipped (p.skipReason profile) = status := by
  have hnodup := hnames.sublist (List.Sublist.map Plugin.name
    (List.filter_sublist (p := fun p : Plugin => !p.applies profile)))
  rw [skippedPlugins_eq, Dict.get?_foldl_set_iff _ _ hnodup, Dict.get?_empty]
  simp [and_assoc]

theorem get?_executeParallel (hnames : (plugins.map Plugin.name).Nodup)
    (hcompleted : completed.Perm (selectPlugins plugins profile)) {k : Text}
    {status : PluginStatus} :
    (executeParallel (selectPlugins plugins profile) completed profile).pluginExecution.get? k
        = some status ↔
      ∃ p ∈ plugins, p.applies profile ∧ p.name = k ∧ p.executed profile = status := by
  have hselect := hnames.sublist (List.Sublist.map Plugin.name
    (List.filter_sublist (p := fun p : Plugin => p.applies profile)))
  have hnodup := ((hcompleted.map Plugin.name).nodup_iff).mpr hselect
  have hmem : ∀ p, p ∈ completed ↔ p ∈ plugins ∧ p.applies profile = true := by
    intro p
    rw [hcompleted.mem_iff, selectPlugins, List.mem_filter]
  rw [executeParallel, pluginExecution_foldl_complete, Dict.get?_foldl_set_iff _ _ hnodup]
  constructor
  · rintro (⟨p, hp, hname, hstatus⟩ | ⟨hk, hrunning⟩)
    · exact ⟨p, ((hmem p).mp hp).1, ((hmem p).mp hp).2, hname, hstatus⟩
    · -- whatever was entered as running has completed
      rw [Dict.get?_foldl_upsert_const, Dict.get?_empty,
        if_neg fun h => hk ((hcompleted.map Plugin.name).mem_iff.mpr h)] at hrunning
      cases hrunning
  · rintro ⟨p, hp, happlies, hname, hstatus⟩
    exact .inl ⟨p, (hmem p).mpr ⟨hp, happlies⟩, hname, hstatus⟩

/-- **The table of a run**: one entry for each plugin, with its outcome. -/
theorem perm_entries_runScan (hnames : (plugins.map Plugin.name).Nodup)
    (hcompleted : completed.Perm (selectPlugins plugins profile)) :
    (runScan plugins completed profile).pluginExecution.entries.Perm
      (plugins.map fun p => (p.name, p.outcome profile)) := by
  have hfst : (plugins.map fun p => (p.name, p.outcome profile)).map Prod.fst
      = plugins.map Plugin.name := by
    rw [List.map_map]
    rfl
  refine (List.perm_ext_iff_of_nodup (List.Nodup.of_map Prod.fst (Dict.nodup _))
    (List.Nodup.of_map Prod.fst (hfst.symm ▸ hnames))).mpr ?_
  rintro ⟨k, status⟩
  rw [← Dict.get?_eq_some_iff, List.mem_map]
  have hskipped : (skippedPlugins plugins profile).get? k = some status ↔ _ :=
    get?_skippedPlugins hnames
  unfold runScan
  by_cases hnone : selectPlugins plugins profile = []
  · have hall : ∀ p ∈ plugins, p.applies profile = false := by
      intro p hp
      have := List.filter_eq_nil_iff.mp hnone p hp
      simpa using this
    simp only [if_pos hnone, hskipped, Prod.mk.injEq]
    constructor
    · rintro ⟨p, hp, happlies, hname, hstatus⟩
      exact ⟨p, hp, hname, by rwa [Plugin.outcome, happlies]⟩
    · rintro ⟨p, hp, hname, hstatus⟩
      rw [Plugin.outcome, hall p hp] at hstatus
      exact ⟨p, hp, hall p hp, hname, hstatus⟩
  · simp only [if_neg hnone, Dict.get?_foldl_unless_iff _ (Dict.nodup _), Prod.mk.injEq,
      get?_executeParallel hnames hcompleted, ← Dict.get?_eq_some_iff, hskipped]
    constructor
    · rintro (⟨p, hp, happlies, hname, hstatus⟩ | ⟨-, p, hp, happlies, hname, hstatus⟩)
      · exact ⟨p, hp, hname, by rwa [Plugin.outcome, happlies]⟩
      · exact ⟨p, hp, hname, by rwa [Plugin.outcome, happlies]⟩
    · rintro ⟨p, hp, hname, hstatus⟩
      cases happlies : p.applies profile with
      | true =>
        rw [Plugin.outcome, happlies] at hstatus
        exact .inl ⟨p, hp, happlies, hname, hstatus⟩
      | false =>
        rw [Plugin.outcome, happlies] at hstatus
        refine .inr ⟨Option.eq_none_iff_forall_ne_some.mpr fun status' hget => ?_,
          p, hp, happlies, hname, hstatus⟩
        obtain ⟨q, hq, hqapplies, hqname, -⟩ := (get?_executeParallel hnames hcompleted).mp hget
        -- two plugins of one name are one
        obtain rfl := List.inj_on_of_nodup_map hnames hp hq (hname.trans hqname.symm)
        rw [happlies] at hqapplies
        cases hqapplies

/-! ### Counts, errors and findings -/

/-- Only plugins that run have a state that leaving out does not give. -/
theorem filterMap_outcome {α β : Type} (state : PluginStatus → Option α)
    (hstate : ∀ reason, state (.skipped reason) = none) (f : Text → α → β) :
    (plugins.filterMap fun p => (state (p.outcome profile)).map (f p.name))
      = (selectPlugins plugins profile).filterMap fun p =>
          (state (p.executed profile)).map (f p.name) := by
  rw [selectPlugins, List.filterMap_filter]
  refine List.filterMap_congr fun p _ => ?_
  cases happlies : p.applies profile <;> simp [Plugin.outcome, happlies, hstate]

/-- **The plugins with one state**, for a state that leaving out does not give. -/
theorem perm_pluginsWith (hnames : (plugins.map Plugin.name).Nodup)
    (hcompleted : completed.Perm (selectPlugins plugins profile)) {α : Type}
    (state : PluginStatus → Option α) (hstate : ∀ reason, state (.skipped reason) = none) :
    (pluginsWith state (runScan plugins completed profile)).Perm
      (completed.filterMap fun p => (state (p.executed profile)).map (Prod.mk p.name)) := by
  have hperm := (perm_entries_runScan hnames hcompleted).filterMap
    fun e => (state e.2).map (Prod.mk e.1)
  rw [List.filterMap_map] at hperm
  exact (hperm.trans (List.Perm.of_eq (filterMap_outcome state hstate Prod.mk))).trans
    (hcompleted.symm.filterMap _)

theorem length_pluginsWith (entries : List (Text × PluginStatus))
    (h : ∀ e ∈ entries, e.2 ≠ .running) :
    (entries.filterMap fun e => e.2.findingsCount?.map (Prod.mk e.1)).length
      + (entries.filterMap fun e => e.2.error?.map (Prod.mk e.1)).length
      + (entries.filterMap fun e => e.2.reason?.map (Prod.mk e.1)).length = entries.length := by
  induction entries with
  | nil => rfl
  | cons e entries ih =>
    obtain ⟨hrunning, h⟩ := List.forall_mem_cons.mp h
    have ih := ih h
    obtain ⟨name, status⟩ := e
    cases status with
    | running => exact absurd rfl hrunning
    | success _ =>
      rw [List.filterMap_cons_some (by rfl), List.filterMap_cons_none (by rfl),
        List.filterMap_cons_none (by rfl), List.length_cons, List.length_cons]
      omega
    | failed _ =>
      rw [List.filterMap_cons_none (by rfl), List.filterMap_cons_some (by rfl),
        List.filterMap_cons_none (by rfl), List.length_cons, List.length_cons]
      omega
    | skipped _ =>
      rw [List.filterMap_cons_none (by rfl), List.filterMap_cons_none (by rfl),
        List.filterMap_cons_some (by rfl), List.length_cons, List.length_cons]
      omega

theorem errors_complete (report : ScanReport) (p : Plugin) :
    (complete profile report p).errors
      = report.errors ++ ((p.executed profile).error?.map (failureMessage p.name)).toList := by
  unfold complete Plugin.executed
  cases p.execute profile with
  | ok findings => exact (List.append_nil _).symm
  | error e => rfl

theorem errors_foldl_complete (completed : List Plugin) (report : ScanReport) :
    (completed.foldl (complete profile) report).errors = report.errors ++
      completed.filterMap fun p => (p.executed profile).error?.map (failureMessage p.name) := by
  induction completed generalizing report with
  | nil => exact (List.append_nil _).symm
  | cons p completed ih =>
    rw [List.foldl_cons, ih, errors_complete, List.append_assoc]
    cases hmessage : (p.executed profile).error?.map (failureMessage p.name) with
    | none => simp only [List.filterMap_cons, hmessage, Option.toList_none, List.nil_append]
    | some message =>
      simp only [List.filterMap_cons, hmessage, Option.toList_some, List.singleton_append]

theorem sum_findingsCount (completed : List Plugin) :
    (completed.filterMap fun p => (p.executed profile).findingsCount?).sum
      = (handedOver profile completed).length := by
  induction completed with
  | nil => rfl
  | cons p completed ih =>
    rw [handedOver, List.flatMap_cons, List.length_append, ← handedOver, ← ih]
    unfold Plugin.executed
    cases hexecute : p.execute profile with
    | ok findings => simp [hexecute, PluginStatus.findingsCount?, Except.toOption]
    | error e => simp [hexecute, PluginStatus.findingsCount?, Except.toOption]

/-- What a report has to say of the registered plugins, where `found` are the findings before
deduplication. -/
structure Accounts (plugins : List Plugin) (profile : TargetProfile) (found : List Finding)
    (report : ScanReport) : Prop where
  listed : (report.pluginExecution.entries.map Prod.fst).Perm (plugins.map Plugin.name)
  states : ∀ p ∈ plugins, report.pluginExecution.get? p.name = some (p.outcome profile)
  finished : ∀ e ∈ report.pluginExecution.entries, e.2 ≠ .running
  counts : (executedPlugins report).length + (failedPlugins report).length
    + (leftOutPlugins report).length = plugins.length
  errors : report.errors.Perm
    ((if selectPlugins plugins profile = [] then [lit "No applicable plugins found for this target."]
      else []) ++ (failedPlugins report).map fun e => failureMessage e.1 e.2)
  findings : ((executedPlugins report).map Prod.snd).sum = found.length

/-- **Accounting for plugins.** Whatever the plugins do and in whatever order they complete, the
report has each of them once, in one of three states; the counts add up to the number of plugins,
there is one error for each plugin that failed, and the numbers of findings add up. -/
theorem plugin_accounting (hnames : (plugins.map Plugin.name).Nodup)
    (hcompleted : completed.Perm (selectPlugins plugins profile)) :
    Accounts plugins profile
      (executeParallel (selectPlugins plugins profile) completed profile).findings
      (runScan plugins completed profile) := by
  have hentries := perm_entries_runScan hnames hcompleted
  have hfinished : ∀ e ∈ (runScan plugins completed profile).pluginExecution.entries,
      e.2 ≠ .running := by
    intro e he
    obtain ⟨p, -, rfl⟩ := List.mem_map.mp (hentries.mem_iff.mp he)
    show p.outcome profile ≠ _
    unfold Plugin.outcome Plugin.executed
    split
    · cases p.execute profile <;> exact fun h => nomatch h
    · exact fun h => nomatch h
  refine ⟨?_, fun p hp => ?_, hfinished, ?_, ?_, ?_⟩
  · have hfst := hentries.map Prod.fst
    rwa [List.map_map] at hfst
  · exact Dict.get?_eq_some_iff.mpr (hentries.mem_iff.mpr (List.mem_map_of_mem hp))
  · have hlength := length_pluginsWith _ hfinished
    rw [hentries.length_eq, List.length_map] at hlength
    exact hlength
  · have hfailed := (perm_pluginsWith hnames hcompleted PluginStatus.error? fun _ => rfl).map
      fun e => failureMessage e.1 e.2
    rw [List.map_filterMap] at hfailed
    refine List.Perm.trans (List.Perm.of_eq ?_) (hfailed.symm.append_left _)
    unfold runScan
    by_cases hnone : selectPlugins plugins profile = []
    · rw [hnone, List.perm_nil] at hcompleted
      rw [if_pos hnone, if_pos hnone, hcompleted]
      rfl
    · rw [if_neg hnone, if_neg hnone]
      show (executeParallel _ _ _).errors = _
      rw [executeParallel, errors_foldl_complete]
      simp only [Option.map_map]
      rfl
  · have hexecuted := (perm_pluginsWith hnames hcompleted PluginStatus.findingsCount?
      fun _ => rfl).map Prod.snd
    rw [List.map_filterMap] at hexecuted
    rw [findings_executeParallel, ← sum_findingsCount, executedPlugins, hexecuted.sum_nat]
    simp only [Option.map_map]
    congr 1
    refine List.filterMap_congr fun p _ => ?_
    cases (p.executed profile).findingsCount? <;> rfl

/-- A plugin that finds something, one that fails and one that is not for the target. -/
theorem plugin_accounting_sample :
    let found := samplePlugin (lit "a") (lit "source") .low
    let failing : Plugin :=
      { name := lit "b", scanModes := [lit "source"], canHandle := fun _ => .ok true,
        execute := fun _ => .error (lit "timeout") }
    let broken : Plugin :=
      { name := lit "c", scanModes := [lit "source"], canHandle := fun _ => .error (lit "no docker"),
        execute := fun _ => .ok [] }
    Accounts [found, failing, broken] ⟨lit "source", none, none, none, none⟩
      [sampleFinding .low]
      (runScan [found, failing, broken] [failing, found] ⟨lit "source", none, none, none, none⟩) := by
  intro found failing broken
  have hnames : ([found, failing, broken].map Plugin.name).Nodup := by decide
  have hcompleted : [failing, found].Perm (selectPlugins [found, failing, broken]
      ⟨lit "source", none, none, none, none⟩) := List.Perm.swap _ _ _
  exact plugin_accounting hnames hcompleted

end Toolkit

end Csc512
