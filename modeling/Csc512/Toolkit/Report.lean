import Csc512.Lib.Dict
import Csc512.Lib.Text
import Mathlib.Data.List.Sort

/-!
# Scan reports

Plugins run in parallel and hand over their findings in the order in which they complete. A report
keeps one finding for each fingerprint, and a full scan merges the reports of two runs and does so
again. What gates a pipeline are the numbers of findings by severity, the verdict and the exit code.

Abstractly, a report is `OnePerFingerprint` of some findings: for each fingerprint a finding with
the highest severity that comes with it. Fingerprints and severities are determined by that,
whatever the order of the findings was.

## Main results

* `onePerFingerprint_deduplicate` — what is left of some findings
* `OnePerFingerprint.perm` — fingerprints and severities do not depend on the order
* `fullScan_order_independent` — a full scan
-/

namespace Csc512

namespace Toolkit

/-! ### Findings -/

/-- Severities, the lowest one first. -/
inductive NormalizedSeverity where
  | info | low | medium | high | critical
deriving DecidableEq, Repr

namespace NormalizedSeverity

/-- The number of a severity. -/
def value : NormalizedSeverity → ℕ
  | info => 1
  | low => 2
  | medium => 3
  | high => 4
  | critical => 5

theorem value_injective : Function.Injective value := by
  intro a b h
  cases a <;> cases b <;> first | rfl | cases h

instance : LinearOrder NormalizedSeverity := LinearOrder.lift' value value_injective

/-- All severities, the lowest one first. -/
def all : List NormalizedSeverity := [info, low, medium, high, critical]

end NormalizedSeverity

open NormalizedSeverity

/-- What a plugin has found. -/
structure Finding where
  tool : Text
  ruleId : Text
  title : Text
  description : Text
  severity : NormalizedSeverity
  filePath : Option Text
  line : ℕ
  category : Text
  fingerprint : Text
deriving DecidableEq, Repr

/-- How a plugin fared. -/
inductive PluginStatus where
  | running
  | success (findingsCount : ℕ)
  | failed (error : Text)
  | skipped (reason : Text)
deriving DecidableEq, Repr

/-- A report. -/
structure ScanReport where
  findings : List Finding := []
  errors : List Text := []
  pluginExecution : Dict Text PluginStatus := Dict.empty

/-- Keep a finding, unless there is one with its fingerprint that is as severe. -/
def keepWorst (seen : Dict Text Finding) (f : Finding) : Dict Text Finding :=
  match seen.get? f.fingerprint with
  | none => seen.upsert f.fingerprint fun _ => f
  | some existing =>
    if existing.severity < f.severity then seen.upsert f.fingerprint fun _ => f else seen

/-- Keep one finding for each fingerprint. -/
def deduplicate (findings : List Finding) : List Finding :=
  (findings.foldl keepWorst Dict.empty).entries.map Prod.snd

/-- The findings, the most severe ones first. -/
def sortBySeverity (findings : List Finding) : List Finding :=
  findings.insertionSort fun a b => b.severity ≤ a.severity

/-- How many findings there are of each severity. -/
def severityCounts (findings : List Finding) : Dict NormalizedSeverity ℕ :=
  findings.foldl (fun counts f => counts.upsert f.severity fun n => n.getD 0 + 1)
    ⟨NormalizedSeverity.all.map fun s => (s, 0), by decide⟩

/-- The verdict on a report. -/
inductive Verdict where
  | fail | warn | pass
deriving DecidableEq, Repr

/-- The verdict on some findings. -/
def verdict (findings : List Finding) : Verdict :=
  if findings.any fun f => high ≤ f.severity then .fail
  else if findings ≠ [] then .warn
  else .pass

/-- The severity from which on findings fail a run. -/
def failThreshold (failOn : Text) : NormalizedSeverity :=
  (([("critical", critical), ("high", high), ("medium", medium), ("low", low), ("info", info)].map
    fun p : String × NormalizedSeverity => (p.1.toList, p.2)).lookup failOn).getD high

/-- The exit code of a run. -/
def exitCode (failOn : Text) (findings : List Finding) : ℕ :=
  if findings.any fun f => failThreshold failOn ≤ f.severity then 1 else 0

/-! ### One finding for each fingerprint -/

/-- What `kept` holds of `all`: for each fingerprint a finding with the highest severity. -/
structure OnePerFingerprint (all kept : List Finding) : Prop where
  nodup : (kept.map Finding.fingerprint).Nodup
  exists_mem : ∀ f ∈ all, ∃ g ∈ kept, g.fingerprint = f.fingerprint
  worst : ∀ g ∈ kept, g ∈ all ∧ ∀ f ∈ all, f.fingerprint = g.fingerprint → f.severity ≤ g.severity

/-- What the rest of a pipeline can see of a finding. -/
def Finding.key (f : Finding) : Text × NormalizedSeverity := (f.fingerprint, f.severity)

/-- The order of the findings does not matter. -/
theorem OnePerFingerprint.of_perm {all all' kept kept' : List Finding}
    (h : OnePerFingerprint all kept) (hall : all.Perm all') (hkept : kept.Perm kept') :
    OnePerFingerprint all' kept' where
  nodup := (hkept.map _).nodup_iff.mp h.nodup
  exists_mem f hf := by
    obtain ⟨g, hg, heq⟩ := h.exists_mem f (hall.mem_iff.mpr hf)
    exact ⟨g, hkept.mem_iff.mp hg, heq⟩
  worst g hg := by
    obtain ⟨hmem, hle⟩ := h.worst g (hkept.mem_iff.mpr hg)
    exact ⟨hall.mem_iff.mp hmem, fun f hf => hle f (hall.mem_iff.mpr hf)⟩

theorem OnePerFingerprint.nodup_key {all kept : List Finding} (h : OnePerFingerprint all kept) :
    (kept.map Finding.key).Nodup := by
  have hfst : (kept.map Finding.key).map Prod.fst = kept.map Finding.fingerprint := by
    rw [List.map_map]
    rfl
  exact List.Nodup.of_map Prod.fst (hfst ▸ h.nodup)

theorem OnePerFingerprint.mem_key {all kept : List Finding} (h : OnePerFingerprint all kept)
    (fingerprint : Text) (severity : NormalizedSeverity) :
    (fingerprint, severity) ∈ kept.map Finding.key ↔
      (∃ f ∈ all, f.fingerprint = fingerprint ∧ f.severity = severity) ∧
        ∀ f ∈ all, f.fingerprint = fingerprint → f.severity ≤ severity := by
  rw [List.mem_map]
  constructor
  · rintro ⟨g, hg, heq⟩
    obtain ⟨rfl, rfl⟩ := Prod.mk.inj heq
    obtain ⟨hmem, hle⟩ := h.worst g hg
    exact ⟨⟨g, hmem, rfl, rfl⟩, hle⟩
  · rintro ⟨⟨f, hf, rfl, rfl⟩, hle⟩
    obtain ⟨g, hg, heq⟩ := h.exists_mem f hf
    obtain ⟨hmem, hworst⟩ := h.worst g hg
    have hsev : g.severity = f.severity := le_antisymm (hle g hmem heq) (hworst f hf heq.symm)
    exact ⟨g, hg, Prod.ext heq hsev⟩

/-- **Fingerprints and severities** are determined by the findings, whatever their order. -/
theorem OnePerFingerprint.perm {all all' kept kept' : List Finding}
    (h : OnePerFingerprint all kept) (h' : OnePerFingerprint all' kept') (hall : all.Perm all') :
    (kept.map Finding.key).Perm (kept'.map Finding.key) := by
  refine (List.perm_ext_iff_of_nodup h.nodup_key h'.nodup_key).mpr fun ⟨fingerprint, severity⟩ => ?_
  rw [h.mem_key, (h'.of_perm hall.symm (List.Perm.refl _)).mem_key]

/-- Keeping one finding for each fingerprint of what two reports have kept. -/
theorem OnePerFingerprint.append {a a' b b' kept : List Finding} (ha : OnePerFingerprint a a')
    (hb : OnePerFingerprint b b') (h : OnePerFingerprint (a' ++ b') kept) :
    OnePerFingerprint (a ++ b) kept where
  nodup := h.nodup
  exists_mem f hf := by
    rcases List.mem_append.mp hf with hf | hf
    · obtain ⟨g, hg, heq⟩ := ha.exists_mem f hf
      obtain ⟨k, hk, heq'⟩ := h.exists_mem g (List.mem_append_left _ hg)
      exact ⟨k, hk, heq'.trans heq⟩
    · obtain ⟨g, hg, heq⟩ := hb.exists_mem f hf
      obtain ⟨k, hk, heq'⟩ := h.exists_mem g (List.mem_append_right _ hg)
      exact ⟨k, hk, heq'.trans heq⟩
  worst k hk := by
    obtain ⟨hmem, hworst⟩ := h.worst k hk
    constructor
    · rcases List.mem_append.mp hmem with hmem | hmem
      · exact List.mem_append_left _ (ha.worst k hmem).1
      · exact List.mem_append_right _ (hb.worst k hmem).1
    · intro f hf heq
      -- the representative of `f` in its report is at least as severe, and was looked at
      rcases List.mem_append.mp hf with hf | hf
      · obtain ⟨g, hg, hgf⟩ := ha.exists_mem f hf
        have hle := (ha.worst g hg).2 f hf hgf.symm
        exact hle.trans (hworst g (List.mem_append_left _ hg) (hgf.trans heq))
      · obtain ⟨g, hg, hgf⟩ := hb.exists_mem f hf
        have hle := (hb.worst g hg).2 f hf hgf.symm
        exact hle.trans (hworst g (List.mem_append_right _ hg) (hgf.trans heq))

/-! ### Keeping the worst -/

/-- What the dictionary of the findings that were met holds. -/
structure Worst (met : List Finding) (seen : Dict Text Finding) : Prop where
  key : ∀ k g, seen.get? k = some g → g.fingerprint = k
  mem : ∀ k g, seen.get? k = some g → g ∈ met
  le : ∀ f ∈ met, ∃ g, seen.get? f.fingerprint = some g ∧ f.severity ≤ g.severity

theorem Worst.nil : Worst [] Dict.empty where
  key _ _ h := nomatch h
  mem _ _ h := nomatch h
  le _ h := nomatch h

/-- Setting a finding that is as severe as the one that it replaces. -/
theorem Worst.upsert {met : List Finding} {seen : Dict Text Finding} (h : Worst met seen)
    {f : Finding} (hf : ∀ g, seen.get? f.fingerprint = some g → g.severity ≤ f.severity) :
    Worst (met ++ [f]) (seen.upsert f.fingerprint fun _ => f) := by
  have hget : ∀ k g, (seen.upsert f.fingerprint fun _ => f).get? k = some g →
      k = f.fingerprint ∧ g = f ∨ seen.get? k = some g := by
    intro k g hg
    by_cases hk : k = f.fingerprint
    · subst hk
      rw [Dict.get?_upsert_self] at hg
      exact .inl ⟨rfl, (Option.some.inj hg).symm⟩
    · rw [Dict.get?_upsert_of_ne _ _ hk] at hg
      exact .inr hg
  refine ⟨fun k g hg => ?_, fun k g hg => ?_, fun f' hf' => ?_⟩
  · rcases hget k g hg with ⟨rfl, rfl⟩ | hg
    · rfl
    · exact h.key k g hg
  · rcases hget k g hg with ⟨rfl, rfl⟩ | hg
    · exact List.mem_append_right _ (List.mem_singleton_self _)
    · exact List.mem_append_left _ (h.mem k g hg)
  · by_cases hk : f'.fingerprint = f.fingerprint
    · refine ⟨f, by rw [hk, Dict.get?_upsert_self], ?_⟩
      rcases List.mem_append.mp hf' with hmem | hmem
      · obtain ⟨g, hg, hle⟩ := h.le f' hmem
        exact hle.trans (hf g (hk ▸ hg))
      · rw [List.mem_singleton.mp hmem]
    · rw [Dict.get?_upsert_of_ne _ _ hk]
      rcases List.mem_append.mp hf' with hmem | hmem
      · exact h.le f' hmem
      · exact absurd (congrArg _ (List.mem_singleton.mp hmem)) hk

theorem Worst.keepWorst {met : List Finding} {seen : Dict Text Finding} (h : Worst met seen)
    (f : Finding) : Worst (met ++ [f]) (keepWorst seen f) := by
  unfold Toolkit.keepWorst
  cases hget : seen.get? f.fingerprint with
  | none =>
    refine h.upsert fun g hg => ?_
    rw [hget] at hg
    cases hg
  | some existing =>
    show Worst _ (ite _ _ _)
    split
    · rename_i hlt
      refine h.upsert fun g hg => ?_
      rw [hget] at hg
      exact (Option.some.inj hg) ▸ hlt.le
    · rename_i hlt
      refine ⟨h.key, fun k g hg => List.mem_append_left _ (h.mem k g hg), fun f' hf' => ?_⟩
      rcases List.mem_append.mp hf' with hmem | hmem
      · exact h.le f' hmem
      · rw [List.mem_singleton.mp hmem]
        exact ⟨existing, hget, not_lt.mp hlt⟩

theorem worst_foldl (findings met : List Finding) {seen : Dict Text Finding} (h : Worst met seen) :
    Worst (met ++ findings) (findings.foldl keepWorst seen) := by
  induction findings generalizing met seen with
  | nil => simpa using h
  | cons f findings ih =>
    have hstep := ih (met ++ [f]) (h.keepWorst f)
    rwa [List.append_assoc] at hstep

/-- **What is left** of some findings: one for each fingerprint, with its highest severity. -/
theorem onePerFingerprint_deduplicate (findings : List Finding) :
    OnePerFingerprint findings (deduplicate findings) := by
  have hworst : Worst findings _ := worst_foldl findings [] Worst.nil
  unfold deduplicate
  generalize findings.foldl keepWorst Dict.empty = seen at hworst
  have hmem : ∀ g, g ∈ seen.entries.map Prod.snd ↔ seen.get? g.fingerprint = some g := by
    intro g
    rw [List.mem_map, Dict.get?_eq_some_iff]
    constructor
    · rintro ⟨⟨k, g⟩, hg, rfl⟩
      have hkey := hworst.key k g (Dict.get?_eq_some_iff.mpr hg)
      exact hkey ▸ hg
    · exact fun hg => ⟨_, hg, rfl⟩
  refine ⟨?_, fun f hf => ?_, fun g hg => ?_⟩
  · have hkeys : (seen.entries.map Prod.snd).map Finding.fingerprint = seen.entries.map Prod.fst := by
      rw [List.map_map]
      refine List.map_congr_left fun e he => ?_
      exact hworst.key e.1 e.2 (Dict.get?_eq_some_iff.mpr he)
    exact hkeys ▸ seen.nodup
  · obtain ⟨g, hg, -⟩ := hworst.le f hf
    have hkey := hworst.key _ g hg
    exact ⟨g, (hmem g).mpr (hkey.symm ▸ hg), hkey⟩
  · have hget := (hmem g).mp hg
    refine ⟨hworst.mem _ g hget, fun f hf heq => ?_⟩
    obtain ⟨g', hg', hle⟩ := hworst.le f hf
    rw [heq, hget] at hg'
    exact (Option.some.inj hg') ▸ hle

/-! ### What gates a pipeline -/

theorem upsertEntries_counts (count : NormalizedSeverity → ℕ) (s : NormalizedSeverity) :
    Dict.upsertEntries (fun n => n.getD 0 + 1) s (NormalizedSeverity.all.map fun t => (t, count t))
      = NormalizedSeverity.all.map fun t => (t, count t + if t = s then 1 else 0) := by
  cases s <;> rfl

/-- The numbers of findings, in the order of the severities. -/
theorem entries_severityCounts (findings : List Finding) :
    (severityCounts findings).entries = NormalizedSeverity.all.map fun s =>
      (s, (findings.map Finding.severity).count s) := by
  have hfoldl : ∀ (count : NormalizedSeverity → ℕ) (d : Dict NormalizedSeverity ℕ),
      d.entries = NormalizedSeverity.all.map (fun s => (s, count s)) →
      (findings.foldl (fun counts f => counts.upsert f.severity fun n => n.getD 0 + 1) d).entries
        = NormalizedSeverity.all.map fun s =>
          (s, count s + (findings.map Finding.severity).count s) := by
    induction findings with
    | nil => exact fun count d hd => hd
    | cons f findings ih =>
      intro count d hd
      have hstep : (d.upsert f.severity fun n => n.getD 0 + 1).entries
          = NormalizedSeverity.all.map fun t => (t, count t + if t = f.severity then 1 else 0) := by
        rw [← upsertEntries_counts, ← hd]
        rfl
      rw [List.foldl_cons, ih _ _ hstep]
      refine List.map_congr_left fun s _ => ?_
      have hone : (if s = f.severity then 1 else 0) = if f.severity == s then 1 else 0 := by
        by_cases h : f.severity = s
        · simp [h]
        · simp [h, Ne.symm h]
      rw [List.map_cons, List.count_cons, hone, Nat.add_assoc, Nat.add_comm (ite _ _ _)]
  have hcounts := hfoldl (fun _ => 0) ⟨NormalizedSeverity.all.map fun s => (s, 0), by decide⟩ rfl
  simp only [Nat.zero_add] at hcounts
  exact hcounts

/-- **What gates a pipeline** depends on fingerprints and severities only. -/
theorem gates_eq_of_perm {a b : List Finding} (h : (a.map Finding.key).Perm (b.map Finding.key)) :
    severityCounts a = severityCounts b ∧ verdict a = verdict b ∧
      ∀ failOn, exitCode failOn a = exitCode failOn b := by
  have hsev : (a.map Finding.severity).Perm (b.map Finding.severity) := by
    have := h.map Prod.snd
    rwa [List.map_map, List.map_map] at this
  have hany : ∀ p : NormalizedSeverity → Bool,
      (a.any fun f => p f.severity) = b.any fun f => p f.severity := by
    intro p
    have hmap : ∀ l : List Finding, (l.any fun f => p f.severity) = (l.map Finding.severity).any p := by
      intro l
      rw [List.any_map]
      rfl
    rw [hmap, hmap]
    exact hsev.any_eq
  have hnil : a = [] ↔ b = [] := by
    rw [← List.length_eq_zero_iff, ← List.length_eq_zero_iff, ← List.length_map Finding.key,
      h.length_eq, List.length_map]
  refine ⟨?_, ?_, fun failOn => ?_⟩
  · have hentries : (severityCounts a).entries = (severityCounts b).entries := by
      rw [entries_severityCounts, entries_severityCounts]
      exact List.map_congr_left fun s _ => by rw [hsev.count_eq]
    revert hentries
    rcases severityCounts a with ⟨_, _⟩
    rcases severityCounts b with ⟨_, _⟩
    rintro rfl
    rfl
  · unfold verdict
    rw [hany fun s => high ≤ s]
    simp only [ne_eq, hnil]
  · unfold exitCode
    rw [hany fun s => failThreshold failOn ≤ s]

/-! ### Running plugins -/

/-- What is scanned, as far as the engine looks at it. -/
structure TargetProfile where
  mode : Text
  path : Option Text := none
  image : Option Text := none
  pid : Option ℕ := none
  serviceUrl : Option Text := none

/-- A plugin. Looking at a target and scanning it can fail. -/
structure Plugin where
  name : Text
  scanModes : List Text
  canHandle : TargetProfile → Except Text Bool
  execute : TargetProfile → Except Text (List Finding)

/-- Is a plugin for this target? -/
def Plugin.applies (p : Plugin) (profile : TargetProfile) : Bool :=
  profile.mode ∈ p.scanModes && ((p.canHandle profile).toOption.getD false)

/-- The plugins for a target. -/
def selectPlugins (plugins : List Plugin) (profile : TargetProfile) : List Plugin :=
  plugins.filter fun p => p.applies profile

/-- A plugin has completed. -/
def complete (profile : TargetProfile) (report : ScanReport) (p : Plugin) : ScanReport :=
  match p.execute profile with
  | .ok findings =>
    { report with
      findings := report.findings ++ findings
      pluginExecution := report.pluginExecution.upsert p.name fun _ => .success findings.length }
  | .error e =>
    { report with
      errors := report.errors ++ [lit "Plugin " ++ p.name ++ lit " failed: " ++ e]
      pluginExecution := report.pluginExecution.upsert p.name fun _ => .failed e }

/-- Run plugins; they complete in the order of `completed`. -/
def executeParallel (plugins completed : List Plugin) (profile : TargetProfile) : ScanReport :=
  completed.foldl (complete profile)
    { pluginExecution := plugins.foldl (fun d p => d.upsert p.name fun _ => .running) Dict.empty }

/-- The plugins that are not for a target, and why. -/
def skippedPlugins (plugins : List Plugin) (profile : TargetProfile) : Dict Text PluginStatus :=
  plugins.foldl (fun d p =>
    if profile.mode ∉ p.scanModes then
      d.upsert p.name fun _ =>
        .skipped (lit "Plugin not applicable for " ++ profile.mode ++ lit " mode")
    else if p.applies profile = false then
      d.upsert p.name fun _ => .skipped (lit "Plugin.can_handle() returned False for target")
    else d) Dict.empty

/-- Scan a target; the plugins for it complete in the order of `completed`. -/
def runScan (plugins completed : List Plugin) (profile : TargetProfile) : ScanReport :=
  let skipped := skippedPlugins plugins profile
  if selectPlugins plugins profile = [] then
    { errors := [lit "No applicable plugins found for this target."], pluginExecution := skipped }
  else
    let report := executeParallel (selectPlugins plugins profile) completed profile
    { report with
      findings := sortBySeverity (deduplicate report.findings)
      pluginExecution := skipped.entries.foldl (fun d e =>
        if (d.get? e.1).isSome then d else d.upsert e.1 fun _ => e.2) report.pluginExecution }

/-- Merge what is known of the plugins of two runs: what was executed in the first one stays. -/
def mergeExecution (source runtime : Dict Text PluginStatus) : Dict Text PluginStatus :=
  runtime.entries.foldl (fun d e =>
    match d.get? e.1 with
    | none => d.upsert e.1 fun _ => e.2
    | some (.skipped _) => d.upsert e.1 fun _ => e.2
    | some _ => d) source

/-- Merge the reports of two runs. -/
def mergeReports (source runtime : ScanReport) : ScanReport where
  findings := sortBySeverity (deduplicate (source.findings ++ runtime.findings))
  errors := source.errors ++ runtime.errors
  pluginExecution := mergeExecution source.pluginExecution runtime.pluginExecution

/-- Scan the source and then the runtime of a target. -/
def fullScan (plugins sourceOrder runtimeOrder : List Plugin) (source runtime : TargetProfile) :
    ScanReport :=
  mergeReports (runScan plugins sourceOrder source) (runScan plugins runtimeOrder runtime)

/-- What plugins hand over. -/
def handedOver (profile : TargetProfile) (completed : List Plugin) : List Finding :=
  completed.flatMap fun p => ((p.execute profile).toOption.getD [])

theorem findings_executeParallel (plugins completed : List Plugin) (profile : TargetProfile) :
    (executeParallel plugins completed profile).findings = handedOver profile completed := by
  have hfoldl : ∀ report : ScanReport, (completed.foldl (complete profile) report).findings
      = report.findings ++ handedOver profile completed := by
    induction completed with
    | nil => exact fun report => (List.append_nil _).symm
    | cons p completed ih =>
      intro report
      have hstep : (complete profile report p).findings
          = report.findings ++ (p.execute profile).toOption.getD [] := by
        unfold complete
        cases p.execute profile with
        | ok findings => rfl
        | error e => exact (List.append_nil _).symm
      rw [List.foldl_cons, ih, hstep, List.append_assoc]
      rfl
  exact hfoldl _

/-- **One run**: a finding for each fingerprint that the plugins hand over. -/
theorem onePerFingerprint_runScan {plugins completed : List Plugin} {profile : TargetProfile}
    (h : completed.Perm (selectPlugins plugins profile)) :
    OnePerFingerprint (handedOver profile completed) (runScan plugins completed profile).findings := by
  unfold runScan
  by_cases hnil : selectPlugins plugins profile = []
  · rw [hnil, List.perm_nil] at h
    subst h
    simp only [if_pos hnil]
    exact ⟨List.nodup_nil, fun _ hf => absurd hf List.not_mem_nil,
      fun _ hf => absurd hf List.not_mem_nil⟩
  · simp only [if_neg hnil, findings_executeParallel]
    exact (onePerFingerprint_deduplicate _).of_perm (List.Perm.refl _)
      (List.perm_insertionSort _ _).symm

/-- **A full scan**: a finding for each fingerprint that the plugins hand over in either run. -/
theorem onePerFingerprint_mergeReports {a b : List Finding} {source runtime : ScanReport}
    (ha : OnePerFingerprint a source.findings) (hb : OnePerFingerprint b runtime.findings) :
    OnePerFingerprint (a ++ b) (mergeReports source runtime).findings :=
  ha.append hb ((onePerFingerprint_deduplicate _).of_perm (List.Perm.refl _)
    (List.perm_insertionSort _ _).symm)

/-- The two orders are orders in which the plugins of a full scan can complete. -/
structure Completes (plugins sourceOrder runtimeOrder : List Plugin)
    (source runtime : TargetProfile) : Prop where
  source : sourceOrder.Perm (selectPlugins plugins source)
  runtime : runtimeOrder.Perm (selectPlugins plugins runtime)

/-- **Timing does not matter.** Whatever is found, in whatever order the plugins complete, and
however the findings are divided between the two runs: a full scan reports one finding for each
fingerprint, with the highest severity that comes with it; it reports the fingerprints and
severities that are left of all findings together; and any two scans that find the same agree in
what gates a pipeline. -/
theorem fullScan_order_independent {plugins sourceOrder runtimeOrder : List Plugin}
    {source runtime : TargetProfile}
    (h : Completes plugins sourceOrder runtimeOrder source runtime) :
    let found := handedOver source sourceOrder ++ handedOver runtime runtimeOrder
    let report := (fullScan plugins sourceOrder runtimeOrder source runtime).findings
    OnePerFingerprint found report ∧
    (∀ all, all.Perm found → (report.map Finding.key).Perm ((deduplicate all).map Finding.key)) ∧
    (∀ a b, ((deduplicate (deduplicate a ++ deduplicate b)).map Finding.key).Perm
      ((deduplicate (a ++ b)).map Finding.key)) ∧
    ∀ {plugins' sourceOrder' runtimeOrder' : List Plugin} {source' runtime' : TargetProfile},
      Completes plugins' sourceOrder' runtimeOrder' source' runtime' →
      (handedOver source' sourceOrder' ++ handedOver runtime' runtimeOrder').Perm found →
      let report' := (fullScan plugins' sourceOrder' runtimeOrder' source' runtime').findings
      severityCounts report = severityCounts report' ∧ verdict report = verdict report' ∧
        ∀ failOn, exitCode failOn report = exitCode failOn report' := by
  have hfull : ∀ {plugins sourceOrder runtimeOrder : List Plugin} {source runtime : TargetProfile},
      Completes plugins sourceOrder runtimeOrder source runtime →
      OnePerFingerprint (handedOver source sourceOrder ++ handedOver runtime runtimeOrder)
        (fullScan plugins sourceOrder runtimeOrder source runtime).findings := fun h =>
    onePerFingerprint_mergeReports (onePerFingerprint_runScan h.source)
      (onePerFingerprint_runScan h.runtime)
  refine ⟨hfull h, fun all hall => ?_, fun a b => ?_, fun h' hperm => ?_⟩
  · exact (hfull h).perm (onePerFingerprint_deduplicate all) hall.symm
  · have hab := (onePerFingerprint_deduplicate a).append (onePerFingerprint_deduplicate b)
      (onePerFingerprint_deduplicate _)
    exact hab.perm (onePerFingerprint_deduplicate (a ++ b)) (List.Perm.refl _)
  · exact gates_eq_of_perm ((hfull h).perm (hfull h') hperm.symm)

/-- A finding that two plugins agree on but for its severity. -/
def sampleFinding (severity : NormalizedSeverity) : Finding :=
  ⟨lit "tool", lit "rule", lit "title", [], severity, none, 0, [], lit "f00d"⟩

/-- A plugin that finds this. -/
def samplePlugin (name mode : Text) (severity : NormalizedSeverity) : Plugin where
  name := name
  scanModes := [mode]
  canHandle _ := .ok true
  execute _ := .ok [sampleFinding severity]

theorem fullScan_order_independent_sample :
    let source := samplePlugin (lit "s") (lit "source") low
    let runtime := samplePlugin (lit "r") (lit "runtime") critical
    OnePerFingerprint [sampleFinding low, sampleFinding critical]
      (fullScan [source, runtime] [source] [runtime] ⟨lit "source", none, none, none, none⟩
        ⟨lit "runtime", none, none, none, none⟩).findings := by
  intro source runtime
  have h : Completes [source, runtime] [source] [runtime] ⟨lit "source", none, none, none, none⟩
      ⟨lit "runtime", none, none, none, none⟩ := ⟨List.Perm.of_eq rfl, List.Perm.of_eq rfl⟩
  exact (fullScan_order_independent h).1

end Toolkit

end Csc512
