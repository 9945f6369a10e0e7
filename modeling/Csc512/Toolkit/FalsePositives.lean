import Csc512.Toolkit.MemoryForensics
import Csc512.Lib.PatternLanguage
import Mathlib.Data.List.Perm.Basic
import Mathlib.Data.Char
import Mathlib.Data.List.Lex

/-!
# Reduction of false positives

The code scanner treats a few rules as noisy. When a noisy rule has three findings or more, the
ones in paths of internal tooling are replaced by one advisory of the lowest severity. A path counts
as tooling if a pattern is found anywhere in it, so a directory counts whose name only ends in the
name of a tooling directory.

## Main results

* `conserves_reduceFalsePositives` — every finding is kept, or counted in one advisory of its rule
* `isSafePath_iff` — which paths the patterns find
* `sparesApplicationCode_iff` — when application code is spared
-/

namespace Csc512

/-! ### Names in a path -/

/-- A text that ends in a separator is found in a path if a name that is not the last one ends in
it. -/
theorem exists_suffix_dropLast_splitOn {x : Char} {w : Text} (hw : x ∉ w) (s : Text) :
    (∃ name ∈ (s.splitOn x).dropLast, w <:+ name) ↔ w ++ [x] <:+: s := by
  induction h : s.length using Nat.strong_induction_on generalizing s with
  | _ n ih =>
    subst h
    by_cases hx : x ∈ s
    · obtain ⟨front, rest, rfl, hfront⟩ := List.eq_append_cons_of_mem hx
      have hrest := ih rest.length (by simp; omega) rest rfl
      rw [List.splitOn_append_cons_self_of_not_mem hfront,
        List.dropLast_cons_of_ne_nil (List.splitOn_ne_nil x rest)]
      simp only [List.mem_cons, exists_eq_or_imp, hrest]
      constructor
      · rintro (⟨before, rfl⟩ | ⟨before, after, rfl⟩)
        · exact ⟨before, rest, by simp⟩
        · exact ⟨front ++ x :: before, after, by simp⟩
      · rintro ⟨before, after, heq⟩
        simp only [List.append_assoc, List.singleton_append] at heq
        by_cases hbefore : x ∈ before
        · obtain ⟨front', before', rfl, hfront'⟩ := List.eq_append_cons_of_mem hbefore
          rw [List.append_assoc, List.cons_append] at heq
          obtain ⟨-, -, htail⟩ := eq_of_append_cons (p := (· ≠ x))
            (fun c hc => ne_of_mem_of_not_mem hc hfront')
            (fun c hc => ne_of_mem_of_not_mem hc hfront) (by simp) (by simp) heq
          exact Or.inr ⟨before', after, by simp [← htail]⟩
        · rw [← List.append_assoc] at heq
          obtain ⟨hname, -, -⟩ := eq_of_append_cons (p := (· ≠ x))
            (fun c hc => ne_of_mem_of_not_mem hc (List.not_mem_append hbefore hw))
            (fun c hc => ne_of_mem_of_not_mem hc hfront) (by simp) (by simp) heq
          exact Or.inl ⟨before, hname⟩
    · rw [List.splitOn_eq_singleton hx]
      constructor
      · rintro ⟨name, hname, -⟩
        exact absurd hname List.not_mem_nil
      · intro hpart
        exact absurd (hpart.subset (List.mem_append_right _ (List.mem_singleton_self x))) hx

namespace Toolkit

/-! ### The reduction -/

/-- The rules that are noisy. -/
def noisyRules : List Text := [lit "dynamic-urllib-use-detected"]

/-- The number of findings from which on a noisy rule is consolidated. -/
def fpConsolidationThreshold : ℕ := 3

/-- The patterns of paths of internal tooling. -/
def safeUrllibPathPatterns : List Pattern :=
  [.literal (lit "plugins/"),
    .seqs [.literal (lit "test"), .opt (.one 's'), .one '/'],
    .seqs [.literal (lit "util"), .opt (.one 's'), .one '/'],
    .seqs [.literal (lit "tool"), .opt (.one 's'), .one '/'],
    .seqs [.literal (lit "script"), .opt (.one 's'), .one '/'],
    .literal (lit "internal/"),
    .seqs [.literal (lit "health"), .opt (.char fun c => c = '_' || c = '-'),
      .literal (lit "check")]]

/-- The last part of the name of a rule. -/
def ruleShort (ruleId : Text) : Text :=
  if '.' ∈ ruleId then ruleId.rtakeWhile (· ≠ '.') else ruleId

/-- The path of a finding, empty if there is none. -/
def pathOf (f : Finding) : Text := f.filePath.getD []

/-- Does a pattern find the path? -/
def isSafePath (path : Text) : Bool :=
  safeUrllibPathPatterns.any fun pat => (pat.search path).isSome

/-- Split the findings: the ones of noisy rules by rule, and all others. -/
def partitionFindings (findings : List Finding) : Dict Text (List Finding) × List Finding :=
  findings.foldl (fun parts f =>
    if ruleShort f.ruleId ∈ noisyRules then
      (parts.1.upsert (ruleShort f.ruleId) fun bucket => bucket.getD [] ++ [f], parts.2)
    else (parts.1, parts.2 ++ [f])) (Dict.empty, [])

/-- The place of a finding. -/
def locationOf (f : Finding) : Text := f.filePath.getD (lit "None") ++ ':' :: natText f.line

/-- The first five places of some findings, and how many there are more. -/
def locationSummary (hits : List Finding) : Text :=
  let locations := (hits.map locationOf).dedup.insertionSort (· ≤ ·)
  [',', ' '].intercalate (locations.take 5) ++
    if 5 < locations.length then
      lit " (+" ++ natText (locations.length - 5) ++ lit " more)" else []

/-- The advisory that stands for some findings of a rule. -/
def advisory (rule : Text) (hits : List Finding) : Finding :=
  let ruleId := lit "FP-CONSOLIDATED-" ++ rule
  let title := lit "Consolidated: " ++ natText hits.length ++ lit " '" ++ rule ++
    lit "' findings in internal/tool code (likely false positives)"
  let filePath := hits.head?.bind Finding.filePath
  let line := (hits.head?.map Finding.line).getD 0
  { tool := lit "semgrep"
    ruleId
    title
    description := lit "Semgrep rule '" ++ rule ++ lit "' fired " ++ natText hits.length ++
      lit " time(s) in internal tooling paths. These typically flag safe usage of urllib for " ++
      lit "health checks, API calls to localhost, or test fixtures. Locations: " ++
      locationSummary hits
    severity := .info
    filePath
    line
    category := lit "sast"
    fingerprint := computeFingerprint ruleId filePath line title }

/-- What is left of the findings of a noisy rule. -/
def reduceBucket (rule : Text) (bucket : List Finding) : List Finding :=
  if bucket.length < fpConsolidationThreshold then bucket
  else
    let safeHits := bucket.filter fun f => isSafePath (pathOf f)
    let unsafeHits := bucket.filter fun f => ¬ isSafePath (pathOf f)
    unsafeHits ++ if safeHits = [] then [] else [advisory rule safeHits]

/-- Consolidate the findings of noisy rules in tooling paths. -/
def reduceFalsePositives (findings : List Finding) : List Finding :=
  let parts := partitionFindings findings
  parts.1.entries.foldl (fun clean e => clean ++ reduceBucket e.1 e.2) parts.2

/-! ### Paths -/

/-- The names of the tooling directories. -/
def toolingDirectories : List Text :=
  ["plugins", "test", "tests", "util", "utils", "tool", "tools", "script", "scripts",
    "internal"].map String.toList

/-- The names of health checks. -/
def healthChecks : List Text := ["healthcheck", "health_check", "health-check"].map String.toList

/-- The path has a tooling directory, or is about a health check. -/
def IsToolingPath (path : Text) : Prop :=
  (∃ name ∈ path.splitOn '/', name ∈ toolingDirectories) ∨ ∃ w ∈ healthChecks, w <:+: path

/-- The path has a directory whose name ends in that of a tooling directory. -/
def HasToolingSuffix (path : Text) : Prop :=
  ∃ w ∈ toolingDirectories, ∃ name ∈ (path.splitOn '/').dropLast, w <:+ name

instance (path : Text) : Decidable (HasToolingSuffix path) :=
  inferInstanceAs (Decidable (∃ w ∈ toolingDirectories, _))

open Pattern in
theorem reads_literal_iff {w t : Text} : Reads (literal w) t ↔ t = w :=
  ⟨fun h => h.eq_of_literal, fun h => h ▸ reads_literal w⟩

open Pattern in
theorem reads_one_iff {x : Char} {t : Text} : Reads (one x) t ↔ t = [x] := by
  constructor
  · intro h
    cases h with
    | char hc => rw [of_decide_eq_true hc]
  · rintro rfl
    exact .char (decide_eq_true rfl)

open Pattern in
/-- A word, a character that may be missing, and the rest. -/
theorem isSome_search_optional {w w' s : Text} {p : Char → Bool} {q : Pattern}
    (hq : ∀ t, Reads q t ↔ t = w') (hanchorless : q.anchorless = true) :
    ((seqs [literal w, opt (.char p), q]).search s).isSome ↔
      (w ++ w' <:+: s) ∨ ∃ c, p c = true ∧ w ++ c :: w' <:+: s := by
  have hp : (seqs [literal w, opt (.char p), q]).anchorless = true := by
    simp [seqs, opt, anchorless, anchorless_literal, hanchorless]
  have hreads : ∀ t, Reads (seqs [literal w, opt (.char p), q]) t ↔
      t = w ++ w' ∨ ∃ c, p c = true ∧ t = w ++ c :: w' := by
    intro t
    simp only [seqs, opt]
    constructor
    · intro h
      cases h with
      | @seq _ _ s u hs hu =>
        obtain rfl := hs.eq_of_literal
        cases hu with
        | @seq _ _ o v ho hv =>
          cases hv with
          | @seq _ _ v e hv he =>
            obtain rfl := (hq _).mp hv
            cases he
            cases ho with
            | left ho =>
              cases ho with
              | @char _ c hc => exact Or.inr ⟨c, hc, by simp⟩
            | right ho =>
              cases ho
              exact Or.inl (by simp)
    · have hend : Reads (seq q .empty) w' := by
        simpa using Reads.seq ((hq w').mpr rfl) Reads.empty
      rintro (rfl | ⟨c, hc, rfl⟩)
      · exact .seq (reads_literal w) (.seq (s := []) (.right .empty) hend)
      · exact .seq (reads_literal w) (.seq (s := [c]) (.left (.char hc)) hend)
  rw [isSome_search_iff hp]
  simp only [hreads, or_and_right, exists_or, exists_eq_left]
  refine or_congr_right ⟨?_, ?_⟩
  · rintro ⟨t, ⟨c, hc, rfl⟩, hpart⟩
    exact ⟨c, hc, hpart⟩
  · rintro ⟨c, hc, hpart⟩
    exact ⟨_, ⟨c, hc, rfl⟩, hpart⟩

open Pattern in
theorem isSome_search_literal {w s : Text} : ((literal w).search s).isSome ↔ w <:+: s := by
  rw [isSome_search_iff (anchorless_literal w)]
  constructor
  · rintro ⟨t, ht, hpart⟩
    exact ht.eq_of_literal ▸ hpart
  · exact fun h => ⟨w, reads_literal w, h⟩

/-- **Which paths the patterns find**: the ones with a directory whose name ends in that of a
tooling directory, and the ones about health checks. -/
theorem isSafePath_iff (path : Text) :
    isSafePath path ↔ HasToolingSuffix path ∨ ∃ w ∈ healthChecks, w <:+: path := by
  have hdirectories : ∀ w ∈ toolingDirectories, '/' ∉ w := by decide
  have hsuffix : HasToolingSuffix path ↔ ∃ w ∈ toolingDirectories, w ++ ['/'] <:+: path :=
    exists_congr fun w => and_congr_right fun hw =>
      exists_suffix_dropLast_splitOn (hdirectories w hw) path
  have hplural : ∀ w : Text, ((Pattern.seqs [.literal w, .opt (.one 's'), .one '/']).search
      path).isSome ↔ (w ++ ['/'] <:+: path) ∨ w ++ 's' :: ['/'] <:+: path := by
    intro w
    refine (isSome_search_optional (fun t => reads_one_iff) rfl).trans (or_congr_right ?_)
    constructor
    · rintro ⟨c, hc, hpart⟩
      rwa [of_decide_eq_true hc] at hpart
    · exact fun hpart => ⟨'s', rfl, hpart⟩
  have hhealth : ((Pattern.seqs [.literal (lit "health"), .opt (.char fun c => c = '_' || c = '-'),
      .literal (lit "check")]).search path).isSome ↔ ∃ w ∈ healthChecks, w <:+: path := by
    refine (isSome_search_optional (fun t => reads_literal_iff)
      (Pattern.anchorless_literal _)).trans ?_
    constructor
    · rintro (hpart | ⟨c, hc, hpart⟩)
      · exact ⟨lit "healthcheck", by decide, hpart⟩
      · rw [Bool.or_eq_true] at hc
        rcases hc with hc | hc <;> obtain rfl := of_decide_eq_true hc
        · exact ⟨lit "health_check", by decide, hpart⟩
        · exact ⟨lit "health-check", by decide, hpart⟩
    · rintro ⟨w, hw, hpart⟩
      simp only [healthChecks, List.map_cons, List.map_nil, List.mem_cons, List.not_mem_nil,
        or_false] at hw
      rcases hw with rfl | rfl | rfl
      · exact Or.inl hpart
      · exact Or.inr ⟨'_', rfl, hpart⟩
      · exact Or.inr ⟨'-', rfl, hpart⟩
  rw [hsuffix, isSafePath]
  simp only [safeUrllibPathPatterns, List.any_cons, List.any_nil, Bool.or_false, Bool.or_eq_true,
    hplural, hhealth, isSome_search_literal, toolingDirectories, List.map_cons, List.map_nil,
    List.mem_cons, List.not_mem_nil, or_false, exists_eq_or_imp, exists_eq_left]
  simp only [or_assoc]
  rfl

/-! ### Conservation -/

/-- The findings of a noisy rule. -/
def bucketOf (findings : List Finding) (rule : Text) : List Finding :=
  findings.filter fun f => ruleShort f.ruleId = rule

theorem partitionFindings_eq (findings : List Finding) :
    partitionFindings findings =
      (Dict.collect ((findings.filter fun f => ruleShort f.ruleId ∈ noisyRules).map fun f =>
        (ruleShort f.ruleId, f)), findings.filter fun f => ¬ ruleShort f.ruleId ∈ noisyRules) := by
  induction findings using List.reverseRecOn with
  | nil => rfl
  | append_singleton findings f ih =>
    rw [partitionFindings, List.foldl_append, ← partitionFindings, ih, List.foldl_cons,
      List.foldl_nil, List.filter_append, List.filter_append]
    by_cases hnoisy : ruleShort f.ruleId ∈ noisyRules
    · have hin : [f].filter (fun f => ruleShort f.ruleId ∈ noisyRules) = [f] := by simp [hnoisy]
      have hout : [f].filter (fun f => ¬ ruleShort f.ruleId ∈ noisyRules) = [] := by simp [hnoisy]
      rw [if_pos hnoisy, hin, hout, List.append_nil, List.map_append, Dict.collect, Dict.collect,
        List.foldl_append]
      rfl
    · have hin : [f].filter (fun f => ruleShort f.ruleId ∈ noisyRules) = [] := by simp [hnoisy]
      have hout : [f].filter (fun f => ¬ ruleShort f.ruleId ∈ noisyRules) = [f] := by
        simp [hnoisy]
      rw [if_neg hnoisy, hin, hout, List.append_nil]

/-- A bucket holds the findings of its rule, which is noisy. -/
theorem bucket_of_mem_entries {findings : List Finding} {e : Text × List Finding}
    (he : e ∈ (partitionFindings findings).1.entries) :
    e.1 ∈ noisyRules ∧ e.2 = bucketOf findings e.1 := by
  rw [partitionFindings_eq] at he
  have hnoisy : e.1 ∈ noisyRules := by
    have hkey := Dict.mem_of_mem_keys_collect (List.mem_map_of_mem he)
    simp only [List.map_map, List.mem_map, List.mem_filter, decide_eq_true_eq] at hkey
    obtain ⟨f, ⟨-, hf⟩, hrule⟩ := hkey
    exact hrule ▸ hf
  refine ⟨hnoisy, ?_⟩
  have hget := Dict.get?_collect ((findings.filter fun f => ruleShort f.ruleId ∈ noisyRules).map
    fun f => (ruleShort f.ruleId, f)) e.1
  rw [Dict.get?_eq_some_iff.mpr he, Option.getD_some] at hget
  rw [hget, List.filter_map, List.map_map, List.filter_filter, bucketOf]
  refine (List.map_id _).trans (List.filter_congr fun f _ => ?_)
  by_cases hf : ruleShort f.ruleId = e.1
  · simp [hf, hnoisy]
  · simp [hf]

/-- The buckets hold all findings of noisy rules. -/
theorem perm_buckets (findings : List Finding) :
    findings.Perm ((partitionFindings findings).2 ++
      (partitionFindings findings).1.entries.flatMap Prod.snd) := by
  rw [partitionFindings_eq]
  have hnoisy := Dict.perm_collect ((findings.filter fun f => ruleShort f.ruleId ∈ noisyRules).map
    fun f => (ruleShort f.ruleId, f))
  rw [List.map_map] at hnoisy
  have hsplit := List.filter_append_perm (fun f => decide (ruleShort f.ruleId ∈ noisyRules))
    findings
  simp only [decide_not]
  refine hsplit.symm.trans (List.perm_append_comm.trans (List.Perm.append_left _ ?_))
  exact ((List.map_id _).symm ▸ hnoisy.symm : _)

/-- The findings of a bucket that are consolidated. -/
def consolidated (bucket : List Finding) : List Finding :=
  if bucket.length < fpConsolidationThreshold then []
  else bucket.filter fun f => isSafePath (pathOf f)

/-- The findings of a bucket that are kept. -/
def keptOf (bucket : List Finding) : List Finding :=
  if bucket.length < fpConsolidationThreshold then bucket
  else bucket.filter fun f => ¬ isSafePath (pathOf f)

theorem reduceBucket_eq (rule : Text) (bucket : List Finding) :
    reduceBucket rule bucket = keptOf bucket ++
      if consolidated bucket = [] then [] else [advisory rule (consolidated bucket)] := by
  unfold reduceBucket keptOf consolidated
  by_cases hlen : bucket.length < fpConsolidationThreshold
  · rw [if_pos hlen, if_pos hlen, if_pos hlen, if_pos rfl, List.append_nil]
  · rw [if_neg hlen, if_neg hlen, if_neg hlen]

theorem perm_keptOf (bucket : List Finding) :
    bucket.Perm (keptOf bucket ++ consolidated bucket) := by
  unfold keptOf consolidated
  by_cases hlen : bucket.length < fpConsolidationThreshold
  · rw [if_pos hlen, if_pos hlen, List.append_nil]
  · rw [if_neg hlen, if_neg hlen]
    have hsplit := List.filter_append_perm (fun f => isSafePath (pathOf f)) bucket
    simp only [Bool.not_eq_true, Bool.decide_eq_false]
    exact hsplit.symm.trans List.perm_append_comm

/-- The findings that are kept. -/
def keptFindings (findings : List Finding) : List Finding :=
  (partitionFindings findings).2 ++
    (partitionFindings findings).1.entries.flatMap fun e => keptOf e.2

/-- The rules with an advisory, with the findings that it stands for. -/
def advisories (findings : List Finding) : List (Text × List Finding) :=
  ((partitionFindings findings).1.entries.map fun e => (e.1, consolidated e.2)).filter
    fun a => a.2 ≠ []

/-- Every finding is kept, or counted in the one advisory of its rule. -/
structure Conserves (findings result kept : List Finding)
    (advised : List (Text × List Finding)) : Prop where
  result : result.Perm (kept ++ advised.map fun a => advisory a.1 a.2)
  counted : findings.Perm (kept ++ advised.flatMap Prod.snd)
  ownRule : ∀ a ∈ advised, a.2 ≠ [] ∧ ∀ f ∈ a.2, ruleShort f.ruleId = a.1
  once : (advised.map Prod.fst).Nodup

/-- **Nothing is lost**: every finding is kept, or counted in the one advisory of its rule. -/
theorem conserves_reduceFalsePositives (findings : List Finding) :
    Conserves findings (reduceFalsePositives findings) (keptFindings findings)
      (advisories findings) where
  result := by
    have hfold : ∀ (entries : List (Text × List Finding)) (clean : List Finding),
        entries.foldl (fun clean e => clean ++ reduceBucket e.1 e.2) clean
          = clean ++ entries.flatMap fun e => reduceBucket e.1 e.2 := by
      intro entries
      induction entries with
      | nil => exact fun clean => (List.append_nil clean).symm
      | cons e entries ih =>
        intro clean
        rw [List.foldl_cons, ih, List.flatMap_cons, List.append_assoc]
    have hadvised : ∀ entries : List (Text × List Finding),
        (entries.flatMap fun e => if consolidated e.2 = [] then [] else
          [advisory e.1 (consolidated e.2)]) =
        (((entries.map fun e => (e.1, consolidated e.2)).filter fun a => a.2 ≠ []).map
          fun a => advisory a.1 a.2) := by
      intro entries
      induction entries with
      | nil => rfl
      | cons e entries ih =>
        rw [List.flatMap_cons, ih, List.map_cons]
        by_cases hnil : consolidated e.2 = []
        · rw [if_pos hnil, List.filter_cons_of_neg (by simpa using hnil), List.nil_append]
        · rw [if_neg hnil, List.filter_cons_of_pos (by simpa using hnil)]
          rfl
    rw [keptFindings, advisories, ← hadvised, List.append_assoc]
    refine (List.Perm.of_eq (hfold _ _)).trans (List.Perm.append_left _ ?_)
    simp only [reduceBucket_eq]
    exact (List.flatMap_append_perm _ _ _).symm
  counted := by
    have hcounted : ∀ entries : List (Text × List Finding),
        (entries.flatMap fun e => consolidated e.2) =
        ((entries.map fun e => (e.1, consolidated e.2)).filter fun a => a.2 ≠ []).flatMap
          Prod.snd := by
      intro entries
      induction entries with
      | nil => rfl
      | cons e entries ih =>
        rw [List.flatMap_cons, ih, List.map_cons]
        by_cases hnil : consolidated e.2 = []
        · rw [List.filter_cons_of_neg (by simpa using hnil), hnil, List.nil_append]
        · rw [List.filter_cons_of_pos (by simpa using hnil), List.flatMap_cons]
    rw [keptFindings, advisories, ← hcounted, List.append_assoc]
    refine (perm_buckets findings).trans (List.Perm.append_left _ ?_)
    exact (List.Perm.flatMap_left _ fun e _ => perm_keptOf e.2).trans
      (List.flatMap_append_perm _ _ _).symm
  ownRule := by
    intro a ha
    obtain ⟨hmem, hne⟩ := List.mem_filter.mp ha
    obtain ⟨e, he, rfl⟩ := List.mem_map.mp hmem
    refine ⟨of_decide_eq_true hne, fun f hf => ?_⟩
    have hf : f ∈ e.2 := (perm_keptOf e.2).mem_iff.mpr (List.mem_append_right _ hf)
    rw [(bucket_of_mem_entries he).2] at hf
    exact of_decide_eq_true (List.mem_filter.mp hf).2
  once := by
    have hkeys : (((partitionFindings findings).1.entries.map fun e =>
        (e.1, consolidated e.2)).map Prod.fst).Nodup := by
      rw [List.map_map]
      exact (partitionFindings findings).1.nodup
    exact hkeys.sublist (List.filter_sublist.map _)

/-! ### Application code -/

/-- Every finding is kept, or counted in the one advisory of its rule, and the findings that are
counted are in paths of tooling. -/
def SparesApplicationCode (findings : List Finding) : Prop :=
  ∃ kept advised, Conserves findings (reduceFalsePositives findings) kept advised ∧
    ∀ a ∈ advised, ∀ f ∈ a.2, IsToolingPath (pathOf f)

/-- A noisy finding in a path that the patterns find is not returned. -/
theorem not_mem_reduceFalsePositives {findings : List Finding} {f : Finding}
    (hnoisy : ruleShort f.ruleId ∈ noisyRules)
    (hlen : fpConsolidationThreshold ≤ (bucketOf findings (ruleShort f.ruleId)).length)
    (hsafe : isSafePath (pathOf f)) : f ∉ reduceFalsePositives findings := by
  intro hmem
  rcases List.mem_append.mp ((conserves_reduceFalsePositives findings).result.mem_iff.mp hmem) with
    hkept | hadvised
  · rcases List.mem_append.mp hkept with hclean | hbucket
    · rw [partitionFindings_eq] at hclean
      exact of_decide_eq_true (List.mem_filter.mp hclean).2 hnoisy
    · obtain ⟨e, he, hf⟩ := List.mem_flatMap.mp hbucket
      obtain ⟨-, hbucket⟩ := bucket_of_mem_entries he
      have hrule : ruleShort f.ruleId = e.1 := by
        have hin : f ∈ e.2 := (perm_keptOf e.2).mem_iff.mpr (List.mem_append_left _ hf)
        rw [hbucket] at hin
        exact of_decide_eq_true (List.mem_filter.mp hin).2
      rw [hrule, ← hbucket] at hlen
      rw [keptOf, if_neg (not_lt.mpr hlen)] at hf
      exact of_decide_eq_true (List.mem_filter.mp hf).2 hsafe
  · -- the rule of an advisory is not noisy
    obtain ⟨a, ha, rfl⟩ := List.mem_map.mp hadvised
    obtain ⟨hmem, -⟩ := List.mem_filter.mp ha
    obtain ⟨e, he, rfl⟩ := List.mem_map.mp hmem
    have hrules : ∀ rule ∈ noisyRules, ruleShort (lit "FP-CONSOLIDATED-" ++ rule) ∉ noisyRules := by
      decide
    exact hrules e.1 (bucket_of_mem_entries he).1 hnoisy

/-- What the detector must not find for application code to be spared. -/
theorem SparesApplicationCode.isToolingPath {findings : List Finding}
    (h : SparesApplicationCode findings) {f : Finding} (hf : f ∈ findings)
    (hnoisy : ruleShort f.ruleId ∈ noisyRules)
    (hlen : fpConsolidationThreshold ≤ (bucketOf findings (ruleShort f.ruleId)).length)
    (hsuffix : HasToolingSuffix (pathOf f)) : IsToolingPath (pathOf f) := by
  obtain ⟨kept, advised, hconserves, hspares⟩ := h
  rcases List.mem_append.mp (hconserves.counted.mem_iff.mp hf) with hkept | hadvised
  · have hresult := hconserves.result.mem_iff.mpr (List.mem_append_left _ hkept)
    exact absurd hresult (not_mem_reduceFalsePositives hnoisy hlen
      ((isSafePath_iff _).mpr (Or.inl hsuffix)))
  · obtain ⟨a, ha, hf⟩ := List.mem_flatMap.mp hadvised
    exact hspares a ha f hf

/-- **Application code is spared** if no noisy rule with enough findings has one in a directory
whose name only ends in that of a tooling directory. -/
theorem sparesApplicationCode_iff (findings : List Finding) : SparesApplicationCode findings ↔
    ∀ f ∈ findings, ruleShort f.ruleId ∈ noisyRules →
      fpConsolidationThreshold ≤ (bucketOf findings (ruleShort f.ruleId)).length →
      HasToolingSuffix (pathOf f) → IsToolingPath (pathOf f) := by
  constructor
  · exact fun h f hf hnoisy hlen hsuffix => h.isToolingPath hf hnoisy hlen hsuffix
  · intro h
    refine ⟨_, _, conserves_reduceFalsePositives findings, fun a ha f hf => ?_⟩
    obtain ⟨hmem, -⟩ := List.mem_filter.mp ha
    obtain ⟨e, he, rfl⟩ := List.mem_map.mp hmem
    obtain ⟨hnoisy, hbucket⟩ := bucket_of_mem_entries he
    have hlen : ¬ e.2.length < fpConsolidationThreshold := by
      intro hlt
      rw [consolidated, if_pos hlt] at hf
      exact absurd hf List.not_mem_nil
    rw [consolidated, if_neg hlen] at hf
    obtain ⟨hin, hsafe⟩ := List.mem_filter.mp hf
    rcases (isSafePath_iff _).mp hsafe with hsuffix | hhealth
    · rw [hbucket] at hin hlen
      obtain ⟨hfinding, hrule⟩ := List.mem_filter.mp hin
      have hrule : ruleShort f.ruleId = e.1 := of_decide_eq_true hrule
      exact h f hfinding (hrule ▸ hnoisy) (hrule ▸ not_lt.mp hlen) hsuffix
    · exact Or.inr hhealth

/-- A finding of the noisy rule in a directory whose name ends in `test`. -/
def contestFinding : Finding :=
  { tool := lit "semgrep", ruleId := lit "dynamic-urllib-use-detected", title := [],
    description := [], severity := .medium, filePath := some (lit "src/contest/a.py"), line := 1,
    category := lit "sast", fingerprint := [] }

/-- Three of them are replaced by an advisory. -/
theorem not_sparesApplicationCode : ¬ ∀ findings, SparesApplicationCode findings := by
  intro h
  have htooling := (h (List.replicate 3 contestFinding)).isToolingPath
    (List.mem_replicate.mpr ⟨by decide, rfl⟩) (by decide) (by decide) (by decide)
  revert htooling
  unfold IsToolingPath
  decide

end Toolkit

end Csc512
