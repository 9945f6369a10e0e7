import Csc512.Chaos.Metrics
import Csc512.Lib.Double
import Csc512.Lib.Text
import Mathlib.Data.List.Nodup

/-!
# Chaos reports

A program runs once without constraints and once under each chaos profile. The report of the runs
classifies every profile in its status line and again in the overall verdict, and gives feedback on
it; a saved report can be analysed later, with a summary that classifies the profiles once more. All
of them compare with the wall time of the baseline, each with bounds of its own.

## Main results

* `statusClass_eq` — the status line and the verdict agree
* `consistent_iff` — when the report and the summary agree, and no slow profile is praised
-/

namespace Csc512

namespace Chaos

/-! ### Results and comparisons -/

/-- The result of a run. -/
structure ChaosRunResult where
  returncode : ℤ
  stdout : Text := []
  stderr : Text := []
  profileName : Text
  oomKilled : Bool := false
  timedOut : Bool := false
  wallTimeS : Double
  peakRssMb : Double := .rat 0
  cpuAvgPct : Double := .rat 0
  pidsPeak : ℕ := 0

/-- Was there a failure? -/
def ChaosRunResult.failed (r : ChaosRunResult) : Bool :=
  r.returncode ≠ 0 || r.oomKilled || r.timedOut

/-- Is this the run without constraints? -/
def ChaosRunResult.isBaseline (r : ChaosRunResult) : Bool := r.profileName = lit "none"

/-- A number rounded to one decimal place. -/
def roundTenths (x : Double) : Double :=
  match x.value? with
  | none => x
  | some q => .roundSigned x.isNeg (mkRat (roundHalfEven (q * 10)) 10)

/-- The change in per cent. -/
def pctChange (baseline chaos : Double) : Option Double :=
  if baseline.truthy then
    some (roundTenths (((chaos.sub baseline).div baseline).mul (.rat 100)))
  else none

/-- A profile against the baseline. -/
structure Comparison where
  profile : Text
  exitCode : ℤ
  oomKilled : Bool
  timedOut : Bool
  wallTimePct : Option Double
  failed : Bool
deriving DecidableEq

/-- Compare a run with the baseline. -/
def compare (baseline r : ChaosRunResult) : Comparison where
  profile := r.profileName
  exitCode := r.returncode
  oomKilled := r.oomKilled
  timedOut := r.timedOut
  wallTimePct := pctChange baseline.wallTimeS r.wallTimeS
  failed := r.failed

/-- The run without constraints. -/
def baseline? (results : List ChaosRunResult) : Option ChaosRunResult :=
  results.find? ChaosRunResult.isBaseline

/-- The runs under constraints. -/
def nonBaseline (results : List ChaosRunResult) : List ChaosRunResult :=
  results.filter fun r => !r.isBaseline

/-- Compare all runs under constraints with the baseline, if there is one. -/
def compareToBaseline (results : List ChaosRunResult) : Option (List Comparison) :=
  (baseline? results).map fun baseline => (nonBaseline results).map (compare baseline)

/-! ### Feedback -/

/-- A number with a fixed number of decimal places. -/
def fixed (places : ℕ) (x : Double) : Text :=
  let sign := if x.isNeg then ['-'] else []
  match x.value? with
  | none => if x = .nan then lit "nan" else sign ++ lit "inf"
  | some q =>
    let n := (roundHalfEven (|q| * 10 ^ places)).toNat
    let digits := natText (n % 10 ^ places)
    sign ++ natText (n / 10 ^ places) ++
      if places = 0 then [] else '.' :: (List.replicate (places - digits.length) '0' ++ digits)

/-- An integer in decimal notation. -/
def intText (n : ℤ) : Text := if n < 0 then '-' :: natText n.natAbs else natText n.natAbs

/-- Words by which an error message is recognised. -/
def errorKeywords : List String :=
  ["error", "failed", "errno", "cannot", "unable", "cleanup", "err", "info", "warning", "shutting",
    "freed", "abort"]

section Feedback

variable (U : CharTable)

/-- How a program failed. -/
def failureMode (r : ChaosRunResult) : List Text :=
  let stderr := U.lower (strip r.stderr)
  if r.oomKilled || r.returncode = 137 then
    [lit "FAIL: Your program was killed because it used more memory than was available "
      ++ lit "under this profile."]
      ++ (if (Double.rat 0).lt r.peakRssMb then
        [lit "  Peak memory usage was " ++ fixed 0 r.peakRssMb ++ lit " MB before the "
          ++ lit "kill."] else [])
      ++ [lit "  This is not a code bug and it means your program's memory requirements "
        ++ lit "exceed the constraint being tested.",
        lit "  To handle this gracefully: check allocation return values, reduce peak "
          ++ lit "memory usage, or free data structures earlier."]
  else if r.returncode = 139 then
    [lit "FAIL: Segmentation fault (SIGSEGV, exit 139).",
      if contains (lit "double free") stderr then lit "  Likely cause: double free."
      else if contains (lit "heap") stderr then lit "  Likely cause: heap corruption."
      else lit "  Likely cause: invalid memory access. Check pointer arithmetic, buffer "
        ++ lit "bounds, or use-after-free."]
  else if r.returncode = 134 then
    [lit "FAIL: Abort (SIGABRT, exit 134).",
      if contains (lit "double free") stderr || contains (lit "corrupted") stderr then
        lit "  Likely cause: glibc detected heap corruption (double free or buffer overflow)."
      else if contains (lit "assert") stderr then lit "  Likely cause: failed assertion."
      else lit "  Likely cause: uncaught exception or explicit abort()."]
  else if r.returncode = 136 then
    [lit "FAIL: Floating point exception (SIGFPE, exit 136).", lit "  Likely cause: "
      ++ lit "division by zero."]
  else if r.timedOut || r.returncode = 124 then
    [lit "FAIL: Your program did not finish within the time limit.",
      lit "  Under reduced CPU this is expected for compute-intensive programs. Your "
        ++ lit "program may simply require more CPU than was available.",
      lit "  If this also happens under the 'none' profile, check for infinite loops or deadlocks."]
  else [lit "FAIL: Non-zero exit code " ++ intText r.returncode ++ lit "."]

/-- Did the program report its error? -/
def errorReporting (r : ChaosRunResult) : List Text :=
  if r.oomKilled || r.returncode = 137 then
    [lit "  NOTE: The program was killed by the OS and had no opportunity to write "
      ++ lit "error output or run cleanup code."]
  else if r.returncode = 139 then
    [lit "  NOTE: This signal cannot be caught or handled by the program."]
  else if strip r.stderr ≠ [] then
    [lit "  GOOD: Program wrote a meaningful error to stderr before exiting."]
  else
    [lit "  WARN: No error output on stderr before exit.",
      lit "  Expected: write to stderr before calling exit(), e.g. std::cerr or "
        ++ lit "fprintf(stderr, ...)."]
      ++ if strip r.stdout ≠ [] &&
          errorKeywords.any fun w => contains (lit w) (U.lower (strip r.stdout)) then
        [lit "  NOTE: Error message found in stdout use stderr for error reporting."] else []

/-- Did the program have a chance to free its memory? -/
def leakCheck (r : ChaosRunResult) : List Text :=
  if r.returncode ∉ [137, 139, 134, 136] && !r.oomKilled && (Double.rat 0).lt r.peakRssMb then
    [lit "  WARN: Program used up to " ++ fixed 1 r.peakRssMb ++ lit " MB RSS and exited with code "
      ++ intText r.returncode ++ lit ", verify all allocations are freed on every exit path."]
      ++ if (Double.rat 0).lt r.wallTimeS && r.wallTimeS.lt (.rat 30) then
        [lit "  WARN: Early exit after " ++ fixed 1 r.wallTimeS ++ lit "s with "
          ++ fixed 1 r.peakRssMb ++ lit " MB peak error path may skip cleanup."] else []
  else []

/-- Analyse a failure. -/
def analyzeFailure (r : ChaosRunResult) : List Text :=
  if r.returncode = 0 then [] else failureMode U r ++ errorReporting U r ++ leakCheck r

/-- `message`, if the condition holds. -/
def remark (condition : Bool) (message : Text) : List Text := if condition then [message] else []

/-- Did the throughput drop? -/
def Metrics.dropped (m : Metrics) : Bool :=
  m.cpuMin.lt ((Double.rat (1 / 2)).mul m.cpuAvg) && (Double.rat 0).lt m.cpuAvg

/-- Was there little use of the processor under a profile for it? -/
def ChaosRunResult.idle (r : ChaosRunResult) : Bool :=
  (Double.rat 0).lt r.cpuAvgPct && r.cpuAvgPct.lt (.rat 20) && contains (lit "cpu") r.profileName

/-- Did a buffer grow? -/
def Metrics.grown (m : Metrics) : Bool :=
  20 < m.historySizes.length && !m.flushDetected &&
    m.historySizes.headD 0 * 2 < m.historySizes.getLastD 0

/-- The feedback on a run, but for the praise. -/
def remarks (m : Metrics) (r : ChaosRunResult) : List Text :=
  remark (strip r.stderr ≠ [] && r.returncode = 0)
      (lit "GOOD: Program wrote diagnostic output to stderr during normal operation")
    ++ remark r.oomKilled (lit "FAIL: Your program ran out of memory and was killed.")
    ++ remark r.oomKilled (lit "FAIL: Your program ran out of memory and was killed.")
    ++ remark r.timedOut (lit "FAIL: Your program exceeded the time limit under '"
      ++ r.profileName ++ lit "' constraints.")
    ++ remark m.dropped (lit "WARN: CPU throughput dropped more than 50%. Your program "
      ++ lit "is sensitive to CPU constraints.")
    ++ remark r.idle (lit "WARN: CPU usage was only " ++ fixed 1 r.cpuAvgPct ++ lit "% under '"
      ++ r.profileName ++ lit "'")
    ++ remark m.flushDetected (lit "WARN: Data structure was flushed but memory kept "
      ++ lit "growing flush may not be freeing heap objects. If using vector<T*>, "
        ++ lit "delete each element before clear().")
    ++ remark m.grown (lit "WARN: Internal buffer grew from " ++ natText (m.historySizes.headD 0)
      ++ lit " to " ++ natText (m.historySizes.getLastD 0)
      ++ lit " entries. Check that old entries are released.")
    ++ remark (20 < r.pidsPeak) (lit "WARN: Peak thread/process count was " ++ natText r.pidsPeak
      ++ lit ". Ensure all threads are joined before exit.")
    ++ if analyzeFailure U r ≠ [] then lit "\nFailure Analysis:" :: analyzeFailure U r else []

/-- The praise. -/
def success : Text := lit "SUCCESS: Your program handled these conditions well."

/-- The feedback on a run. -/
def generateFeedback (m : Metrics) (r : ChaosRunResult) : List Text :=
  if remarks U m r = [] then [success] else remarks U m r

end Feedback

/-! ### The report -/

/-- The classes of profiles. -/
inductive ProfileClass where
  | pass | warn | fail
deriving DecidableEq, Repr

/-- Is there a change that counts and exceeds a bound? -/
def slowerThan (pct : Option Double) (bound : ℚ) : Bool :=
  match pct with
  | none => false
  | some x => x.truthy && (Double.rat bound).lt x

/-- A change, or no change if there is none to speak of. -/
def orZero (pct : Option Double) : Double :=
  match pct with
  | none => .rat 0
  | some x => if x.truthy then x else .rat 0

/-- The status line of a profile. -/
def statusLine (r : ChaosRunResult) (cmp : Option Comparison) : Text :=
  let pct := cmp.bind Comparison.wallTimePct
  if r.oomKilled then lit "FAIL: out of memory (" ++ fixed 0 r.peakRssMb ++ lit " MB used)"
  else if r.timedOut then lit "FAIL: timed out"
  else if r.returncode ≠ 0 then lit "FAIL: exit code " ++ intText r.returncode
  else if slowerThan pct 200 then lit "FAIL: too slow"
  else if slowerThan pct 30 then lit "WARN"
  else lit "PASS"

/-- The class that a status line shows. -/
def classOfStatus (status : Text) : Option ProfileClass :=
  if startsWith status (lit "FAIL") then some .fail
  else if startsWith status (lit "WARN") then some .warn
  else if startsWith status (lit "PASS") then some .pass
  else none

/-- The class of a profile in the overall verdict. -/
def verdictClass (r : ChaosRunResult) (cmp : Option Comparison) : ProfileClass :=
  let wt := orZero (cmp.bind Comparison.wallTimePct)
  if r.oomKilled || r.timedOut || r.returncode ≠ 0 || (Double.rat 200).lt wt then .fail
  else if (Double.rat 30).lt wt then .warn
  else .pass

/-- What the report says of a profile. -/
structure ProfileRow where
  profile : Text
  status : Text
  memory : Text
  feedback : List Text

/-- The report of some runs. -/
structure RunReport where
  rows : List ProfileRow
  failures : List Text
  warnings : List Text
  passing : List Text
  reasons : List Text

/-- The profiles of one class in the verdict. -/
def RunReport.named (report : RunReport) : ProfileClass → List Text
  | .fail => report.failures
  | .warn => report.warnings
  | .pass => report.passing

/-- The last comparison of a profile. -/
def comparisonOf (comparisons : List Comparison) (profile : Text) : Option Comparison :=
  comparisons.reverse.find? fun c => c.profile = profile

/-- The metrics of a profile are those of its last run. -/
def metricsOf (parseMetrics : Text → Option Metrics) (results : List ChaosRunResult)
    (profile : Text) : Option Metrics :=
  (results.reverse.find? fun r => r.profileName = profile).bind fun r => parseMetrics r.stdout

/-- The memory in megabytes, where the program's own figure is shown if there is no measurement. It
is formatted as a float, so it must not be too large for one. -/
def memoryText (r : ChaosRunResult) (m : Metrics) : Option Text :=
  if (Double.rat 0).lt r.peakRssMb then some (fixed 1 r.peakRssMb)
  else (floatOfInt m.memPeak).map (fixed 1)

/-- Why a profile is among the failures, from the first run of the profile. The change in wall time
is formatted whether there is one or not. -/
def failureReason (results : List ChaosRunResult) (comparisons : List Comparison)
    (profile : Text) : Option Text :=
  (results.find? fun r => r.profileName = profile).bind fun r =>
    if r.oomKilled then some (lit "ran out of memory")
    else if r.timedOut then some (lit "exceeded time limit")
    else if r.returncode ≠ 0 then some (lit "crashed (exit " ++ intText r.returncode ++ lit ")")
    else ((comparisonOf comparisons profile).bind Comparison.wallTimePct).map fun pct =>
      lit "ran " ++ fixed 0 pct ++ lit "% slower than baseline"

/-- The report of some runs, where `parseMetrics` reads what a program says about itself. Without
metrics there is no feedback and no report. -/
def saveRunReport (U : CharTable) (parseMetrics : Text → Option Metrics)
    (results : List ChaosRunResult) : Option RunReport :=
  let comparisons := (compareToBaseline results).getD []
  let row (r : ChaosRunResult) : Option ProfileRow :=
    (metricsOf parseMetrics results r.profileName).bind fun m => (memoryText r m).map fun memory =>
      ⟨r.profileName, statusLine r (comparisonOf comparisons r.profileName), memory,
        generateFeedback U m r⟩
  let named (k : ProfileClass) := ((nonBaseline results).filter fun r =>
    verdictClass r (comparisonOf comparisons r.profileName) = k).map ChaosRunResult.profileName
  ((nonBaseline results).mapM row).bind fun rows =>
    ((named .fail).mapM (failureReason results comparisons)).map fun reasons =>
      ⟨rows, named .fail, named .warn, named .pass, reasons⟩

/-- The summary of an analysis. -/
structure Summary where
  failures : List Comparison
  warnings : List Comparison
  passing : List Comparison

/-- The profiles of one class in the summary. -/
def Summary.named (summary : Summary) : ProfileClass → List Text
  | .fail => summary.failures.map Comparison.profile
  | .warn => summary.warnings.map Comparison.profile
  | .pass => summary.passing.map Comparison.profile

/-- `x ≤ bound`. -/
def atMost (x : Double) (bound : ℚ) : Bool := x.lt (.rat bound) || x.eq (.rat bound)

/-- The summary of some comparisons. -/
def printSummary (comparisons : List Comparison) : Summary :=
  let failures := comparisons.filter fun c => c.failed || (Double.rat 200).lt (orZero c.wallTimePct)
  let warnings := comparisons.filter fun c => !c.failed && (Double.rat 20).lt (orZero c.wallTimePct)
    && atMost (orZero c.wallTimePct) 200
  ⟨failures, warnings, comparisons.filter fun c => c ∉ failures && c ∉ warnings⟩

/-! ### Classes -/

/-- The class of a profile, where warnings start at `bound`. -/
def classAt (bound : ℚ) (failed : Bool) (pct : Option Double) : ProfileClass :=
  if failed || (Double.rat 200).lt (orZero pct) then .fail
  else if (Double.rat bound).lt (orZero pct) then .warn
  else .pass

theorem slowerThan_eq (pct : Option Double) {bound : ℚ} (hbound : 0 ≤ bound) :
    slowerThan pct bound = (Double.rat bound).lt (orZero pct) := by
  have hzero : (Double.rat bound).lt (.rat 0) = false := by
    show decide (bound < 0) = false
    exact decide_eq_false (not_lt.mpr hbound)
  cases pct with
  | none => exact hzero.symm
  | some x =>
    by_cases hx : x.truthy
    · simp [slowerThan, orZero, hx]
    · simp [slowerThan, orZero, hx, hzero]

theorem verdictClass_eq (r : ChaosRunResult) (cmp : Option Comparison) :
    verdictClass r cmp = classAt 30 r.failed (cmp.bind Comparison.wallTimePct) := by
  have hfailed : (r.oomKilled || r.timedOut || decide (r.returncode ≠ 0)) = r.failed := by
    unfold ChaosRunResult.failed
    cases r.oomKilled <;> cases r.timedOut <;> cases decide (r.returncode ≠ 0) <;> rfl
  unfold verdictClass classAt
  rw [hfailed]

theorem startsWith_append (pat s : Text) : startsWith (pat ++ s) pat = true := by
  rw [startsWith, text_self]
  exact List.isPrefixOf_iff_prefix.mpr (List.prefix_append pat s)

/-- **The status line and the verdict agree.** -/
theorem statusClass_eq (r : ChaosRunResult) (cmp : Option Comparison) :
    classOfStatus (statusLine r cmp) = some (verdictClass r cmp) := by
  have hfail : ∀ s, classOfStatus (lit "FAIL" ++ s) = some .fail := by
    intro s
    rw [classOfStatus, if_pos (startsWith_append _ s)]
  unfold statusLine verdictClass
  dsimp only
  rw [slowerThan_eq _ (by norm_num), slowerThan_eq _ (by norm_num)]
  by_cases hoom : r.oomKilled
  · simp only [hoom, if_true, Bool.true_or]
    exact hfail (lit ": out of memory (" ++ fixed 0 r.peakRssMb ++ lit " MB used)")
  by_cases htime : r.timedOut
  · simp only [hoom, htime, if_true, Bool.true_or, Bool.or_true]
    exact hfail (lit ": timed out")
  by_cases hcode : r.returncode = 0
  · by_cases hslow : (Double.rat 200).lt (orZero (cmp.bind Comparison.wallTimePct))
    · simp only [hoom, htime, hcode, hslow, if_true, Bool.or_true]
      exact hfail (lit ": too slow")
    by_cases hwarn : (Double.rat 30).lt (orZero (cmp.bind Comparison.wallTimePct))
    · have hclass : classOfStatus (lit "WARN") = some .warn := by decide
      simpa [hoom, htime, hcode, hslow, hwarn] using hclass
    · have hclass : classOfStatus (lit "PASS") = some .pass := by decide
      simpa [hoom, htime, hcode, hslow, hwarn] using hclass
  · have hclass : classOfStatus (lit "FAIL: exit code " ++ intText r.returncode) = some .fail :=
      hfail (lit ": exit code " ++ intText r.returncode)
    simpa [hoom, htime, hcode] using hclass

theorem atMost_eq {x : Double} {a : ℚ} (bound : ℚ) (hx : (Double.rat a).lt x) :
    atMost x bound = !(Double.rat bound).lt x := by
  have hrat : ∀ q : ℚ, (decide (q < bound) || (true && decide (some q = some bound)))
      = !decide (bound < q) := by
    intro q
    rcases lt_trichotomy q bound with h | rfl | h
    · simp [h, h.le]
    · simp
    · simp [h, h.le, h.ne']
  cases x with
  | nan => cases hx
  | inf neg => cases neg <;> rfl
  | negZero => exact hrat 0
  | rat q => exact hrat q

/-- The summary by classes. -/
theorem named_printSummary (comparisons : List Comparison) (k : ProfileClass) :
    (printSummary comparisons).named k
      = (comparisons.filter fun c => classAt 20 c.failed c.wallTimePct = k).map
          Comparison.profile := by
  have hfail : ∀ c : Comparison, (c.failed || (Double.rat 200).lt (orZero c.wallTimePct))
      = decide (classAt 20 c.failed c.wallTimePct = .fail) := by
    intro c
    unfold classAt
    by_cases h : c.failed || (Double.rat 200).lt (orZero c.wallTimePct)
    · simp [h]
    · rw [if_neg h]
      by_cases h' : (Double.rat 20).lt (orZero c.wallTimePct) <;> simp [h, h']
  have hwarn : ∀ c : Comparison, (!c.failed && (Double.rat 20).lt (orZero c.wallTimePct)
      && atMost (orZero c.wallTimePct) 200)
      = decide (classAt 20 c.failed c.wallTimePct = .warn) := by
    intro c
    unfold classAt
    by_cases h' : (Double.rat 20).lt (orZero c.wallTimePct)
    · rw [atMost_eq 200 h']
      by_cases hfailed : c.failed <;>
        by_cases hslow : (Double.rat 200).lt (orZero c.wallTimePct) <;> simp [h', hfailed, hslow]
    · by_cases h : c.failed || (Double.rat 200).lt (orZero c.wallTimePct) <;> simp [h, h']
  cases k with
  | fail => exact congrArg _ (List.filter_congr fun c _ => hfail c)
  | warn => exact congrArg _ (List.filter_congr fun c _ => hwarn c)
  | pass =>
    refine congrArg _ (List.filter_congr fun c hc => ?_)
    simp only [List.mem_filter, hc, true_and, hfail, hwarn, decide_eq_true_eq]
    cases classAt 20 c.failed c.wallTimePct <;> rfl

/-! ### Feedback and remarks -/

/-- Is there anything to remark on a run, but for its failure? -/
def Remarked (m : Metrics) (r : ChaosRunResult) : Prop :=
  strip r.stderr ≠ [] ∨ m.dropped ∨ r.idle ∨ m.flushDetected ∨ m.grown ∨ 20 < r.pidsPeak

theorem remark_eq_nil {condition : Bool} {message : Text} :
    remark condition message = [] ↔ condition = false := by
  cases condition <;> simp [remark]

/-- A run without remarks has not failed. -/
theorem remarks_eq_nil_iff (U : CharTable) (m : Metrics) (r : ChaosRunResult) :
    remarks U m r = [] ↔ r.failed = false ∧ ¬ Remarked m r := by
  have hanalysis : analyzeFailure U r = [] ↔ r.returncode = 0 := by
    unfold analyzeFailure
    by_cases hcode : r.returncode = 0
    · simp [hcode]
    · rw [if_neg hcode]
      refine iff_of_false (fun hnil => ?_) hcode
      have hmode := (List.append_eq_nil_iff.mp (List.append_eq_nil_iff.mp hnil).1).1
      unfold failureMode at hmode
      split_ifs at hmode <;> cases hmode
  unfold remarks Remarked ChaosRunResult.failed
  simp only [List.append_eq_nil_iff, remark_eq_nil, ite_eq_right_iff, reduceCtorEq, imp_false,
    not_not, hanalysis, and_assoc]
  by_cases hcode : r.returncode = 0
  · simp [hcode]
    tauto
  · simp [hcode]

theorem forall_mem_remark {P : Text → Prop} {condition : Bool} {message : Text} (h : P message) :
    ∀ t ∈ remark condition message, P t := by
  intro t ht
  unfold remark at ht
  split at ht
  · exact List.mem_singleton.mp ht ▸ h
  · cases ht

theorem head_append {s : Text} (t : Text) (h : s ≠ [] ∧ s.head? ≠ some 'S') :
    (s ++ t).head? ≠ some 'S' := by
  rw [List.head?_append_of_ne_nil _ h.1]
  exact h.2

/-- No line on a failure looks like praise. -/
theorem head_of_mem_analyzeFailure (U : CharTable) (r : ChaosRunResult) :
    ∀ t ∈ analyzeFailure U r, t.head? ≠ some 'S' := by
  unfold analyzeFailure
  split
  · exact fun t ht => absurd ht List.not_mem_nil
  rw [List.forall_mem_append, List.forall_mem_append]
  refine ⟨⟨?_, ?_⟩, ?_⟩
  · unfold failureMode
    dsimp only
    split_ifs <;> simp only [List.forall_mem_append, List.forall_mem_cons, List.not_mem_nil,
      false_imp_iff, implies_true, and_true, List.append_assoc] <;>
      repeat' apply And.intro
    all_goals first | decide +kernel | exact head_append _ (by decide +kernel)
  · unfold errorReporting
    split_ifs <;> simp only [List.forall_mem_append, List.forall_mem_cons, List.not_mem_nil,
      false_imp_iff, implies_true, and_true] <;>
      repeat' apply And.intro
    all_goals decide +kernel
  · unfold leakCheck
    split_ifs <;> simp only [List.forall_mem_append, List.forall_mem_cons, List.not_mem_nil,
      false_imp_iff, implies_true, and_true, List.append_assoc] <;>
      repeat' apply And.intro
    all_goals first | decide +kernel | exact head_append _ (by decide +kernel)

/-- No remark looks like praise. -/
theorem head_of_mem_remarks (U : CharTable) (m : Metrics) (r : ChaosRunResult) :
    ∀ t ∈ remarks U m r, t.head? ≠ some 'S' := by
  unfold remarks
  simp only [List.forall_mem_append]
  refine ⟨⟨⟨⟨⟨⟨⟨⟨⟨?_, ?_⟩, ?_⟩, ?_⟩, ?_⟩, ?_⟩, ?_⟩, ?_⟩, ?_⟩, ?_⟩
  case refine_10 =>
    split
    · rw [List.forall_mem_cons]
      exact ⟨by decide +kernel, head_of_mem_analyzeFailure U r⟩
    · exact fun t ht => absurd ht List.not_mem_nil
  all_goals
    try simp only [List.append_assoc]
    first
    | exact forall_mem_remark (by decide +kernel)
    | exact forall_mem_remark (head_append _ (by decide +kernel))

/-- **Praise** is for runs without failures and remarks. -/
theorem success_mem_generateFeedback_iff (U : CharTable) (m : Metrics) (r : ChaosRunResult) :
    success ∈ generateFeedback U m r ↔ r.failed = false ∧ ¬ Remarked m r := by
  rw [← remarks_eq_nil_iff U, generateFeedback]
  split
  · rename_i hnil
    exact iff_of_true (List.mem_singleton_self _) hnil
  · rename_i hne
    exact iff_of_false (fun hmem => head_of_mem_remarks U m r success hmem rfl) hne

/-! ### When report and summary agree -/

theorem mapM_eq_some {α β : Type} {f : α → Option β} {l : List α} {l' : List β}
    (h : l.mapM f = some l') :
    (∀ b ∈ l', ∃ a ∈ l, f a = some b) ∧ ∀ a ∈ l, ∃ b ∈ l', f a = some b := by
  induction l generalizing l' with
  | nil =>
    rw [List.mapM_nil] at h
    cases h
    exact ⟨fun b hb => absurd hb List.not_mem_nil, fun a ha => absurd ha List.not_mem_nil⟩
  | cons a l ih =>
    rw [List.mapM_cons] at h
    obtain ⟨b, hb, h⟩ := Option.bind_eq_some_iff.mp h
    obtain ⟨bs, hbs, h⟩ := Option.bind_eq_some_iff.mp h
    cases h
    obtain ⟨hrows, hall⟩ := ih hbs
    constructor
    · intro b' hb'
      rcases List.mem_cons.mp hb' with rfl | hb'
      · exact ⟨a, List.mem_cons_self, hb⟩
      · obtain ⟨a', ha', heq⟩ := hrows b' hb'
        exact ⟨a', List.mem_cons_of_mem _ ha', heq⟩
    · intro a' ha'
      rcases List.mem_cons.mp ha' with rfl | ha'
      · exact ⟨b, List.mem_cons_self, hb⟩
      · obtain ⟨b', hb', heq⟩ := hall a' ha'
        exact ⟨b', List.mem_cons_of_mem _ hb', heq⟩

/-- A report and a summary of the same runs do not contradict each other: they have the same
profiles in each class, the status line of a profile shows its class, and only profiles that pass
are praised. -/
structure Consistent (report : RunReport) (summary : Summary) : Prop where
  summary : ∀ k, report.named k = summary.named k
  status : ∀ row ∈ report.rows, ∀ k, row.profile ∈ report.named k ↔ classOfStatus row.status = some k
  praise : ∀ row ∈ report.rows, success ∈ row.feedback → classOfStatus row.status = some .pass

section Agreement

variable {results : List ChaosRunResult} {baseline : ChaosRunResult}

/-- The class of a run, where warnings start at `bound`. -/
def runClass (baseline : ChaosRunResult) (bound : ℚ) (r : ChaosRunResult) : ProfileClass :=
  classAt bound r.failed (pctChange baseline.wallTimeS r.wallTimeS)

theorem compareToBaseline_eq (hbaseline : baseline? results = some baseline) :
    compareToBaseline results = some ((nonBaseline results).map (compare baseline)) := by
  rw [compareToBaseline, hbaseline, Option.map_some]

theorem eq_of_profileName_eq (hnames : (results.map ChaosRunResult.profileName).Nodup)
    {r r' : ChaosRunResult} (hr : r ∈ nonBaseline results) (hr' : r' ∈ nonBaseline results)
    (h : r.profileName = r'.profileName) : r = r' :=
  List.inj_on_of_nodup_map hnames (List.filter_sublist.mem hr) (List.filter_sublist.mem hr') h

/-- With distinct names, the comparison of a profile is that of its run. -/
theorem comparisonOf_eq (hnames : (results.map ChaosRunResult.profileName).Nodup)
    {r : ChaosRunResult} (hr : r ∈ nonBaseline results) :
    comparisonOf ((nonBaseline results).map (compare baseline)) r.profileName
      = some (compare baseline r) := by
  unfold comparisonOf
  cases hfind : ((nonBaseline results).map (compare baseline)).reverse.find?
      fun c => c.profile = r.profileName with
  | none =>
    have hnone := List.find?_eq_none.mp hfind (compare baseline r)
      (List.mem_reverse.mpr (List.mem_map_of_mem hr))
    exact absurd (decide_eq_true rfl) hnone
  | some c =>
    obtain ⟨r', hr', rfl⟩ := List.mem_map.mp (List.mem_reverse.mp (List.mem_of_find?_eq_some hfind))
    have hname : r'.profileName = r.profileName := by
      show (compare baseline r').profile = r.profileName
      simpa using List.find?_some hfind
    rw [eq_of_profileName_eq hnames hr' hr hname]

variable {U : CharTable} {parseMetrics : Text → Option Metrics} {report : RunReport}

/-- With distinct names, the metrics of a profile are those of its run. -/
theorem metricsOf_eq (hnames : (results.map ChaosRunResult.profileName).Nodup)
    {r : ChaosRunResult} (hr : r ∈ nonBaseline results) :
    metricsOf parseMetrics results r.profileName = parseMetrics r.stdout := by
  have hmem : r ∈ results := List.filter_sublist.mem hr
  unfold metricsOf
  cases hfind : results.reverse.find? fun q => q.profileName = r.profileName with
  | none =>
    have hnone := List.find?_eq_none.mp hfind r (List.mem_reverse.mpr hmem)
    exact absurd (decide_eq_true rfl) hnone
  | some q =>
    have hname : q.profileName = r.profileName := by simpa using List.find?_some hfind
    have hq : q ∈ results := List.mem_reverse.mp (List.mem_of_find?_eq_some hfind)
    rw [List.inj_on_of_nodup_map hnames hq hmem hname]
    rfl

/-- What a row says of a run. -/
def RowFor (U : CharTable) (parseMetrics : Text → Option Metrics) (baseline r : ChaosRunResult)
    (row : ProfileRow) : Prop :=
  row.profile = r.profileName ∧ classOfStatus row.status = some (runClass baseline 30 r) ∧
    ∃ m, parseMetrics r.stdout = some m ∧ row.feedback = generateFeedback U m r

/-- The report in terms of the runs. -/
theorem saveRunReport_eq_some (hnames : (results.map ChaosRunResult.profileName).Nodup)
    (hbaseline : baseline? results = some baseline)
    (hreport : saveRunReport U parseMetrics results = some report) :
    (∀ k, report.named k = ((nonBaseline results).filter fun r => runClass baseline 30 r = k).map
      ChaosRunResult.profileName) ∧
    (∀ row ∈ report.rows, ∃ r ∈ nonBaseline results, RowFor U parseMetrics baseline r row) ∧
    ∀ r ∈ nonBaseline results, ∃ row ∈ report.rows, RowFor U parseMetrics baseline r row := by
  unfold saveRunReport at hreport
  rw [compareToBaseline_eq hbaseline] at hreport
  obtain ⟨rows, hrows, hreport⟩ := Option.bind_eq_some_iff.mp hreport
  obtain ⟨reasons, -, rfl⟩ := Option.map_eq_some_iff.mp hreport
  have hclass : ∀ r ∈ nonBaseline results, verdictClass r
      (comparisonOf ((nonBaseline results).map (compare baseline)) r.profileName)
        = runClass baseline 30 r := by
    intro r hr
    rw [comparisonOf_eq hnames hr, verdictClass_eq]
    rfl
  have hrow : ∀ r ∈ nonBaseline results, ∀ row,
      ((metricsOf parseMetrics results r.profileName).bind fun m => (memoryText r m).map fun memory =>
        (⟨r.profileName, statusLine r
          (comparisonOf ((nonBaseline results).map (compare baseline)) r.profileName), memory,
          generateFeedback U m r⟩ : ProfileRow)) = some row →
        RowFor U parseMetrics baseline r row := by
    intro r hr row hrow
    rw [metricsOf_eq hnames hr] at hrow
    obtain ⟨m, hm, hrow⟩ := Option.bind_eq_some_iff.mp hrow
    obtain ⟨memory, -, rfl⟩ := Option.map_eq_some_iff.mp hrow
    -- the fields are projected first, or `rfl` would compute the feedback
    dsimp only [RowFor]
    rw [← hclass r hr]
    exact ⟨rfl, statusClass_eq _ _, m, hm, rfl⟩
  refine ⟨fun k => ?_, fun row hmem => ?_, fun r hr => ?_⟩
  · have hnamed : ((nonBaseline results).filter fun r => verdictClass r
        (comparisonOf ((nonBaseline results).map (compare baseline)) r.profileName) = k)
          = (nonBaseline results).filter fun r => runClass baseline 30 r = k :=
      List.filter_congr fun r hr => by rw [hclass r hr]
    cases k <;> exact congrArg _ hnamed
  · obtain ⟨r, hr, heq⟩ := (mapM_eq_some hrows).1 row hmem
    exact ⟨r, hr, hrow r hr row heq⟩
  · obtain ⟨row, hmem, heq⟩ := (mapM_eq_some hrows).2 r hr
    exact ⟨row, hmem, hrow r hr row heq⟩

theorem named_printSummary_compare (baseline : ChaosRunResult) (l : List ChaosRunResult)
    (k : ProfileClass) : (printSummary (l.map (compare baseline))).named k
      = (l.filter fun r => runClass baseline 20 r = k).map ChaosRunResult.profileName := by
  rw [named_printSummary, List.filter_map, List.map_map]
  rfl

theorem runClass_of_failed {r : ChaosRunResult} (h : r.failed) (bound : ℚ) :
    runClass baseline bound r = .fail := by
  simp [runClass, classAt, h]

theorem lt_of_le_of_lt {a b : ℚ} (hab : a ≤ b) {x : Double} (h : (Double.rat b).lt x) :
    (Double.rat a).lt x := by
  cases x with
  | nan => cases h
  | inf neg => exact h
  | negZero => exact decide_eq_true (hab.trans_lt (of_decide_eq_true h))
  | rat q => exact decide_eq_true (hab.trans_lt (of_decide_eq_true h))

/-- The change in wall time against the baseline. -/
def slowdown (baseline r : ChaosRunResult) : Double :=
  orZero (pctChange baseline.wallTimeS r.wallTimeS)

/-- The two bounds for warnings give one class. -/
theorem runClass_eq_iff {r : ChaosRunResult} (hfailed : r.failed = false) :
    runClass baseline 30 r = runClass baseline 20 r ↔
      (Double.rat 20).lt (slowdown baseline r) = false ∨ (Double.rat 30).lt (slowdown baseline r) := by
  have hmono := lt_of_le_of_lt (show (20 : ℚ) ≤ 30 by norm_num) (x := slowdown baseline r)
  have hmono' := lt_of_le_of_lt (show (30 : ℚ) ≤ 200 by norm_num) (x := slowdown baseline r)
  unfold runClass classAt
  rw [hfailed, Bool.false_or]
  change (if (Double.rat 200).lt (slowdown baseline r) then _ else if (Double.rat 30).lt
    (slowdown baseline r) then _ else _) = (if (Double.rat 200).lt (slowdown baseline r) then _
      else if (Double.rat 20).lt (slowdown baseline r) then _ else _) ↔ _
  cases h200 : (Double.rat 200).lt (slowdown baseline r) <;>
    cases h30 : (Double.rat 30).lt (slowdown baseline r) <;>
    cases h20 : (Double.rat 20).lt (slowdown baseline r) <;> simp_all

theorem runClass_eq_pass_iff {r : ChaosRunResult} : runClass baseline 30 r = .pass ↔
    r.failed = false ∧ (Double.rat 30).lt (slowdown baseline r) = false := by
  have hmono := lt_of_le_of_lt (show (30 : ℚ) ≤ 200 by norm_num) (x := slowdown baseline r)
  unfold runClass classAt
  change (if r.failed || (Double.rat 200).lt (slowdown baseline r) then _ else if (Double.rat 30).lt
    (slowdown baseline r) then _ else _) = _ ↔ _
  cases r.failed <;> cases h200 : (Double.rat 200).lt (slowdown baseline r) <;>
    cases h30 : (Double.rat 30).lt (slowdown baseline r) <;> simp_all

/-- **Report and summary agree**, and no profile that is slow is praised, exactly if each run has
failed, is at most 20 per cent slower than the baseline, or is more than 30 per cent slower with
something to remark on it. -/
theorem consistent_iff {comparisons : List Comparison}
    (hnames : (results.map ChaosRunResult.profileName).Nodup)
    (hbaseline : baseline? results = some baseline)
    (hcomparisons : compareToBaseline results = some comparisons)
    (hreport : saveRunReport U parseMetrics results = some report) :
    Consistent report (printSummary comparisons) ↔
      ∀ r ∈ nonBaseline results, ∀ m, parseMetrics r.stdout = some m →
        r.failed ∨ (Double.rat 20).lt (slowdown baseline r) = false ∨
          ((Double.rat 30).lt (slowdown baseline r) ∧ Remarked m r) := by
  obtain ⟨hnamed, hrows, hall⟩ := saveRunReport_eq_some hnames hbaseline hreport
  rw [compareToBaseline_eq hbaseline] at hcomparisons
  obtain rfl := Option.some.inj hcomparisons
  have hmem : ∀ (f : ChaosRunResult → ProfileClass) (k : ProfileClass), ∀ r ∈ nonBaseline results,
      r.profileName ∈ ((nonBaseline results).filter fun r => f r = k).map
        ChaosRunResult.profileName ↔ f r = k := by
    intro f k r hr
    rw [List.mem_map]
    constructor
    · rintro ⟨r', hr', hname⟩
      obtain ⟨hr', hclass⟩ := List.mem_filter.mp hr'
      rw [← eq_of_profileName_eq hnames hr' hr hname]
      exact of_decide_eq_true hclass
    · exact fun h => ⟨r, List.mem_filter.mpr ⟨hr, decide_eq_true h⟩, rfl⟩
  constructor
  · intro h r hr m hm
    cases hfailed : r.failed with
    | true => exact .inl rfl
    | false =>
      refine .inr ?_
      have hclass : runClass baseline 30 r = runClass baseline 20 r := by
        have hlists := h.summary (runClass baseline 30 r)
        rw [hnamed, named_printSummary_compare] at hlists
        have hname := (hmem (runClass baseline 30) _ r hr).mpr rfl
        rw [hlists] at hname
        exact ((hmem (runClass baseline 20) _ r hr).mp hname).symm
      rcases (runClass_eq_iff hfailed).mp hclass with hlow | hslow
      · exact .inl hlow
      · refine .inr ⟨hslow, ?_⟩
        obtain ⟨row, hrow, hprofile, hstatus, m', hm', hfeedback⟩ := hall r hr
        obtain rfl := Option.some.inj (hm'.symm.trans hm)
        by_contra hremarked
        have hpraise := h.praise row hrow (by
          rw [hfeedback]
          exact (success_mem_generateFeedback_iff U m' r).mpr ⟨hfailed, hremarked⟩)
        have hpass := runClass_eq_pass_iff.mp (Option.some.inj (hstatus.symm.trans hpraise))
        rw [hslow] at hpass
        cases hpass.2
  · intro h
    refine ⟨fun k => ?_, fun row hrow k => ?_, fun row hrow hsuccess => ?_⟩
    · rw [hnamed, named_printSummary_compare]
      refine congrArg _ (List.filter_congr fun r hr => ?_)
      have hclass : runClass baseline 30 r = runClass baseline 20 r := by
        obtain ⟨row, -, -, -, m, hm, -⟩ := hall r hr
        cases hfailed : r.failed with
        | true => rw [runClass_of_failed hfailed, runClass_of_failed hfailed]
        | false =>
          refine (runClass_eq_iff hfailed).mpr ?_
          rcases h r hr m hm with hf | hlow | ⟨hslow, -⟩
          · rw [hfailed] at hf
            cases hf
          · exact .inl hlow
          · exact .inr hslow
      rw [hclass]
    · obtain ⟨r, hr, hprofile, hstatus, -⟩ := hrows row hrow
      rw [hprofile, hnamed, hmem _ _ r hr, hstatus, Option.some.injEq]
    · obtain ⟨r, hr, -, hstatus, m, hm, hfeedback⟩ := hrows row hrow
      rw [hfeedback, success_mem_generateFeedback_iff] at hsuccess
      rw [hstatus, Option.some.injEq, runClass_eq_pass_iff]
      refine ⟨hsuccess.1, ?_⟩
      rcases h r hr m hm with hf | hlow | ⟨-, hremarked⟩
      · rw [hsuccess.1] at hf
        cases hf
      · by_contra hslow
        have hmono := lt_of_le_of_lt (show (20 : ℚ) ≤ 30 by norm_num)
          (Bool.eq_true_of_not_eq_false hslow)
        rw [hlow] at hmono
        cases hmono
      · exact absurd hremarked hsuccess.2

end Agreement

/-- Metrics of a program that says nothing about itself. -/
def noMetrics : Metrics := ⟨.rat 0, .rat 0, 0, .rat 0, .rat 0, [], false⟩

/-- A run that exits normally after some seconds. -/
def sampleRun (profile : String) (seconds : ℚ) : ChaosRunResult :=
  { returncode := 0, profileName := lit profile, wallTimeS := .rat seconds }

theorem consistent_iff_sample : ∃ report comparisons,
    saveRunReport .ascii (fun _ => some noMetrics)
      [sampleRun "none" 10, sampleRun "memory_squeeze" 11] = some report ∧
    compareToBaseline [sampleRun "none" 10, sampleRun "memory_squeeze" 11] = some comparisons ∧
    Consistent report (printSummary comparisons) := by
  have hnames : ([sampleRun "none" 10, sampleRun "memory_squeeze" 11].map
      ChaosRunResult.profileName).Nodup := by decide
  have hsaved : (saveRunReport .ascii (fun _ => some noMetrics)
      [sampleRun "none" 10, sampleRun "memory_squeeze" 11]).isSome := by decide +kernel
  obtain ⟨report, hreport⟩ := Option.isSome_iff_exists.mp hsaved
  obtain ⟨comparisons, hcomparisons⟩ : ∃ comparisons, compareToBaseline
      [sampleRun "none" 10, sampleRun "memory_squeeze" 11] = some comparisons := ⟨_, rfl⟩
  have hbaseline : baseline? [sampleRun "none" 10, sampleRun "memory_squeeze" 11]
      = some (sampleRun "none" 10) := rfl
  refine ⟨report, comparisons, hreport, hcomparisons,
    (consistent_iff hnames hbaseline hcomparisons hreport).mpr ?_⟩
  intro r hr m hm
  have hlow : ∀ r ∈ nonBaseline [sampleRun "none" 10, sampleRun "memory_squeeze" 11],
      (Double.rat 20).lt (slowdown (sampleRun "none" 10) r) = false := by decide +kernel
  exact .inr (.inl (hlow r hr))

/-- A run that takes four times as long as the baseline fails and is praised. -/
theorem not_consistent : ¬ ∀ (U : CharTable) (parseMetrics : Text → Option Metrics)
    (results : List ChaosRunResult) (baseline : ChaosRunResult) (report : RunReport)
    (comparisons : List Comparison), (results.map ChaosRunResult.profileName).Nodup →
    baseline? results = some baseline → compareToBaseline results = some comparisons →
    saveRunReport U parseMetrics results = some report →
    Consistent report (printSummary comparisons) := by
  intro h
  have hnames : ([sampleRun "none" 10, sampleRun "memory_squeeze" 40].map
      ChaosRunResult.profileName).Nodup := by decide
  have hbaseline : baseline? [sampleRun "none" 10, sampleRun "memory_squeeze" 40]
      = some (sampleRun "none" 10) := rfl
  have hsaved : (saveRunReport .ascii (fun _ => some noMetrics)
      [sampleRun "none" 10, sampleRun "memory_squeeze" 40]).isSome := by decide +kernel
  obtain ⟨report, hreport⟩ := Option.isSome_iff_exists.mp hsaved
  have hconsistent := h .ascii (fun _ => some noMetrics) _ _ report _ hnames hbaseline rfl hreport
  obtain ⟨row, hrow, -, hstatus, m, hm, hfeedback⟩ :=
    (saveRunReport_eq_some hnames hbaseline hreport).2.2 (sampleRun "memory_squeeze" 40)
      (List.mem_filter.mpr ⟨List.mem_cons_of_mem _ List.mem_cons_self, by decide⟩)
  obtain rfl : noMetrics = m := Option.some.inj hm
  have hpraise := hconsistent.praise row hrow (by rw [hfeedback]; decide +kernel)
  rw [hstatus] at hpraise
  revert hpraise
  decide +kernel

end Chaos

end Csc512
