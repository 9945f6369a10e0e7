import Csc512.Lib.Double
import Csc512.Lib.Pattern
import Csc512.Lib.Text

/-!
# What a program says about itself

Programs print figures of their own: operations per second, memory, throughput, the length of a
history. Some marks in a line tell what it is about, and a pattern finds the numeral. The numeral of
a count is read by `int`, that of a measurement by `float`, and both can fail: a measurement is any
run of digits and points, and a count can have more digits than the interpreter reads. The average
of the figures can be too large for a float.

## Main results

* `parseMetrics_isSome_iff` — when the metrics can be read
-/

namespace Csc512

namespace Chaos

/-! ### Numbers -/

/-- Numbers as the program holds them. -/
inductive Number where
  | int (n : ℕ)
  | float (x : Double)

/-- The double next to an integer, unless it is too large. -/
def floatOfInt (n : ℕ) : Option Double :=
  match Double.round n with
  | .inf _ => none
  | x => some x

/-- The exact value of a number. -/
def Number.exact : Number → Double
  | .int n => .rat n
  | .float x => x

/-- Add numbers. -/
def Number.add : Number → Number → Option Number
  | .int m, .int n => some (.int (m + n))
  | .int m, .float y => (floatOfInt m).map fun x => .float (x.add y)
  | .float x, .int n => (floatOfInt n).map fun y => .float (x.add y)
  | .float x, .float y => some (.float (x.add y))

/-- The sum of some numbers. -/
def sumNumbers (xs : List Number) : Option Number := xs.foldlM Number.add (.int 0)

/-- A number divided by a count. -/
def Number.divide (x : Number) (k : ℕ) : Option Double :=
  match x with
  | .int n =>
    match Double.round (mkRat n k) with
    | .inf _ => none
    | q => some q
  | .float x => some (x.div (.rat k))

/-- The average of some numbers, or 0. -/
def average (xs : List Number) : Option Double :=
  if xs = [] then some (.rat 0) else (sumNumbers xs).bind fun total => total.divide xs.length

/-- The smallest of some numbers, or 0. -/
def smallest (xs : List Number) : Double :=
  match xs.map Number.exact with
  | [] => .rat 0
  | x :: xs => xs.foldl (fun least y => if y.lt least then y else least) x

/-! ### Numerals -/

section Numerals

variable (U : CharTable) (maxStrDigits : ℕ)

/-- The value of digits. -/
def digitsValue (digits : Text) : ℕ := digits.foldl (fun n c => 10 * n + U.decimalValue c) 0

/-- `int` on a text of digits. More than `maxStrDigits` of them are refused, if this is not 0. -/
def intOfDigits (digits : Text) : Option ℕ :=
  if 0 < maxStrDigits ∧ maxStrDigits < digits.length then none else some (digitsValue U digits)

/-- `float` on a text of digits and points. -/
def floatOfDigits (t : Text) : Option Double :=
  let whole := t.takeWhile (· ≠ '.')
  let places := (t.dropWhile (· ≠ '.')).drop 1
  if '.' ∈ places ∨ whole ++ places = [] then none
  else some (.round (mkRat (digitsValue U (whole ++ places)) (10 ^ places.length)))

/-- The first group of the leftmost match. -/
def firstGroup (p : Pattern) (line : Text) : Option Text :=
  (p.search line).bind fun m => m.2.group? 1

/-- Digits behind a word. -/
def countAfter (word : String) : Pattern :=
  .seqs [.literal (lit word), .plus (.char isSpace), .group 1 (.plus (.char U.isDecimal))]

/-- Digits and points behind a word. -/
def measurementAfter (word : String) : Pattern :=
  .seqs [.literal (lit word), .plus (.char isSpace),
    .group 1 (.plus (.char fun c => U.isDecimal c || c = '.'))]

/-- The figures that a line can show, with their numerals. -/
inductive Figure where
  | operations (digits : Text)
  | memory (digits : Text)
  | throughput (t : Text)
  | iterations (t : Text)
deriving DecidableEq, Repr

/-- The figure in a line. -/
def figure (line : Text) : Option Figure :=
  if contains (lit "[CPU]") line && contains (lit "ops/sec") line then
    (firstGroup (countAfter U "ops/sec:") line).map .operations
  else if contains (lit "[MEM]") line then
    (firstGroup (countAfter U "resident:") line).map .memory
  else if contains (lit "[I/O]") line then
    (firstGroup (measurementAfter U "throughput:") line).map .throughput
  else if contains (lit "Allocated chunk") line then
    (firstGroup (.seqs [countAfter U "total:", .plus (.char isSpace), .literal (lit "MB")])
      line).map .memory
  else if contains (lit "iterations/sec:") line then
    (firstGroup (measurementAfter U "iterations/sec:") line).map .iterations
  else none

/-- The length of the history in a line. -/
def historyDigits (line : Text) : Option Text :=
  if contains (lit "history=") line then
    firstGroup (.seqs [.literal (lit "history="), .group 1 (.plus (.char U.isDecimal))]) line
  else none

/-! ### Reading the output -/

/-- The figures that were read. -/
structure Readings where
  cpu : List Number := []
  mem : List ℕ := []
  io : List Double := []
  historySizes : List ℕ := []

/-- Read a figure. -/
def readFigure (acc : Readings) : Figure → Option Readings
  | .operations digits =>
    (intOfDigits U maxStrDigits digits).map fun n => { acc with cpu := acc.cpu ++ [.int n] }
  | .memory digits =>
    (intOfDigits U maxStrDigits digits).map fun n => { acc with mem := acc.mem ++ [n] }
  | .throughput t => (floatOfDigits U t).map fun x => { acc with io := acc.io ++ [x] }
  | .iterations t => (floatOfDigits U t).map fun x => { acc with cpu := acc.cpu ++ [.float x] }

/-- Read the length of the history. -/
def readHistory (acc : Readings) (digits : Text) : Option Readings :=
  (intOfDigits U maxStrDigits digits).map fun n =>
    { acc with historySizes := acc.historySizes ++ [n] }

/-- Read a line. -/
def readLine (acc : Readings) (line : Text) : Option Readings := do
  let acc ← (figure U line).elim (some acc) (readFigure U maxStrDigits acc)
  (historyDigits U line).elim (some acc) (readHistory U maxStrDigits acc)

/-- What a program says about itself in its output. -/
structure Metrics where
  cpuAvg : Double
  cpuMin : Double
  memPeak : ℕ
  ioAvg : Double
  ioMin : Double
  historySizes : List ℕ
  flushDetected : Bool

/-- Does a history of more than ten entries ever drop by more than five? -/
def flushed (sizes : List ℕ) : Bool :=
  10 < sizes.length && (sizes.zip sizes.tail).any fun p => p.2 + 5 < p.1

/-- The largest of some counts, or 0. -/
def largest (counts : List ℕ) : ℕ := counts.foldl max 0

/-- The metrics of some figures. -/
def Readings.metrics (acc : Readings) : Option Metrics := do
  let cpuAvg ← average acc.cpu
  let ioAvg ← average (acc.io.map .float)
  some {
    cpuAvg
    cpuMin := smallest acc.cpu
    memPeak := largest acc.mem
    ioAvg
    ioMin := smallest (acc.io.map .float)
    historySizes := acc.historySizes
    flushDetected := flushed acc.historySizes }

/-- Read the metrics from an output. -/
def parseMetrics (stdout : Text) : Option Metrics :=
  ((splitLines stdout).foldlM (readLine U maxStrDigits) {}).bind Readings.metrics

/-! ### When an output can be read -/

/-- Has the interpreter room for the digits? -/
def FewDigits (digits : Text) : Prop := maxStrDigits = 0 ∨ digits.length ≤ maxStrDigits

/-- A text with a digit, and with one point at most. -/
def IsMeasurement (t : Text) : Prop := t.count '.' ≤ 1 ∧ ∃ c ∈ t, c ≠ '.'

/-- The numeral of a figure is that of a number. -/
def Figure.Readable : Figure → Prop
  | .operations digits => FewDigits maxStrDigits digits
  | .memory digits => FewDigits maxStrDigits digits
  | .throughput t => IsMeasurement t
  | .iterations t => IsMeasurement t

/-- The numerals in a line are those of numbers. -/
def LineReadable (line : Text) : Prop :=
  (∀ f ∈ figure U line, f.Readable maxStrDigits) ∧
    ∀ digits ∈ historyDigits U line, FewDigits maxStrDigits digits

/-- The value of a figure is put behind those before. -/
def Readings.withFigure (acc : Readings) : Figure → Readings
  | .operations digits => { acc with cpu := acc.cpu ++ [.int (digitsValue U digits)] }
  | .memory digits => { acc with mem := acc.mem ++ [digitsValue U digits] }
  | .throughput t => { acc with io := acc.io ++ (floatOfDigits U t).toList }
  | .iterations t => { acc with cpu := acc.cpu ++ (floatOfDigits U t).toList.map .float }

/-- The values in a line are put behind those before. -/
def Readings.withLine (acc : Readings) (line : Text) : Readings :=
  let acc := (figure U line).elim acc (acc.withFigure U)
  (historyDigits U line).elim acc fun digits =>
    { acc with historySizes := acc.historySizes ++ [digitsValue U digits] }

/-- The values in an output. -/
def valuesOf (stdout : Text) : Readings := (splitLines stdout).foldl (Readings.withLine U) {}

/-- An output can be read: its numerals are those of numbers, and the average of the figures for
the processor is no larger than a float can be. -/
structure OutputReadable (stdout : Text) : Prop where
  lines : ∀ line ∈ splitLines stdout, LineReadable U maxStrDigits line
  average : (average (valuesOf U stdout).cpu).isSome

variable {U maxStrDigits}

theorem intOfDigits_eq_some {digits : Text} (h : FewDigits maxStrDigits digits) :
    intOfDigits U maxStrDigits digits = some (digitsValue U digits) := by
  refine if_neg fun hmany => ?_
  rcases h with h | h <;> omega

theorem intOfDigits_eq_none {digits : Text} (h : ¬ FewDigits maxStrDigits digits) :
    intOfDigits U maxStrDigits digits = none := by
  refine if_pos ?_
  rw [FewDigits, not_or] at h
  omega

/-- A measurement is what `float` reads. -/
theorem floatOfDigits_isSome_iff (t : Text) : (floatOfDigits U t).isSome ↔ IsMeasurement t := by
  have hsome : ∀ w p : Text, (if '.' ∈ p ∨ w ++ p = [] then none
      else some (Double.round (mkRat (digitsValue U (w ++ p)) (10 ^ p.length)))).isSome ↔
        '.' ∉ p ∧ w ++ p ≠ [] := by
    intro w p
    by_cases h : '.' ∈ p ∨ w ++ p = []
    · rw [if_pos h]
      exact iff_of_false nofun fun hnot => h.elim hnot.1 hnot.2
    · rw [if_neg h]
      exact iff_of_true rfl (not_or.mp h)
  have hink : ∀ s : Text, '.' ∉ s → (s ≠ [] ↔ ∃ c ∈ s, c ≠ '.') := by
    intro s hs
    refine ⟨fun hne => ?_, fun ⟨c, hc, _⟩ => List.ne_nil_of_mem hc⟩
    obtain ⟨c, v, rfl⟩ := List.exists_cons_of_ne_nil hne
    exact ⟨c, List.mem_cons_self, fun h => hs (h ▸ List.mem_cons_self)⟩
  rw [floatOfDigits, IsMeasurement]
  by_cases hdot : '.' ∈ t
  · obtain ⟨w, p, rfl, hw⟩ := List.eq_append_cons_of_mem hdot
    have hall : ∀ c ∈ w, decide (c ≠ '.') = true := fun c hc =>
      decide_eq_true fun h => hw (h ▸ hc)
    rw [List.takeWhile_append_of_pos hall, List.dropWhile_append_of_pos hall,
      List.takeWhile_cons_of_neg (by simp), List.dropWhile_cons_of_neg (by simp), List.append_nil,
      List.drop_one, List.tail_cons, hsome, List.count_append, List.count_eq_zero.mpr hw,
      List.count_cons_self]
    constructor
    · rintro ⟨hp, hne⟩
      obtain ⟨c, hc, hcdot⟩ := (hink (w ++ p) (by simp [hw, hp])).mp hne
      refine ⟨by rw [List.count_eq_zero.mpr hp], c, ?_, hcdot⟩
      exact List.mem_append.mpr ((List.mem_append.mp hc).imp_right (List.mem_cons_of_mem _))
    · rintro ⟨hcount, c, hc, hcdot⟩
      have hp : '.' ∉ p := List.count_eq_zero.mp (by omega)
      refine ⟨hp, List.ne_nil_of_mem (a := c) ?_⟩
      rcases List.mem_append.mp hc with hc | hc
      · exact List.mem_append_left p hc
      · exact List.mem_append_right w ((List.mem_cons.mp hc).resolve_left hcdot)
  · have hall : ∀ c ∈ t, decide (c ≠ '.') = true := fun c hc =>
      decide_eq_true fun h => hdot (h ▸ hc)
    rw [List.takeWhile_eq_self_iff.mpr hall, List.dropWhile_eq_nil_iff.mpr hall, List.drop_nil,
      hsome, List.append_nil, List.count_eq_zero.mpr hdot, hink t hdot]
    simp

theorem exists_floatOfDigits {t : Text} (h : IsMeasurement t) :
    ∃ x, floatOfDigits U t = some x :=
  Option.isSome_iff_exists.mp ((floatOfDigits_isSome_iff t).mpr h)

theorem floatOfDigits_eq_none {t : Text} (h : ¬ IsMeasurement t) : floatOfDigits U t = none :=
  Option.not_isSome_iff_eq_none.mp fun hsome => h ((floatOfDigits_isSome_iff t).mp hsome)

/-- What reading a figure does. -/
theorem readFigure_eq_some (acc : Readings) {f : Figure} (h : f.Readable maxStrDigits) :
    readFigure U maxStrDigits acc f = some (acc.withFigure U f) := by
  cases f with
  | operations digits => rw [readFigure, intOfDigits_eq_some h]; rfl
  | memory digits => rw [readFigure, intOfDigits_eq_some h]; rfl
  | throughput t =>
    obtain ⟨x, hx⟩ := exists_floatOfDigits (U := U) h
    rw [readFigure, Readings.withFigure, hx]
    rfl
  | iterations t =>
    obtain ⟨x, hx⟩ := exists_floatOfDigits (U := U) h
    rw [readFigure, Readings.withFigure, hx]
    rfl

theorem readFigure_eq_none (acc : Readings) {f : Figure} (h : ¬ f.Readable maxStrDigits) :
    readFigure U maxStrDigits acc f = none := by
  cases f with
  | operations digits => rw [readFigure, intOfDigits_eq_none h]; rfl
  | memory digits => rw [readFigure, intOfDigits_eq_none h]; rfl
  | throughput t => rw [readFigure, floatOfDigits_eq_none h]; rfl
  | iterations t => rw [readFigure, floatOfDigits_eq_none h]; rfl

/-- What reading a line does. -/
theorem readLine_eq_some (acc : Readings) {line : Text} (h : LineReadable U maxStrDigits line) :
    readLine U maxStrDigits acc line = some (acc.withLine U line) := by
  obtain ⟨hfigure, hhistory⟩ := h
  have hfirst : (figure U line).elim (some acc) (readFigure U maxStrDigits acc)
      = some ((figure U line).elim acc (acc.withFigure U)) := by
    cases hf : figure U line with
    | none => rfl
    | some f => exact readFigure_eq_some acc (hfigure f hf)
  rw [readLine, hfirst, Readings.withLine]
  cases hd : historyDigits U line with
  | none => rfl
  | some digits =>
    show readHistory U maxStrDigits _ digits = _
    rw [readHistory, intOfDigits_eq_some (hhistory digits hd)]
    rfl

theorem readLine_eq_none (acc : Readings) {line : Text} (h : ¬ LineReadable U maxStrDigits line) :
    readLine U maxStrDigits acc line = none := by
  rw [readLine]
  by_cases hfigure : ∀ f ∈ figure U line, f.Readable maxStrDigits
  · have hhistory : ¬ ∀ digits ∈ historyDigits U line, FewDigits maxStrDigits digits :=
      fun hhistory => h ⟨hfigure, hhistory⟩
    push Not at hhistory
    obtain ⟨digits, hd, hmany⟩ := hhistory
    refine Option.bind_eq_none_iff.mpr fun acc' _ => ?_
    rw [Option.mem_def.mp hd, Option.elim_some, readHistory, intOfDigits_eq_none hmany]
    rfl
  · push Not at hfigure
    obtain ⟨f, hf, hnot⟩ := hfigure
    rw [Option.mem_def.mp hf, Option.elim_some, readFigure_eq_none acc hnot]
    rfl

/-- **Reading an output**: all lines have to be readable, and then all values are collected. -/
theorem foldlM_readLine_eq_some_iff {lines : List Text} {acc acc' : Readings} :
    lines.foldlM (readLine U maxStrDigits) acc = some acc' ↔
      (∀ line ∈ lines, LineReadable U maxStrDigits line) ∧
        lines.foldl (Readings.withLine U) acc = acc' := by
  induction lines generalizing acc with
  | nil =>
    rw [List.foldlM_nil, List.foldl_nil]
    simp
  | cons line lines ih =>
    rw [List.foldlM_cons, List.foldl_cons, List.forall_mem_cons]
    by_cases h : LineReadable U maxStrDigits line
    · rw [readLine_eq_some acc h, and_iff_right h]
      exact ih
    · rw [readLine_eq_none acc h]
      exact iff_of_false nofun fun hall => h hall.1.1

/-- Floats always have an average. -/
theorem average_map_float_isSome (xs : List Double) : (average (xs.map .float)).isSome := by
  have hsum : ∀ (ys : List Double) (x : Double), ∃ y, (ys.map Number.float).foldlM Number.add
      (.float x) = some (.float y) := by
    intro ys
    induction ys with
    | nil => exact fun x => ⟨x, rfl⟩
    | cons z zs ih => exact fun x => ih (x.add z)
  cases xs with
  | nil => rfl
  | cons x xs =>
    obtain ⟨y, hy⟩ := hsum xs ((Double.rat 0).add x)
    have hzero : floatOfInt 0 = some (.rat 0) := by decide +kernel
    have htotal : sumNumbers ((x :: xs).map .float) = some (.float y) := by
      rw [sumNumbers, List.map_cons, List.foldlM_cons, Number.add, hzero]
      exact hy
    rw [average, if_neg (by simp), htotal]
    rfl

/-- There are metrics if the figures for the processor have an average. -/
theorem exists_metrics {acc : Readings} (h : (average acc.cpu).isSome) :
    ∃ m, acc.metrics = some m ∧ m.memPeak = largest acc.mem := by
  obtain ⟨cpuAvg, hcpu⟩ := Option.isSome_iff_exists.mp h
  obtain ⟨ioAvg, hio⟩ := Option.isSome_iff_exists.mp (average_map_float_isSome acc.io)
  rw [Readings.metrics, hcpu, hio]
  exact ⟨_, rfl, rfl⟩

/-- What is read from a readable output. -/
theorem exists_parseMetrics {stdout : Text} (h : OutputReadable U maxStrDigits stdout) :
    ∃ m, parseMetrics U maxStrDigits stdout = some m ∧
      m.memPeak = largest (valuesOf U stdout).mem := by
  have hread : (splitLines stdout).foldlM (readLine U maxStrDigits) {}
      = some (valuesOf U stdout) := foldlM_readLine_eq_some_iff.mpr ⟨h.lines, rfl⟩
  rw [parseMetrics, hread]
  exact exists_metrics h.average

/-- **When the metrics can be read.** -/
theorem parseMetrics_isSome_iff {stdout : Text} :
    (parseMetrics U maxStrDigits stdout).isSome ↔ OutputReadable U maxStrDigits stdout := by
  constructor
  · intro h
    obtain ⟨m, hm⟩ := Option.isSome_iff_exists.mp h
    obtain ⟨acc, hacc, hmetrics⟩ := Option.bind_eq_some_iff.mp hm
    obtain ⟨cpuAvg, hcpu, -⟩ := Option.bind_eq_some_iff.mp hmetrics
    obtain ⟨hlines, hvalues⟩ := foldlM_readLine_eq_some_iff.mp hacc
    refine ⟨hlines, ?_⟩
    rw [valuesOf, hvalues, hcpu]
    rfl
  · intro h
    obtain ⟨m, hm, -⟩ := exists_parseMetrics h
    rw [hm]
    rfl

end Numerals

end Chaos

end Csc512
