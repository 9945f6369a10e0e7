import Csc512.Lib.Dict
import Mathlib.Tactic.Ring

/-!
# Maximal runs, and a table of open runs

A run of a predicate on positions is maximal when it cannot be extended to either side. Read from
left to right, one number is enough to find all of them: the length of the run that ends at the
current position. `suffixRun` is that number, and `maximalRun_iff` says that a maximal run is
exactly what `suffixRun` holds when the predicate fails next.

A `RunTable` does this for a whole family of predicates at once, with one counter for every
predicate that has an open run: `advance` opens, extends and closes runs at a position, and
`Tracks` is the invariant that ties the table to the runs.

## Main results

* `maximalRun_iff` — maximal runs through `suffixRun`
* `RunTable.Tracks.advance` — one position further, the table still tracks the family
-/

namespace Csc512

section SuffixRun

variable (p : ℕ → Prop) [DecidablePred p]

/-- The length of the longest run of `p` that ends right before a position. -/
def suffixRun : ℕ → ℕ
  | 0 => 0
  | i + 1 => if p i then suffixRun i + 1 else 0

/-- A run of `p` from `s`, of length `n`, that cannot be extended to the left or to the right. -/
structure MaximalRun (p : ℕ → Prop) (s n : ℕ) : Prop where
  holds : ∀ k < n, p (s + k)
  stops : ¬ p (s + n)
  starts : s = 0 ∨ ¬ p (s - 1)

variable {p}

theorem suffixRun_succ_pos {i : ℕ} (h : p i) : suffixRun p (i + 1) = suffixRun p i + 1 := by
  rw [suffixRun, if_pos h]

theorem suffixRun_succ_neg {i : ℕ} (h : ¬ p i) : suffixRun p (i + 1) = 0 := by
  rw [suffixRun, if_neg h]

theorem suffixRun_le (i : ℕ) : suffixRun p i ≤ i := by
  induction i with
  | zero => exact le_rfl
  | succ i ih =>
    by_cases h : p i
    · rw [suffixRun_succ_pos h]
      omega
    · rw [suffixRun_succ_neg h]
      omega

/-- The positions of the suffix run satisfy the predicate. -/
theorem of_suffixRun {i j : ℕ} (hij : i ≤ j + suffixRun p i) (hj : j < i) : p j := by
  induction i with
  | zero => omega
  | succ i ih =>
    by_cases h : p i
    · rw [suffixRun_succ_pos h] at hij
      rcases Nat.lt_succ_iff_lt_or_eq.mp hj with hj | rfl
      · exact ih (by omega) hj
      · exact h
    · rw [suffixRun_succ_neg h] at hij
      omega

/-- The position before the suffix run does not. -/
theorem not_before_suffixRun {i : ℕ} (h : suffixRun p i < i) : ¬ p (i - suffixRun p i - 1) := by
  induction i with
  | zero => omega
  | succ i ih =>
    by_cases hp : p i
    · rw [suffixRun_succ_pos hp] at h ⊢
      rw [show i + 1 - (suffixRun p i + 1) - 1 = i - suffixRun p i - 1 by omega]
      exact ih (by omega)
    · rw [suffixRun_succ_neg hp]
      simpa using hp

/-- A run that starts after a failure, or at the beginning, is the suffix run at its end. -/
theorem suffixRun_of_run {s n : ℕ} (hrun : ∀ k < n, p (s + k)) (hstart : s = 0 ∨ ¬ p (s - 1)) :
    suffixRun p (s + n) = n := by
  induction n with
  | zero =>
    cases s with
    | zero => rfl
    | succ s =>
      have hs : ¬ p s := by simpa using hstart
      exact suffixRun_succ_neg hs
  | succ n ih =>
    rw [← Nat.add_assoc, suffixRun_succ_pos (hrun n (Nat.lt_succ_self n)),
      ih fun k hk => hrun k (Nat.lt_succ_of_lt hk)]

/-- **Maximal runs are the suffix runs at which the predicate fails.** -/
theorem maximalRun_iff {s n : ℕ} :
    MaximalRun p s n ↔ suffixRun p (s + n) = n ∧ ¬ p (s + n) := by
  constructor
  · intro h
    exact ⟨suffixRun_of_run h.holds h.starts, h.stops⟩
  · rintro ⟨hrun, hstop⟩
    refine ⟨fun k hk => of_suffixRun (i := s + n) (by omega) (by omega), hstop, ?_⟩
    rcases Nat.eq_zero_or_pos s with hs | hs
    · exact Or.inl hs
    · have hbefore := not_before_suffixRun (p := p) (i := s + n) (by omega)
      rw [hrun, Nat.add_sub_cancel] at hbefore
      exact Or.inr hbefore

end SuffixRun

/-! ### A table of open runs -/

/-- The open runs, by the name of their predicate, and the runs recorded when they closed, as
`(start, name, length)`. -/
structure RunTable where
  openRuns : Dict ℕ ℕ
  closed : List (ℕ × ℕ × ℕ)

namespace RunTable

/-- Record the runs that end right before position `i` and are long enough. -/
def record (minLength : ℤ) (i : ℕ) (runs : List (ℕ × ℕ)) : List (ℕ × ℕ × ℕ) :=
  (runs.filter fun r => minLength ≤ r.2).map fun r => (i - r.2, r.1, r.2)

/-- Read position `i`, at which the predicates named in `names` hold: their runs grow by one or
open, and every other open run closes. -/
def advance (minLength : ℤ) (i : ℕ) (names : List ℕ) (T : RunTable) : RunTable :=
  let runs := names.foldl (fun d o => d.upsert o fun l => l.elim 1 (· + 1)) T.openRuns
  { openRuns := runs.filter fun o _ => o ∈ names
    closed := T.closed ++ record minLength i (runs.filter fun o _ => o ∉ names).entries }

/-- The table without runs. -/
def empty : RunTable := ⟨Dict.empty, []⟩

/-- `T` tracks the family `p` up to position `i`: an open run is the suffix run of its predicate,
and the closed runs are the maximal runs that end before `i` and are long enough, each once. -/
structure Tracks (p : ℕ → ℕ → Prop) [∀ o, DecidablePred (p o)] (minLength : ℤ) (i : ℕ)
    (T : RunTable) : Prop where
  openRuns : ∀ o l, T.openRuns.get? o = some l ↔ 0 < l ∧ suffixRun (p o) i = l
  closed : ∀ s o n, (s, o, n) ∈ T.closed ↔
    0 < n ∧ minLength ≤ n ∧ MaximalRun (p o) s n ∧ s + n < i
  nodup : T.closed.Nodup

variable {p : ℕ → ℕ → Prop} [∀ o, DecidablePred (p o)] {minLength : ℤ} {i : ℕ} {T : RunTable}

theorem tracks_empty : Tracks p minLength 0 empty where
  openRuns o l := by
    simp only [empty, Dict.get?_empty, suffixRun]
    constructor
    · intro h
      cases h
    · rintro ⟨hl, rfl⟩
      cases hl
  closed s o n := by
    simp [empty]
  nodup := List.nodup_nil

/-- The open runs after reading position `i`, before any is closed. -/
theorem get?_extended (hT : Tracks p minLength i T) {names : List ℕ} (hnodup : names.Nodup)
    (hnames : ∀ o, o ∈ names ↔ p o i) (o : ℕ) :
    (names.foldl (fun d o => d.upsert o fun l => l.elim 1 (· + 1)) T.openRuns).get? o
      = if p o i then some (suffixRun (p o) i + 1) else T.openRuns.get? o := by
  rw [Dict.get?_foldl_upsert _ hnodup]
  by_cases ho : p o i
  · rw [if_pos ((hnames o).mpr ho), if_pos ho]
    cases hget : T.openRuns.get? o with
    | none =>
      have hzero : suffixRun (p o) i = 0 := by
        by_contra hne
        have hsome := (hT.openRuns o _).mpr ⟨Nat.pos_of_ne_zero hne, rfl⟩
        rw [hget] at hsome
        cases hsome
      simp [hzero]
    | some l =>
      have hl := ((hT.openRuns o l).mp hget).2
      simp [hl]
  · rw [if_neg fun h => ho ((hnames o).mp h), if_neg ho]

/-- The runs that close at position `i`: those of the predicates that had a run and fail now. -/
theorem mem_ended (hT : Tracks p minLength i T) {names : List ℕ} (hnodup : names.Nodup)
    (hnames : ∀ o, o ∈ names ↔ p o i) (o l : ℕ) :
    (o, l) ∈ ((names.foldl (fun d o => d.upsert o fun l => l.elim 1 (· + 1))
        T.openRuns).filter fun o _ => o ∉ names).entries ↔
      0 < l ∧ suffixRun (p o) i = l ∧ ¬ p o i := by
  rw [Dict.mem_entries_filter, ← Dict.get?_eq_some_iff, get?_extended hT hnodup hnames o]
  by_cases ho : p o i
  · simp [ho, hnames]
  · simp [ho, hnames, hT.openRuns]

theorem mem_record {runs : List (ℕ × ℕ)} (hle : ∀ r ∈ runs, r.2 ≤ i) (s o n : ℕ) :
    (s, o, n) ∈ record minLength i runs ↔ (o, n) ∈ runs ∧ minLength ≤ n ∧ s + n = i := by
  simp only [record, List.mem_map, List.mem_filter, decide_eq_true_eq, Prod.mk.injEq]
  constructor
  · rintro ⟨r, ⟨hr, hmin⟩, rfl, rfl, rfl⟩
    exact ⟨hr, hmin, Nat.sub_add_cancel (hle r hr)⟩
  · rintro ⟨hr, hmin, rfl⟩
    exact ⟨(o, n), ⟨hr, hmin⟩, by omega, rfl, rfl⟩

theorem nodup_record (d : Dict ℕ ℕ) : (record minLength i d.entries).Nodup := by
  have hkeys : ((d.entries.filter fun r => minLength ≤ r.2).map Prod.fst).Nodup :=
    d.nodup.sublist (List.filter_sublist.map _)
  refine List.Nodup.of_map (fun r => r.2.1) ?_
  simpa [record, List.map_map, Function.comp_def] using hkeys

/-- **The table keeps tracking.** Reading position `i` with the names of exactly the predicates
that hold there gives the table for position `i + 1`. -/
theorem Tracks.advance (hT : Tracks p minLength i T) {names : List ℕ} (hnodup : names.Nodup)
    (hnames : ∀ o, o ∈ names ↔ p o i) :
    Tracks p minLength (i + 1) (T.advance minLength i names) where
  openRuns o l := by
    simp only [RunTable.advance, Dict.get?_filter, get?_extended hT hnodup hnames o]
    by_cases ho : p o i
    · have hin : o ∈ names := (hnames o).mpr ho
      simp only [suffixRun_succ_pos ho, hin, if_pos ho, decide_true, Option.filter_some, if_true,
        Option.some.injEq]
      omega
    · have hout : o ∉ names := fun h => ho ((hnames o).mp h)
      rw [suffixRun_succ_neg ho]
      constructor
      · intro h
        have hin := (Option.filter_eq_some_iff.mp h).2
        simp [hout] at hin
      · rintro ⟨hl, rfl⟩
        cases hl
  closed s o n := by
    have hle : ∀ r ∈ ((names.foldl (fun d o => d.upsert o fun l => l.elim 1 (· + 1))
        T.openRuns).filter fun o _ => o ∉ names).entries, r.2 ≤ i := by
      rintro ⟨o, l⟩ hr
      obtain ⟨-, hl, -⟩ := (mem_ended hT hnodup hnames o l).mp hr
      exact hl ▸ suffixRun_le i
    simp only [RunTable.advance, List.mem_append, hT.closed, mem_record hle,
      mem_ended hT hnodup hnames]
    constructor
    · rintro (⟨hn, hmin, hrun, hlt⟩ | ⟨⟨hn, hsuf, hstop⟩, hmin, rfl⟩)
      · exact ⟨hn, hmin, hrun, by omega⟩
      · exact ⟨hn, hmin, maximalRun_iff.mpr ⟨hsuf, hstop⟩, by omega⟩
    · rintro ⟨hn, hmin, hrun, hlt⟩
      rcases Nat.lt_succ_iff_lt_or_eq.mp hlt with hlt | rfl
      · exact Or.inl ⟨hn, hmin, hrun, hlt⟩
      · obtain ⟨hsuf, hstop⟩ := maximalRun_iff.mp hrun
        exact Or.inr ⟨⟨hn, hsuf, hstop⟩, hmin, rfl⟩
  nodup := by
    refine List.nodup_append.mpr ⟨hT.nodup, nodup_record _, ?_⟩
    -- an old run ended before `i`, a run recorded now ends at `i`
    rintro ⟨s, o, n⟩ hold r hnew rfl
    obtain ⟨-, -, -, hlt⟩ := (hT.closed s o n).mp hold
    simp only [record, List.mem_map, Prod.mk.injEq] at hnew
    obtain ⟨⟨o', l⟩, -, rfl, -, rfl⟩ := hnew
    omega

end RunTable

end Csc512
