import Csc512.Cdup.Flatten
import Csc512.Lib.RunTable

/-!
# The clone scan

The second part of the clone detector: an inverted index from normal forms to flat positions, and
one scan over the flat list that keeps, for every distance at which the current statement occurs
again, the length of the match that ends here. A match is recorded when it stops.

The scan is a `RunTable` whose predicates are the distances: the predicate of distance `o` holds at
`i` when the statements at `i` and `i + o` match.

## Main results

* `mem_invertedIndex` — the index lists the positions of a form, unless it is too frequent
* `tracks_scan` — the scan tracks the matches at every distance
* `mem_completedClones` — the recorded triples are the maximal matches
* `cloneScan_exact` — the same for the flat list of any representation, range by range in one
  segment
-/

namespace Csc512

/-! ### The index and the scan -/

/-- The flat positions of every normal form; with a positive `maxFreq` only of the forms that
occur at most that often. -/
def invertedIndex (maxFreq : ℤ) (flat : List (Option FlatEntry)) : Dict Text (List ℕ) :=
  let index := Dict.collect (flat.zipIdx.filterMap fun e => e.1.map fun entry => (entry.norm, e.2))
  if 0 < maxFreq then index.filter fun _ positions => positions.length ≤ maxFreq else index

/-- The lengths of the matches that are still growing, by distance, and the finished ones, as
`(start_a, start_b, length)`. -/
structure CloneScan where
  activeClones : Dict ℕ ℕ
  completedClones : List (ℕ × ℕ × ℕ)

/-- The matches that end right before `currentIdx` and are long enough. -/
def finishedClones (minLength : ℤ) (currentIdx : ℕ) (active : List (ℕ × ℕ)) :
    List (ℕ × ℕ × ℕ) :=
  (active.filter fun r => minLength ≤ r.2).map fun r =>
    (currentIdx - r.2, currentIdx - r.2 + r.1, r.2)

/-- The distances from `currentIdx` to the later ones of the positions in `positions`. -/
def currentOffsets (flat : List (Option FlatEntry)) (currentIdx : ℕ) (positions : List ℕ) :
    List ℕ :=
  (positions.filter fun m => ¬ m ≤ currentIdx ∧ flat[m]? ≠ some none).map (· - currentIdx)

/-- Read one entry of the flat list. -/
def CloneScan.read (index : Dict Text (List ℕ)) (minLength : ℤ) (flat : List (Option FlatEntry))
    (scan : CloneScan) (e : Option FlatEntry × ℕ) : CloneScan :=
  match e with
  | (none, currentIdx) =>
    { activeClones := Dict.empty
      completedClones := scan.completedClones ++
        finishedClones minLength currentIdx scan.activeClones.entries }
  | (some entry, currentIdx) =>
    let offsets := currentOffsets flat currentIdx ((index.get? entry.norm).getD [])
    let active := offsets.foldl (fun d o => d.upsert o fun l => l.elim 1 (· + 1)) scan.activeClones
    { activeClones := active.filter fun o _ => o ∈ offsets
      completedClones := scan.completedClones ++
        finishedClones minLength currentIdx (active.filter fun o _ => o ∉ offsets).entries }

/-- All matches: those finished during the scan and those that reach the end of the list. -/
def completedClones (minLength maxFreq : ℤ) (flat : List (Option FlatEntry)) :
    List (ℕ × ℕ × ℕ) :=
  let scan := flat.zipIdx.foldl (CloneScan.read (invertedIndex maxFreq flat) minLength flat)
    ⟨Dict.empty, []⟩
  scan.completedClones ++ finishedClones minLength flat.length scan.activeClones.entries

/-! ### What the index holds -/

/-- The normal form at a position; none at a separator and behind the end. -/
def normAt (flat : List (Option FlatEntry)) (i : ℕ) : Option Text :=
  (flat[i]?.join).map FlatEntry.norm

/-- How often a normal form occurs. -/
def frequency (flat : List (Option FlatEntry)) (norm : Text) : ℕ :=
  flat.countP fun e => e.map FlatEntry.norm = some norm

/-- Two positions hold statements with the same normal form, which is not too frequent. -/
def Matches (maxFreq : ℤ) (flat : List (Option FlatEntry)) (i j : ℕ) : Prop :=
  ∃ norm, normAt flat i = some norm ∧ normAt flat j = some norm ∧
    (0 < maxFreq → (frequency flat norm : ℤ) ≤ maxFreq)

variable {maxFreq minLength : ℤ} {flat : List (Option FlatEntry)}

theorem normAt_eq_some {i : ℕ} {norm : Text} :
    normAt flat i = some norm ↔ ∃ entry, flat[i]? = some (some entry) ∧ entry.norm = norm := by
  simp only [normAt, Option.map_eq_some_iff, Option.join_eq_some_iff]

theorem lt_length_of_normAt {i : ℕ} {norm : Text} (h : normAt flat i = some norm) :
    i < flat.length := by
  obtain ⟨entry, hentry, -⟩ := normAt_eq_some.mp h
  exact (List.getElem?_eq_some_iff.mp hentry).1

/-- The positions of a form. -/
def positionsOf (flat : List (Option FlatEntry)) (norm : Text) : List ℕ :=
  (flat.zipIdx.filter fun e => e.1.map FlatEntry.norm = some norm).map Prod.snd

theorem mem_positionsOf {i : ℕ} {norm : Text} :
    i ∈ positionsOf flat norm ↔ normAt flat i = some norm := by
  simp only [positionsOf, List.mem_map, List.mem_filter, decide_eq_true_eq, Prod.exists,
    List.mem_zipIdx_iff_getElem?, Option.map_eq_some_iff, normAt_eq_some]
  constructor
  · rintro ⟨e, j, ⟨hj, entry, rfl, hnorm⟩, rfl⟩
    exact ⟨entry, hj, hnorm⟩
  · rintro ⟨entry, hentry, hnorm⟩
    exact ⟨some entry, i, ⟨hentry, entry, rfl, hnorm⟩, rfl⟩

theorem nodup_positionsOf (flat : List (Option FlatEntry)) (norm : Text) :
    (positionsOf flat norm).Nodup := by
  have hall : (flat.zipIdx.map Prod.snd).Nodup := by
    rw [List.zipIdx_map_snd]
    exact List.nodup_range'
  exact hall.sublist (List.filter_sublist.map _)

theorem length_positionsOf (norm : Text) :
    (positionsOf flat norm).length = frequency flat norm := by
  have hfst : flat.zipIdx.map Prod.fst = flat := List.zipIdx_map_fst 0 flat
  rw [positionsOf, List.length_map, frequency]
  conv_rhs => rw [← hfst]
  rw [List.countP_map, List.countP_eq_length_filter]
  rfl

/-- Grouping the statements by their form gives the positions of every form. -/
theorem get?_collect_norms (norm : Text) :
    ((Dict.collect (flat.zipIdx.filterMap fun e =>
      e.1.map fun entry => (entry.norm, e.2))).get? norm).getD [] = positionsOf flat norm := by
  rw [Dict.get?_collect, positionsOf]
  induction flat.zipIdx with
  | nil => rfl
  | cons e es ih =>
    obtain ⟨entry, i⟩ := e
    cases entry with
    | none => simpa using ih
    | some entry =>
      by_cases hnorm : entry.norm = norm
      · simpa [hnorm] using ih
      · simpa [hnorm] using ih

/-- **The index lists the positions of a form**, unless the form is too frequent. -/
theorem mem_invertedIndex {norm : Text} {m : ℕ} :
    m ∈ ((invertedIndex maxFreq flat).get? norm).getD [] ↔
      normAt flat m = some norm ∧ (0 < maxFreq → (frequency flat norm : ℤ) ≤ maxFreq) := by
  rw [← mem_positionsOf, ← length_positionsOf, ← get?_collect_norms, invertedIndex]
  by_cases hfreq : 0 < maxFreq
  · rw [if_pos hfreq, Dict.get?_filter]
    cases (Dict.collect (flat.zipIdx.filterMap fun e =>
        e.1.map fun entry => (entry.norm, e.2))).get? norm with
    | none => simp
    | some positions =>
      by_cases hlen : (positions.length : ℤ) ≤ maxFreq
      · simp [Option.filter, hlen]
      · simp [Option.filter, hlen, hfreq]
  · simp [hfreq]

/-! ### The scan tracks the matches at every distance -/

/-- The predicate of distance `o`: the statement at `i` matches the one `o` positions later. -/
def MatchesAt (maxFreq : ℤ) (flat : List (Option FlatEntry)) (o i : ℕ) : Prop :=
  0 < o ∧ Matches maxFreq flat i (i + o)

open Classical in
noncomputable instance (maxFreq : ℤ) (flat : List (Option FlatEntry)) (o : ℕ) :
    DecidablePred (MatchesAt maxFreq flat o) := fun _ => inferInstance

theorem mem_currentOffsets {i o : ℕ} {norm : Text} :
    o ∈ currentOffsets flat i (((invertedIndex maxFreq flat).get? norm).getD []) ↔
      0 < o ∧ normAt flat (i + o) = some norm ∧
        (0 < maxFreq → (frequency flat norm : ℤ) ≤ maxFreq) := by
  simp only [currentOffsets, List.mem_map, List.mem_filter, mem_invertedIndex, decide_eq_true_eq]
  constructor
  · rintro ⟨m, ⟨⟨hnorm, hfreq⟩, hlt, -⟩, rfl⟩
    rw [show i + (m - i) = m by omega]
    exact ⟨by omega, hnorm, hfreq⟩
  · rintro ⟨ho, hnorm, hfreq⟩
    obtain ⟨entry, hentry, -⟩ := normAt_eq_some.mp hnorm
    refine ⟨i + o, ⟨⟨hnorm, hfreq⟩, by omega, ?_⟩, by omega⟩
    simp [hentry]

theorem nodup_currentOffsets (i : ℕ) (norm : Text) :
    (currentOffsets flat i (((invertedIndex maxFreq flat).get? norm).getD [])).Nodup := by
  have hpos : (((invertedIndex maxFreq flat).get? norm).getD []).Nodup := by
    have hall := nodup_positionsOf flat norm
    rw [← get?_collect_norms] at hall
    by_cases hfreq : 0 < maxFreq
    · rw [invertedIndex, if_pos hfreq, Dict.get?_filter]
      revert hall
      generalize (Dict.collect _).get? norm = positions
      intro hall
      cases positions with
      | none => exact List.nodup_nil
      | some positions =>
        by_cases hlen : (positions.length : ℤ) ≤ maxFreq
        · simpa [Option.filter, hlen] using hall
        · simp [Option.filter, hlen]
    · rwa [invertedIndex, if_neg hfreq]
  refine List.Nodup.map_on ?_ (hpos.filter _)
  -- all positions lie behind `i`
  intro m hm m' hm' heq
  have hlt := (List.mem_filter.mp hm).2
  have hlt' := (List.mem_filter.mp hm').2
  simp only [decide_eq_true_eq] at hlt hlt'
  omega

/-- A scan as a table of runs: a finished match is the run of its distance. -/
def CloneScan.Represents (scan : CloneScan) (T : RunTable) : Prop :=
  scan.activeClones = T.openRuns ∧
    scan.completedClones = T.closed.map fun r => (r.1, r.1 + r.2.1, r.2.2)

theorem finishedClones_eq (minLength : ℤ) (i : ℕ) (runs : List (ℕ × ℕ)) :
    finishedClones minLength i runs
      = (RunTable.record minLength i runs).map fun r => (r.1, r.1 + r.2.1, r.2.2) := by
  simp [finishedClones, RunTable.record, Function.comp_def]

/-- The names of the predicates that hold at the position of an entry. -/
def offsetsAt (index : Dict Text (List ℕ)) (flat : List (Option FlatEntry))
    (e : Option FlatEntry × ℕ) : List ℕ :=
  match e with
  | (none, _) => []
  | (some entry, i) => currentOffsets flat i ((index.get? entry.norm).getD [])

/-- Reading an entry is one step of the table. -/
theorem CloneScan.Represents.read {scan : CloneScan} {T : RunTable} (h : scan.Represents T)
    (index : Dict Text (List ℕ)) (minLength : ℤ) (flat : List (Option FlatEntry))
    (e : Option FlatEntry × ℕ) :
    (scan.read index minLength flat e).Represents
      (T.advance minLength e.2 (offsetsAt index flat e)) := by
  obtain ⟨hactive, hcompleted⟩ := h
  obtain ⟨entry, i⟩ := e
  cases entry with
  | none =>
    constructor
    · simp [CloneScan.read, RunTable.advance, offsetsAt, Dict.filter, Dict.empty]
    · simp [CloneScan.read, RunTable.advance, offsetsAt, Dict.filter, hactive, hcompleted,
        finishedClones_eq]
  | some entry =>
    constructor
    · simp only [CloneScan.read, RunTable.advance, offsetsAt, hactive]
      rfl
    · simp only [CloneScan.read, RunTable.advance, offsetsAt, hactive, hcompleted,
        finishedClones_eq, List.map_append]
      rfl

theorem mem_offsetsAt {e : Option FlatEntry} {i : ℕ} (he : flat[i]? = some e) (o : ℕ) :
    o ∈ offsetsAt (invertedIndex maxFreq flat) flat (e, i) ↔ MatchesAt maxFreq flat o i := by
  cases e with
  | none =>
    constructor
    · intro h
      cases h
    · rintro ⟨-, norm, hnorm, -⟩
      simp [normAt, he] at hnorm
  | some entry =>
    have hnorm : normAt flat i = some entry.norm := normAt_eq_some.mpr ⟨entry, he, rfl⟩
    rw [offsetsAt, mem_currentOffsets]
    constructor
    · rintro ⟨ho, hother, hfreq⟩
      exact ⟨ho, entry.norm, hnorm, hother, hfreq⟩
    · rintro ⟨ho, norm, hthis, hother, hfreq⟩
      obtain rfl : entry.norm = norm := Option.some.inj (hnorm.symm.trans hthis)
      exact ⟨ho, hother, hfreq⟩

theorem nodup_offsetsAt (e : Option FlatEntry × ℕ) :
    (offsetsAt (invertedIndex maxFreq flat) flat e).Nodup := by
  obtain ⟨entry, i⟩ := e
  cases entry with
  | none => exact List.nodup_nil
  | some entry => exact nodup_currentOffsets i entry.norm

/-- **The scan tracks the matches**: after reading the entries up to a position, it represents a
table that tracks the matches at every distance up to there. -/
theorem tracks_scan (rest : List (Option FlatEntry)) {i : ℕ} (hrest : flat.drop i = rest)
    {scan : CloneScan} {T : RunTable} (hscan : scan.Represents T)
    (hT : T.Tracks (MatchesAt maxFreq flat) minLength i) :
    ∃ T' : RunTable,
      ((rest.zipIdx i).foldl (CloneScan.read (invertedIndex maxFreq flat) minLength flat)
        scan).Represents T' ∧
      T'.Tracks (MatchesAt maxFreq flat) minLength (i + rest.length) := by
  induction rest generalizing i scan T with
  | nil => exact ⟨T, hscan, hT⟩
  | cons e rest ih =>
    have he : flat[i]? = some e := by
      rw [← List.head?_drop, hrest, List.head?_cons]
    have hnext : flat.drop (i + 1) = rest := by
      rw [← List.tail_drop, hrest, List.tail_cons]
    have hstep := hT.advance (nodup_offsetsAt (e, i)) (mem_offsetsAt he)
    obtain ⟨T', hrep, htrack⟩ := ih hnext (hscan.read _ _ _ (e, i)) hstep
    refine ⟨T', hrep, ?_⟩
    rwa [List.length_cons, Nat.add_comm rest.length, ← Nat.add_assoc]

/-- A match that cannot be extended: `n` pairs of matching positions from `a` and `b` on. -/
structure MaximalMatch (maxFreq : ℤ) (flat : List (Option FlatEntry)) (a b n : ℕ) : Prop where
  lt : a < b
  same : ∀ k < n, Matches maxFreq flat (a + k) (b + k)
  stops : ¬ Matches maxFreq flat (a + n) (b + n)
  starts : a = 0 ∨ ¬ Matches maxFreq flat (a - 1) (b - 1)

/-- Maximal matches are the maximal runs at their distance. -/
theorem maximalRun_matchesAt {a o n : ℕ} (hn : 0 < n) :
    MaximalRun (MatchesAt maxFreq flat o) a n ↔ MaximalMatch maxFreq flat a (a + o) n := by
  have hshift : ∀ i, a + o + i = a + i + o := fun i => Nat.add_right_comm a o i
  constructor
  · intro h
    have ho : 0 < o := (h.holds 0 hn).1
    refine ⟨by omega, fun k hk => hshift k ▸ (h.holds k hk).2, fun hmatch => ?_, ?_⟩
    · exact h.stops ⟨ho, hshift n ▸ hmatch⟩
    · rcases h.starts with ha | ha
      · exact Or.inl ha
      · rcases Nat.eq_zero_or_pos a with hzero | hpos
        · exact Or.inl hzero
        · refine Or.inr fun hmatch => ha ⟨ho, ?_⟩
          rwa [show a - 1 + o = a + o - 1 by omega]
  · intro h
    have ho : 0 < o := Nat.lt_add_right_iff_pos.mp h.lt
    refine ⟨fun k hk => ⟨ho, hshift k ▸ h.same k hk⟩, fun hmatch => ?_, ?_⟩
    · exact h.stops (hshift n ▸ hmatch.2)
    · rcases h.starts with ha | ha
      · exact Or.inl ha
      · rcases Nat.eq_zero_or_pos a with hzero | hpos
        · exact Or.inl hzero
        · refine Or.inr fun hmatch => ha ?_
          rw [show a + o - 1 = a - 1 + o by omega]
          exact hmatch.2

/-- No statement stands behind the end of the list. -/
theorem not_matches_length (j : ℕ) : ¬ Matches maxFreq flat flat.length j := by
  rintro ⟨norm, hnorm, -⟩
  exact absurd (lt_length_of_normAt hnorm) (Nat.lt_irrefl _)

/-- A maximal match ends inside the list. -/
theorem MaximalMatch.add_le_length {a b n : ℕ} (h : MaximalMatch maxFreq flat a b n)
    (hn : 0 < n) : a + n ≤ flat.length := by
  obtain ⟨norm, hnorm, -⟩ := h.same (n - 1) (by omega)
  have hlt := lt_length_of_normAt hnorm
  omega

/-- The recorded triples are the runs of a table that tracks the whole list. -/
theorem completedClones_eq_closed (minLength maxFreq : ℤ) (flat : List (Option FlatEntry)) :
    ∃ T : RunTable, T.Tracks (MatchesAt maxFreq flat) minLength (flat.length + 1) ∧
      completedClones minLength maxFreq flat
        = T.closed.map fun r => (r.1, r.1 + r.2.1, r.2.2) := by
  have hstart : (⟨Dict.empty, []⟩ : CloneScan).Represents RunTable.empty := ⟨rfl, rfl⟩
  have htracks : RunTable.empty.Tracks (MatchesAt maxFreq flat) minLength 0 :=
    RunTable.tracks_empty
  obtain ⟨T, hrep, hT⟩ := tracks_scan flat List.drop_zero hstart htracks
  rw [Nat.zero_add] at hT
  -- the end of the list closes the open matches like a separator
  have hend := hrep.read Dict.empty minLength flat (none, flat.length)
  refine ⟨_, hT.advance List.nodup_nil fun o => ?_, hend.2⟩
  simp only [List.not_mem_nil, false_iff]
  exact fun h => not_matches_length _ h.2

variable (minLength maxFreq flat) in
/-- **The recorded triples are the maximal matches** that are not empty, each once. -/
theorem mem_completedClones_iff :
    (completedClones minLength maxFreq flat).Nodup ∧
      ∀ a b n, (a, b, n) ∈ completedClones minLength maxFreq flat ↔
        MaximalMatch maxFreq flat a b n ∧ 0 < n ∧ minLength ≤ n := by
  obtain ⟨T, hT, heq⟩ := completedClones_eq_closed minLength maxFreq flat
  rw [heq]
  refine ⟨hT.nodup.map ?_, fun a b n => ?_⟩
  · rintro ⟨s, o, n⟩ ⟨s', o', n'⟩ h
    simp only [Prod.mk.injEq] at h ⊢
    omega
  · simp only [List.mem_map, Prod.exists, Prod.mk.injEq, hT.closed]
    constructor
    · rintro ⟨s, o, m, ⟨hm, hlen, hrun, -⟩, rfl, rfl, rfl⟩
      exact ⟨(maximalRun_matchesAt hm).mp hrun, hm, hlen⟩
    · rintro ⟨hmatch, hn, hlen⟩
      have hb : a + (b - a) = b := Nat.add_sub_cancel' hmatch.lt.le
      refine ⟨a, b - a, n, ⟨hn, hlen, ?_, ?_⟩, rfl, hb, rfl⟩
      · rw [maximalRun_matchesAt hn, hb]
        exact hmatch
      · exact Nat.lt_succ_of_le (hmatch.add_le_length hn)

variable (maxFreq flat) in
/-- With a positive minimal length none of them is empty. -/
theorem mem_completedClones (hmin : 1 ≤ minLength) :
    (completedClones minLength maxFreq flat).Nodup ∧
      ∀ a b n, (a, b, n) ∈ completedClones minLength maxFreq flat ↔
        MaximalMatch maxFreq flat a b n ∧ minLength ≤ n := by
  obtain ⟨hnodup, hmem⟩ := mem_completedClones_iff maxFreq minLength flat
  refine ⟨hnodup, fun a b n => (hmem a b n).trans (and_congr_right fun _ => ?_)⟩
  constructor
  · exact And.right
  · exact fun hlen => ⟨by omega, hlen⟩

variable (U : CharTable) (sha256 : Text → Text) (type2Norm : Bool)

/-- **Exactness of the clone scan.** The detector reaches the scan for every representation without
cycles; whenever it does, the recorded triples are exactly the maximal matches of at least the
minimal length, each once, and both ranges of a triple lie inside one segment. -/
theorem cloneScan_exact (segments : List Segment) (minLength maxFreq : ℤ) (hmin : 1 ≤ minLength) :
    (Acyclic segments → (flatten U sha256 type2Norm segments).isSome) ∧
    ∀ flat, flatten U sha256 type2Norm segments = some flat →
      (completedClones minLength maxFreq flat).Nodup ∧
      (∀ a b n, (a, b, n) ∈ completedClones minLength maxFreq flat ↔
        MaximalMatch maxFreq flat a b n ∧ minLength ≤ n) ∧
      ∀ a b n, (a, b, n) ∈ completedClones minLength maxFreq flat →
        WithinSegment segments flat a n ∧ WithinSegment segments flat b n := by
  refine ⟨flatten_isSome U sha256 type2Norm, fun flat hflat => ?_⟩
  obtain ⟨hnodup, hmem⟩ := mem_completedClones maxFreq flat hmin
  refine ⟨hnodup, hmem, fun a b n h => ?_⟩
  obtain ⟨hmatch, hlen⟩ := (hmem a b n).mp h
  simp only [flatten, Option.bind_eq_bind, Option.bind_eq_some_iff] at hflat
  obtain ⟨T, -, hsegs⟩ := hflat
  have hn : 0 < n := by omega
  constructor
  · refine withinSegment_of_flatSegments hsegs hn fun k hk => ?_
    obtain ⟨norm, hnorm, -⟩ := hmatch.same k hk
    exact (normAt_eq_some.mp hnorm).imp fun entry he => he.1
  · refine withinSegment_of_flatSegments hsegs hn fun k hk => ?_
    obtain ⟨norm, -, hnorm, -⟩ := hmatch.same k hk
    exact (normAt_eq_some.mp hnorm).imp fun entry he => he.1

/-- Two functions with the same body. -/
def twinFunctions : List Segment :=
  let stmt := fun s : String => ({ raw := lit s, kind := .expr } : Statement)
  let function := fun (id : ℕ) (name : String) (stmts : List Statement) =>
    ({ id, parent := 0, type := .function, name := lit name, scopePath := lit "root." ++ lit name,
       head := some (lit "void " ++ lit name ++ lit "() {}"), stmts } : Segment)
  [{ id := 0, parent := 0, type := .root, name := lit "root", scopePath := lit "root", head := none,
     stmts := [stmt "void f() {}", stmt "void g() {}"] },
   function 1 "f" [stmt "x = 1;", stmt "y = x;"], function 2 "g" [stmt "x = 1;", stmt "y =  x;"]]

theorem cloneScan_exact_twinFunctions :
    MaximalMatch 0 ((flatten .ascii id false twinFunctions).getD []) 3 6 2 := by
  have hflat : flatten .ascii id false twinFunctions
      = some ((flatten .ascii id false twinFunctions).getD []) := by decide +kernel
  have hscan := (cloneScan_exact .ascii id false twinFunctions 2 0 (by decide)).2 _ hflat
  exact ((hscan.2.1 3 6 2).mp (by decide +kernel)).1

end Csc512
