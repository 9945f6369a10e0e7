import Csc512.Cdup.CloneReport
import Csc512.Cdup.NearMissClusters

/-!
# Classes of near misses

The classes are the components of the graph of near misses. Pairs that are excluded are no edges of
the graph, but nothing keeps their segments apart: a chain of other near misses puts them into one
class. And a pair of segments with windows that deserve a report is no edge if its longest windows
do not deserve one.

## Main results

* `exists_class_iff` — which segments stand together in a class
* `excluded_apart_iff` — when no class contains an excluded pair
* `reported_iff` — when windows that deserve a report are in a class
* `not_respectsExclusions_threeFunctions`, `not_reported_sharedIdiom` — where this fails
-/

namespace Csc512

/-! ### Classes -/

/-- Two segments are joined by a chain of pairs to a segment that is not the first one. -/
def Joined (edge : ℕ → ℕ → Prop) (a b : ℕ) : Prop :=
  Relation.EqvGen edge a b ∧ ∃ c, c ≠ a ∧ Relation.EqvGen edge a c

theorem joined_of_ne {edge : ℕ → ℕ → Prop} {a b : ℕ} (hab : a ≠ b) :
    Joined edge a b ↔ Relation.EqvGen edge a b :=
  ⟨fun h => h.1, fun h => ⟨h, b, hab.symm, h⟩⟩

/-- **Which segments stand together in a class**: the ones that are joined by a chain of pairs. -/
theorem exists_class_iff (segments : List Segment) (pairs : List ClonePair) (a b : ℕ) :
    (∃ clone ∈ nearMissClasses segments pairs, a ∈ clone.segIds ∧ b ∈ clone.segIds) ↔
      Joined (fun x y => (x, y) ∈ pairs.map ClonePair.key) a b := by
  obtain ⟨root, components, classPairs, hgroups, hclasses⟩ := exists_groups pairs
  rw [hclasses segments]
  have hmem : ∀ (item : ℕ × List ℕ) id, id ∈ item.2.insertionSort (· ≤ ·) ↔ id ∈ item.2 :=
    fun item id => List.mem_insertionSort _
  constructor
  · rintro ⟨clone, hclone, ha, hb⟩
    obtain ⟨item, hitem, hlen, hids, -⟩ := hgroups.of_mem hclone
    rw [hids, hmem] at ha hb
    obtain ⟨c, hc, hca⟩ := (two_le_length_iff (hgroups.nodup item hitem) ha).mp hlen
    have hiff := hgroups.mem_iff hitem ha
    exact ⟨(hiff b).mp hb, c, hca, (hiff c).mp hc⟩
  · rintro ⟨hab, c, hca, hac⟩
    obtain ⟨item, hitem, ha⟩ := hgroups.total a (touches_of_eqvGen hac hca.symm).1
    have hiff := hgroups.mem_iff hitem ha
    have hlen := (two_le_length_iff (hgroups.nodup item hitem) ha).mpr ⟨c, (hiff c).mpr hac, hca⟩
    obtain ⟨clone, hclone, hids⟩ := hgroups.exists_mem segments hitem hlen
    refine ⟨clone, hclone, ?_, ?_⟩
    · rw [hids, hmem]
      exact ha
    · rw [hids, hmem]
      exact (hiff b).mpr hab

/-! ### Running the detector -/

section Detect

variable {m : Matcher} {segments : List Segment} {sequences : Dict ℕ (List SeqEntry)}
  {threshold : ℚ} {minLength : ℕ} {windowSizes : List ℕ} {excludeSegPairs : List (ℕ × ℕ)}

theorem mem_windowStarts {same : Bool} {lengthA lengthB w a b : ℕ} :
    (a, b) ∈ windowStarts same lengthA lengthB w ↔
      a + w ≤ lengthA ∧ b + w ≤ lengthB ∧
        (same = true → a + 1 ≤ b ∧ (a + w ≤ b ∨ b + w ≤ a)) := by
  unfold windowStarts
  split
  · rename_i h
    constructor
    · exact fun hmem => absurd hmem List.not_mem_nil
    · rintro ⟨hA, hB, -⟩
      omega
  · rename_i h
    simp only [List.mem_flatMap, List.mem_map, List.mem_filter, List.mem_range, Prod.mk.injEq,
      decide_eq_true_eq]
    constructor
    · rintro ⟨a', ha, b', ⟨hb, hsame⟩, rfl, rfl⟩
      exact ⟨by omega, by omega, hsame⟩
    · rintro ⟨hA, hB, hsame⟩
      exact ⟨a, by omega, b, ⟨by omega, hsame⟩, rfl, rfl⟩

theorem mapM_eq_none {α β : Type} {f : α → Option β} {l : List α} (h : l.mapM f = none) :
    ∃ x ∈ l, f x = none := by
  by_contra hall
  push Not at hall
  obtain ⟨r, hr, -⟩ := exists_mapM fun x hx => Option.isSome_iff_ne_none.mpr (hall x hx)
  rw [h] at hr
  cases hr

theorem isSome_of_mapM {α β : Type} {f : α → Option β} {l : List α} {ys : List β}
    (h : l.mapM f = some ys) : ∀ x ∈ l, (f x).isSome := by
  induction l generalizing ys with
  | nil => exact fun x hx => absurd hx List.not_mem_nil
  | cons x l ih =>
    rw [List.mapM_cons] at h
    simp only [Option.bind_eq_bind, Option.bind_eq_some_iff] at h
    obtain ⟨y, hy, ys, hys, -⟩ := h
    intro z hz
    rcases List.mem_cons.mp hz with rfl | hz
    · rw [hy]
      rfl
    · exact ih hys z hz

theorem length_window {seq : List SeqEntry} {start w : ℕ} (h : start + w ≤ seq.length) :
    (window seq start w).length = w := by
  rw [window, List.length_take, List.length_drop]
  omega

/-- Only an empty window has no record, and only a threshold of zero lets it pass. -/
theorem of_nearMisses_eq_none {a b : ℕ} {seqA seqB : List SeqEntry}
    (h : nearMisses m threshold windowSizes a b seqA seqB = none) :
    0 ∈ windowSizes ∧ threshold ≤ 0 := by
  obtain ⟨⟨w, windowA, windowB⟩, hv, hnone⟩ := mapM_eq_none h
  obtain ⟨hv, hmiss⟩ := List.mem_filter.mp hv
  obtain ⟨w', hw, hv⟩ := List.mem_flatMap.mp hv
  obtain ⟨⟨i, j⟩, hij, heq⟩ := List.mem_map.mp hv
  simp only [Prod.mk.injEq] at heq
  obtain ⟨rfl, rfl, rfl⟩ := heq
  obtain ⟨hA, hB, -⟩ := mem_windowStarts.mp hij
  have hlenA := length_window hA
  have hlenB := length_window hB
  have hzero : w' = 0 := by
    by_contra hne
    obtain ⟨x, xs, hx⟩ := List.exists_cons_of_ne_nil
      (List.ne_nil_of_length_pos (by omega : 0 < (window seqA i w').length))
    obtain ⟨y, ys, hy⟩ := List.exists_cons_of_ne_nil
      (List.ne_nil_of_length_pos (by omega : 0 < (window seqB j w').length))
    simp [clonePairOf, hx, hy, List.getLast?_cons] at hnone
  subst hzero
  refine ⟨hw, ?_⟩
  have hnil := List.eq_nil_of_length_eq_zero hlenA
  have hle : threshold ≤ sequenceSimilarity m (window seqA i 0) (window seqB j 0) :=
    (of_decide_eq_true hmiss).1
  rwa [sequenceSimilarity, if_pos (.inl hnil)] at hle

/-- With an empty window and a threshold of zero, two segments that have any windows at all have a
window without a record. -/
theorem nearMisses_eq_none {a b : ℕ} {seqA seqB : List SeqEntry} (hzero : 0 ∈ windowSizes)
    (hthreshold : threshold ≤ 0) (hlen : a = b → 0 < seqB.length) :
    nearMisses m threshold windowSizes a b seqA seqB = none := by
  cases hmisses : nearMisses m threshold windowSizes a b seqA seqB with
  | none => rfl
  | some misses =>
    have hstart : (0, seqB.length) ∈ windowStarts (a = b) seqA.length seqB.length 0 := by
      refine mem_windowStarts.mpr ⟨by omega, by omega, fun hab => ⟨?_, .inl (by omega)⟩⟩
      exact hlen (of_decide_eq_true hab)
    have hmem : ((0 : ℕ), window seqA 0 0, window seqB seqB.length 0) ∈
        (windowSizes.flatMap fun w => (windowStarts (a = b) seqA.length seqB.length w).map fun p =>
          (w, window seqA p.1 w, window seqB p.2 w)).filter fun v =>
            isNearMiss m threshold v.2.1 v.2.2 := by
      refine List.mem_filter.mpr ⟨List.mem_flatMap.mpr ⟨0, hzero, List.mem_map_of_mem hstart⟩, ?_⟩
      refine decide_eq_true ?_
      rw [sequenceSimilarity, if_pos (.inl rfl)]
      exact ⟨hthreshold, zero_lt_one⟩
    have hsome := isSome_of_mapM hmisses _ hmem
    cases hsome

/-- Where two segments are near misses, no window is without a record. -/
theorem exists_clonePairs_of_nearMiss {a b : ℕ}
    (h : NearMiss m segments sequences threshold minLength windowSizes excludeSegPairs a b) :
    ∃ pairs, clonePairs m segments sequences threshold minLength windowSizes excludeSegPairs
      = some pairs := by
  obtain ⟨-, misses, c, hmisses, hbest, -⟩ := h
  have hc : c ∈ misses := (List.mem_insertionSort _).mp (List.mem_of_head? hbest)
  have hnot : ¬ (0 ∈ windowSizes ∧ threshold ≤ 0) := by
    rintro ⟨hzero, hthreshold⟩
    unfold pairMisses at hmisses
    split at hmisses
    · rename_i seqA seqB hA hB
      split at hmisses
      · obtain rfl := Option.some.inj hmisses
        exact List.not_mem_nil hc
      · rw [nearMisses_eq_none hzero hthreshold fun hab => ?_] at hmisses
        · cases hmisses
        · -- a segment with two windows has statements
          obtain ⟨v, hv, -⟩ := exists_of_mem_mapM hmisses hc
          obtain ⟨w, -, hv⟩ := List.mem_flatMap.mp (List.mem_of_mem_filter hv)
          obtain ⟨p, hp, -⟩ := List.mem_map.mp hv
          obtain ⟨-, hlen, hsame⟩ := mem_windowStarts.mp hp
          have := (hsame (decide_eq_true hab)).1
          omega
    · obtain rfl := Option.some.inj hmisses
      exact List.not_mem_nil hc
  have hall : ∀ p ∈ segPairs ((sequences.entries.map Prod.fst).insertionSort (· ≤ ·)),
      (pairMisses m segments sequences threshold minLength windowSizes excludeSegPairs
        p.1 p.2).isSome := by
    intro p _
    unfold pairMisses
    split
    · split
      · rfl
      · rw [Option.isSome_iff_ne_none]
        exact fun hnone => hnot (of_nearMisses_eq_none hnone)
    · rfl
  obtain ⟨found, hfound, -⟩ := exists_mapM hall
  exact ⟨found.flatten, by rw [clonePairs, hfound]; rfl⟩

/-- Some near miss is on a chain to somewhere else. -/
theorem Joined.exists_edge {edge : ℕ → ℕ → Prop} {a b : ℕ} (h : Joined edge a b) :
    ∃ x y, edge x y := by
  obtain ⟨-, c, hca, hac⟩ := h
  obtain ⟨⟨d, hd | hd⟩, -⟩ := exists_edge_of_eqvGen hac hca.symm
  · exact ⟨a, d, hd⟩
  · exact ⟨d, a, hd⟩

variable (U : CharTable) (sha256 : Text → Text)

/-- **The classes of the detector** are the components of the graph of near misses. -/
theorem exists_detected_iff (hseq : buildFlatSequences U sha256 segments = some sequences)
    (windows : Option (List ℕ)) (a b : ℕ) :
    (∃ classes, detectType3 U sha256 m segments threshold minLength windows excludeSegPairs
        = some classes ∧ ∃ clone ∈ classes, a ∈ clone.segIds ∧ b ∈ clone.segIds) ↔
      Joined (NearMiss m segments sequences threshold minLength
        (windowList sequences minLength windows) excludeSegPairs) a b := by
  have hrun : ∀ {pairs}, clonePairs m segments sequences threshold minLength
      (windowList sequences minLength windows) excludeSegPairs = some pairs →
      detectType3 U sha256 m segments threshold minLength windows excludeSegPairs
        = some (nearMissClasses segments (filteredPairs pairs)) := by
    intro pairs hpairs
    rw [detectType3, hseq, Option.bind_eq_bind, Option.bind_some, hpairs]
    rfl
  have hedge : ∀ {pairs}, clonePairs m segments sequences threshold minLength
      (windowList sequences minLength windows) excludeSegPairs = some pairs →
      (fun x y => (x, y) ∈ (filteredPairs pairs).map ClonePair.key)
        = NearMiss m segments sequences threshold minLength
          (windowList sequences minLength windows) excludeSegPairs := by
    intro pairs hpairs
    funext x y
    exact propext (mem_keys_filteredPairs_iff m hpairs x y)
  constructor
  · rintro ⟨classes, hclasses, hclone⟩
    cases hpairs : clonePairs m segments sequences threshold minLength
        (windowList sequences minLength windows) excludeSegPairs with
    | none =>
      rw [detectType3, hseq, Option.bind_eq_bind, Option.bind_some, hpairs] at hclasses
      cases hclasses
    | some pairs =>
      rw [hrun hpairs] at hclasses
      obtain rfl := Option.some.inj hclasses
      exact hedge hpairs ▸ (exists_class_iff segments _ a b).mp hclone
  · intro h
    obtain ⟨x, y, hxy⟩ := h.exists_edge
    obtain ⟨pairs, hpairs⟩ := exists_clonePairs_of_nearMiss hxy
    refine ⟨_, hrun hpairs, (exists_class_iff segments _ a b).mpr ?_⟩
    rw [hedge hpairs]
    exact h

/-! ### Excluded pairs -/

theorem mem_coveredPairs {reported : List (List ℕ)} {a b : ℕ} (hab : a ≠ b) :
    (min a b, max a b) ∈ coveredPairs reported ↔ ∃ sids ∈ reported, a ∈ sids ∧ b ∈ sids := by
  have hminmax : ∀ {x y : ℕ}, (min x y, max x y) = (min a b, max a b) ↔
      x = a ∧ y = b ∨ x = b ∧ y = a := by
    intro x y
    rw [Prod.mk.injEq]
    omega
  simp only [coveredPairs, List.mem_flatMap, List.mem_filterMap, List.mem_range,
    Option.bind_eq_bind, Option.bind_eq_some_iff, Option.some.injEq, hminmax]
  constructor
  · rintro ⟨sids, hsids, i, -, j, -, x, hx, y, hy, ⟨rfl, rfl⟩ | ⟨rfl, rfl⟩⟩
    · exact ⟨sids, hsids, List.mem_of_getElem? hx, List.mem_of_getElem? hy⟩
    · exact ⟨sids, hsids, List.mem_of_getElem? hy, List.mem_of_getElem? hx⟩
  · rintro ⟨sids, hsids, ha, hb⟩
    obtain ⟨i, hi⟩ := List.mem_iff_getElem?.mp ha
    obtain ⟨j, hj⟩ := List.mem_iff_getElem?.mp hb
    have hilt := (List.getElem?_eq_some_iff.mp hi).1
    have hjlt := (List.getElem?_eq_some_iff.mp hj).1
    rcases Nat.lt_trichotomy i j with hij | rfl | hij
    · exact ⟨sids, hsids, i, hilt, j, List.mem_range'_1.mpr (by omega), a, hi, b, hj, .inl ⟨rfl, rfl⟩⟩
    · exact absurd (Option.some.inj (hi.symm.trans hj)) hab
    · exact ⟨sids, hsids, j, hjlt, i, List.mem_range'_1.mpr (by omega), b, hj, a, hi, .inr ⟨rfl, rfl⟩⟩

/-- No class contains two segments that are an excluded pair. -/
def RespectsExclusions (classes : List NearMissClass) (excludeSegPairs : List (ℕ × ℕ)) : Prop :=
  ∀ clone ∈ classes, ∀ a ∈ clone.segIds, ∀ b ∈ clone.segIds, a ≠ b →
    (min a b, max a b) ∉ excludeSegPairs

/-- **When no class contains an excluded pair**: exactly if no chain of near misses leads from one
segment of an excluded pair to the other one. With the exclusions of the command, these are the
pairs of segments that stand together in a class of another type. -/
theorem respectsExclusions_iff {windows : Option (List ℕ)} {classes : List NearMissClass}
    (hdetect : detectType3 U sha256 m segments threshold minLength windows excludeSegPairs
      = some classes) :
    ∃ sequences, buildFlatSequences U sha256 segments = some sequences ∧
      (RespectsExclusions classes excludeSegPairs ↔
        ∀ a b, a ≠ b → (min a b, max a b) ∈ excludeSegPairs →
          ¬ Relation.EqvGen (NearMiss m segments sequences threshold minLength
            (windowList sequences minLength windows) excludeSegPairs) a b) ∧
      ∀ reported, excludeSegPairs = coveredPairs reported →
        (RespectsExclusions classes excludeSegPairs ↔
          ∀ sids ∈ reported, ∀ a ∈ sids, ∀ b ∈ sids, a ≠ b →
            ¬ Relation.EqvGen (NearMiss m segments sequences threshold minLength
              (windowList sequences minLength windows) excludeSegPairs) a b) := by
  cases hseq : buildFlatSequences U sha256 segments with
  | none =>
    rw [detectType3, hseq] at hdetect
    cases hdetect
  | some sequences =>
    have htogether : ∀ a b, a ≠ b → ((∃ clone ∈ classes, a ∈ clone.segIds ∧ b ∈ clone.segIds) ↔
        Relation.EqvGen (NearMiss m segments sequences threshold minLength
          (windowList sequences minLength windows) excludeSegPairs) a b) := by
      intro a b hab
      rw [← joined_of_ne hab, ← exists_detected_iff U sha256 hseq windows a b, hdetect]
      simp
    have hiff : RespectsExclusions classes excludeSegPairs ↔
        ∀ a b, a ≠ b → (min a b, max a b) ∈ excludeSegPairs →
          ¬ Relation.EqvGen (NearMiss m segments sequences threshold minLength
            (windowList sequences minLength windows) excludeSegPairs) a b := by
      constructor
      · intro h a b hab hexcluded hchain
        obtain ⟨clone, hclone, ha, hb⟩ := (htogether a b hab).mpr hchain
        exact h clone hclone a ha b hb hab hexcluded
      · intro h clone hclone a ha b hb hab hexcluded
        exact h a b hab hexcluded ((htogether a b hab).mp ⟨clone, hclone, ha, hb⟩)
    refine ⟨sequences, rfl, hiff, ?_⟩
    rintro reported rfl
    rw [hiff]
    constructor
    · exact fun h sids hsids a ha b hb hab =>
        h a b hab ((mem_coveredPairs hab).mpr ⟨sids, hsids, ha, hb⟩)
    · intro h a b hab hexcluded
      obtain ⟨sids, hsids, ha, hb⟩ := (mem_coveredPairs hab).mp hexcluded
      exact h sids hsids a ha b hb hab

/-! ### Windows that deserve a report -/

/-- Two windows of `w` statements deserve a report: they are windows of two segments that are
compared and not excluded, the segment with the smaller number first, or windows of one segment that
do not overlap; they are similar enough, but not equal; and at most half of the statements differ on
either side. -/
structure WorthReporting (m : Matcher) (segments : List Segment)
    (sequences : Dict ℕ (List SeqEntry)) (threshold : ℚ) (windowSizes : List ℕ)
    (excludeSegPairs : List (ℕ × ℕ)) (a b w i j : ℕ) (seqA seqB : List SeqEntry) : Prop where
  entriesA : sequences.get? a = some seqA
  entriesB : sequences.get? b = some seqB
  comparedA : isCompared segments a = true
  comparedB : isCompared segments b = true
  ordered : a ≤ b
  size : w ∈ windowSizes
  insideA : i + w ≤ seqA.length
  insideB : j + w ≤ seqB.length
  disjoint : a = b → i + w ≤ j
  similar : isNearMiss m threshold (window seqA i w) (window seqB j w) = true
  diffsA : 2 * (getDiffRegions m (window seqA i w) (window seqB j w)).1.length ≤ w
  diffsB : 2 * (getDiffRegions m (window seqA i w) (window seqB j w)).2.length ≤ w
  notExcluded : (a, b) ∉ excludeSegPairs

/-- **When everything that deserves a report is in a class.** The detector puts the two segments of
all windows that deserve a report into a class exactly if near misses join them, where only the best
windows of two segments count. Windows of one segment are in a class only if the segment is a near
miss of another one. -/
theorem reported_iff (hseq : buildFlatSequences U sha256 segments = some sequences)
    (windows : Option (List ℕ)) :
    (∀ a b w i j seqA seqB, WorthReporting m segments sequences threshold
        (windowList sequences minLength windows) excludeSegPairs a b w i j seqA seqB →
      ∃ classes, detectType3 U sha256 m segments threshold minLength windows excludeSegPairs
        = some classes ∧ ∃ clone ∈ classes, a ∈ clone.segIds ∧ b ∈ clone.segIds) ↔
    ∀ a b w i j seqA seqB, WorthReporting m segments sequences threshold
        (windowList sequences minLength windows) excludeSegPairs a b w i j seqA seqB →
      Joined (NearMiss m segments sequences threshold minLength
        (windowList sequences minLength windows) excludeSegPairs) a b := by
  constructor
  · intro h a b w i j seqA seqB hworth
    exact (exists_detected_iff U sha256 hseq windows a b).mp (h a b w i j seqA seqB hworth)
  · intro h a b w i j seqA seqB hworth
    exact (exists_detected_iff U sha256 hseq windows a b).mpr (h a b w i j seqA seqB hworth)

end Detect

/-! ### Three functions -/

/-- A comparison by position: texts that are not equal are similar to four fifths. -/
def byPosition : Matcher where
  ratio s t := if s = t then 1 else 4 / 5
  equalRegions a b := ((a.zip b).zipIdx.filter fun e => e.1.1 = e.1.2).map fun e =>
    ((e.2, e.2 + 1), (e.2, e.2 + 1))

/-- Functions with these statements, numbered from 1 on. -/
def functionsOf (bodies : List (List String)) : List Segment :=
  { id := 0, parent := 0, type := .root, name := lit "root", scopePath := lit "root", head := none }
    :: (bodies.zipIdx 1).map fun e =>
      { id := e.2, parent := 0, type := .function, name := ['f'], scopePath := lit "root.f"
        head := some (lit "void f() {}")
        stmts := e.1.map fun s => { raw := lit s, kind := .expr } }

/-- Three functions that differ in their last statements. -/
def threeFunctions : List Segment :=
  functionsOf [["x = 1;", "y = 2;", "a + b;"], ["x = 1;", "y = 2;", "a - b;"],
    ["x = 1;", "y = 2;", "a * b;"]]

instance (classes : List NearMissClass) (excludeSegPairs : List (ℕ × ℕ)) :
    Decidable (RespectsExclusions classes excludeSegPairs) :=
  inferInstanceAs (Decidable (∀ clone ∈ classes, ∀ a ∈ clone.segIds, ∀ b ∈ clone.segIds,
    a ≠ b → (min a b, max a b) ∉ excludeSegPairs))

theorem detectType3_threeFunctions :
    detectType3 .ascii id byPosition threeFunctions (7 / 10) 3 none (coveredPairs [[1, 3]])
      = some ((detectType3 .ascii id byPosition threeFunctions (7 / 10) 3 none
          (coveredPairs [[1, 3]])).getD []) :=
  eq_some_getD (by decide +kernel) _

theorem respectsExclusions_iff_threeFunctions :
    ∃ sequences, buildFlatSequences .ascii id threeFunctions = some sequences ∧
      (RespectsExclusions ((detectType3 .ascii id byPosition threeFunctions (7 / 10) 3 none
          (coveredPairs [[1, 3]])).getD []) (coveredPairs [[1, 3]]) ↔
        ∀ a b, a ≠ b → (min a b, max a b) ∈ coveredPairs [[1, 3]] →
          ¬ Relation.EqvGen (NearMiss byPosition threeFunctions sequences (7 / 10) 3
            (windowList sequences 3 none) (coveredPairs [[1, 3]])) a b) := by
  obtain ⟨sequences, hseq, hiff, -⟩ := respectsExclusions_iff .ascii id
    detectType3_threeFunctions
  exact ⟨sequences, hseq, hiff⟩

/-- **A chain around an exclusion.** The first and the third function stand together in a class of
another type, so they are not compared; the second one is a near miss of both. -/
theorem not_respectsExclusions_threeFunctions :
    ¬ ∀ (segments : List Segment) (reported : List (List ℕ)) (classes : List NearMissClass),
      detectType3 .ascii id byPosition segments (7 / 10) 3 none (coveredPairs reported)
        = some classes → RespectsExclusions classes (coveredPairs reported) := by
  intro h
  have hapart := h threeFunctions [[1, 3]] _ detectType3_threeFunctions
  exact absurd hapart (by decide +kernel)

/-- Two functions that begin with the same two statements but for one operator. -/
def sharedIdiom : List Segment :=
  functionsOf [["x = 1;", "a + b;", "u;", "f(v);"], ["x = 1;", "a - b;", "v[0];", "break;"]]

/-- The sequences of the two functions. -/
def sharedIdiomSequences : Dict ℕ (List SeqEntry) :=
  (buildFlatSequences .ascii id sharedIdiom).getD Dict.empty

theorem buildFlatSequences_sharedIdiom :
    buildFlatSequences .ascii id sharedIdiom = some sharedIdiomSequences :=
  eq_some_getD (by decide +kernel) _

theorem worthReporting_sharedIdiom :
    WorthReporting byPosition sharedIdiom sharedIdiomSequences (7 / 10)
      (windowList sharedIdiomSequences 2 (some [2, 4])) [] 1 2 2 0 0
      ((sharedIdiomSequences.get? 1).getD []) ((sharedIdiomSequences.get? 2).getD []) where
  entriesA := eq_some_getD (by decide +kernel) _
  entriesB := eq_some_getD (by decide +kernel) _
  comparedA := by decide +kernel
  comparedB := by decide +kernel
  ordered := by decide
  size := by decide +kernel
  insideA := by decide +kernel
  insideB := by decide +kernel
  disjoint := nofun
  similar := by decide +kernel
  diffsA := by decide +kernel
  diffsB := by decide +kernel
  notExcluded := List.not_mem_nil

theorem reported_iff_sharedIdiom :
    (∀ a b w i j seqA seqB, WorthReporting byPosition sharedIdiom sharedIdiomSequences (7 / 10)
        (windowList sharedIdiomSequences 2 (some [2])) [] a b w i j seqA seqB →
      ∃ classes, detectType3 .ascii id byPosition sharedIdiom (7 / 10) 2 (some [2]) []
        = some classes ∧ ∃ clone ∈ classes, a ∈ clone.segIds ∧ b ∈ clone.segIds) ↔
    ∀ a b w i j seqA seqB, WorthReporting byPosition sharedIdiom sharedIdiomSequences (7 / 10)
        (windowList sharedIdiomSequences 2 (some [2])) [] a b w i j seqA seqB →
      Joined (NearMiss byPosition sharedIdiom sharedIdiomSequences (7 / 10) 2
        (windowList sharedIdiomSequences 2 (some [2])) []) a b :=
  reported_iff .ascii id buildFlatSequences_sharedIdiom (some [2])

/-- **The longest windows stand in the way.** The first two statements of the functions deserve a
report; but windows of all four statements are as similar and longer, so these are the ones that are
kept, and more than half of their statements differ. -/
theorem not_reported_sharedIdiom :
    ¬ ∀ (segments : List Segment) (sequences : Dict ℕ (List SeqEntry)) (windows : List ℕ),
      buildFlatSequences .ascii id segments = some sequences →
      ∀ a b w i j seqA seqB, WorthReporting byPosition segments sequences (7 / 10)
        (windowList sequences 2 (some windows)) [] a b w i j seqA seqB →
      ∃ classes, detectType3 .ascii id byPosition segments (7 / 10) 2 (some windows) []
        = some classes ∧ ∃ clone ∈ classes, a ∈ clone.segIds ∧ b ∈ clone.segIds := by
  intro h
  obtain ⟨classes, hclasses, clone, hclone, -⟩ := h sharedIdiom sharedIdiomSequences [2, 4]
    buildFlatSequences_sharedIdiom 1 2 2 0 0 _ _ worthReporting_sharedIdiom
  have hnone : ((detectType3 .ascii id byPosition sharedIdiom (7 / 10) 2 (some [2, 4]) []).map
      List.length) = some 0 := by decide +kernel
  rw [hclasses, Option.map_some, Option.some.injEq, List.length_eq_zero_iff] at hnone
  exact List.not_mem_nil (hnone ▸ hclone)

end Csc512
