import Csc512.Cdup.NearMissFilters
import Csc512.Lib.DoubleRounding
import Mathlib.Data.Set.Finite.Basic
import Mathlib.Order.Bounds.Basic

/-!
# Clusters of near misses

The pairs that the filters leave are the edges of a graph on the segments. The detector unites the
ends of every pair, groups the segments and the pairs by their roots, and makes a class of every
group with two segments. It remembers for every segment the best of its records.

## Main results

* `exists_groups` — the groups are the components
* `recordsBest_segOccurrence` — the records that are kept
* `nearMissClasses_clusters` — the classes are the components with two segments
-/

namespace Csc512

/-! ### Similarities -/

/-- Rounding twice is rounding once. -/
theorem round4_round4 (q : ℚ) : round4 (round4 q) = round4 q := by
  have hmul : round4 q * 10000 = (roundHalfEven (q * 10000) : ℚ) := by
    rw [round4, div_mul_cancel₀ _ (by norm_num)]
  rw [round4, hmul, roundHalfEven_intCast, ← round4]

/-- The similarities of the pairs are rounded to four digits. -/
def Rounded (pairs : List ClonePair) : Prop := ∀ c ∈ pairs, round4 c.similarity = c.similarity

/-- The detector rounds the similarities of its pairs. -/
theorem rounded_clonePairs (m : Matcher) {segments : List Segment}
    {sequences : Dict ℕ (List SeqEntry)} {threshold : ℚ} {minLength : ℕ} {windowSizes : List ℕ}
    {excludeSegPairs : List (ℕ × ℕ)} {pairs : List ClonePair}
    (h : clonePairs m segments sequences threshold minLength windowSizes excludeSegPairs
      = some pairs) : Rounded (filteredPairs pairs) := by
  have hpairs : Rounded pairs := by
    intro c hc
    simp only [clonePairs, Option.bind_eq_bind, Option.bind_eq_some_iff] at h
    obtain ⟨found, hfound, heq⟩ := h
    obtain rfl := Option.some.inj heq
    obtain ⟨misses, hmisses, hc⟩ := List.mem_flatten.mp hc
    obtain ⟨p, -, hp⟩ := exists_of_mem_mapM hfound hmisses
    unfold pairMisses at hp
    split at hp
    · split at hp
      · obtain rfl := Option.some.inj hp
        exact absurd hc List.not_mem_nil
      · obtain ⟨v, -, hv⟩ := exists_of_mem_mapM hp hc
        simp only [clonePairOf, Option.bind_eq_bind, Option.bind_eq_some_iff] at hv
        obtain ⟨firstA, -, lastA, -, firstB, -, lastB, -, heq⟩ := hv
        obtain rfl := Option.some.inj heq
        exact round4_round4 _
    · obtain rfl := Option.some.inj hp
      exact absurd hc List.not_mem_nil
  intro c hc
  have hbest := ((mem_filteredPairs_iff (oriented_clonePairs m h) c).mp hc).1
  have hmem := (List.mem_insertionSort _).mp (List.mem_of_mem_head? hbest)
  exact hpairs c (List.mem_filter.mp hmem).1

/-! ### Grouping by roots -/

theorem UnionFind.find_find (u : UnionFind ℕ) (x y : ℕ) :
    ((u.find x).2.find y).1 = (u.find y).1 :=
  (((UnionFind.root_find u x).2 _ _).mp (UnionFind.root_find (u.find x).2 y).1).unique
    (UnionFind.root_find u y).1

/-- Grouping pairs does not change the roots, and extends the groups. -/
theorem groupByRoot_spec {α : Type} (add : List α → ClonePair → List α) (pairs : List ClonePair)
    (root : ℕ → ℕ) (u : UnionFind ℕ) (hroot : ∀ x, (u.find x).1 = root x)
    (d : Dict ℕ (List α)) :
    (∀ x, ((groupByRoot add pairs u d).1.find x).1 = root x) ∧
      (groupByRoot add pairs u d).2 = Dict.extend (fun c => root c.segA) add pairs d := by
  induction pairs generalizing u d with
  | nil => exact ⟨hroot, rfl⟩
  | cons c pairs ih =>
    obtain ⟨hroots, hgroups⟩ := ih (u.find c.segA).2
      (fun x => (u.find_find c.segA x).trans (hroot x))
      (d.upsert (u.find c.segA).1 fun s => add (s.getD []) c)
    refine ⟨hroots, hgroups.trans ?_⟩
    rw [hroot]
    rfl

/-- The graph of the pairs. -/
def IsEdge (pairs : List ClonePair) (a b : ℕ) : Prop := (a, b) ∈ pairs.map ClonePair.key

/-- The segment is one of the two of the pair. -/
def ClonePair.Touches (c : ClonePair) (id : ℕ) : Prop := id = c.segA ∨ id = c.segB

/-- The groups of segments and of pairs, by roots. -/
structure Groups (pairs : List ClonePair) (root : ℕ → ℕ) (components : Dict ℕ (List ℕ))
    (classPairs : Dict ℕ (List ClonePair)) : Prop where
  root_eq : ∀ x y, root x = root y ↔ Relation.EqvGen (IsEdge pairs) x y
  members : ∀ item ∈ components.entries, ∀ x,
    x ∈ item.2 ↔ root x = item.1 ∧ ∃ c ∈ pairs, c.Touches x
  nodup : ∀ item ∈ components.entries, item.2.Nodup
  total : ∀ x, (∃ c ∈ pairs, c.Touches x) → ∃ item ∈ components.entries, x ∈ item.2
  pairs : ∀ k c, c ∈ (classPairs.get? k).getD [] ↔ c ∈ pairs ∧ root c.segA = k

/-- Number the classes. -/
def numberClasses (classes : List NearMissClass) : List NearMissClass :=
  (classes.zipIdx 1).map fun p => { p.1 with id := p.2 }

/-- **The groups are the components** of the graph. -/
theorem exists_groups (pairs : List ClonePair) : ∃ root components classPairs,
    Groups pairs root components classPairs ∧ ∀ segments, nearMissClasses segments pairs =
      numberClasses ((components.entries.insertionSort fun x y =>
        y.2.length ≤ x.2.length).filterMap (nearMissClass segments pairs classPairs)) := by
  have hsame := UnionFind.same_unionAll (pairs.map ClonePair.key)
  unfold nearMissClasses
  generalize UnionFind.unionAll (pairs.map ClonePair.key) = u at hsame
  have hroot : ∀ x y, (u.find x).1 = (u.find y).1 ↔ Relation.EqvGen (IsEdge pairs) x y :=
    fun x y => (UnionFind.find_eq_iff_same u x y).trans (hsame x y)
  obtain ⟨hroots, hcomponents⟩ := groupByRoot_spec
    (fun s c => setAdd (setAdd s c.segA) c.segB) pairs (fun x => (u.find x).1) u (fun _ => rfl)
    Dict.empty
  obtain ⟨-, hpairs⟩ := groupByRoot_spec (fun s c => s ++ [c]) pairs (fun x => (u.find x).1)
    (groupByRoot (fun s c => setAdd (setAdd s c.segA) c.segB) pairs u Dict.empty).1 hroots
    Dict.empty
  refine ⟨fun x => (u.find x).1,
    Dict.extend (fun c => (u.find c.segA).1) (fun s c => setAdd (setAdd s c.segA) c.segB) pairs
      Dict.empty,
    Dict.extend (fun c => (u.find c.segA).1) (fun s c => s ++ [c]) pairs Dict.empty, ?_,
    fun segments => ?_⟩
  rotate_left
  · simp only [hcomponents, hpairs]
    rfl
  have hmembers := Dict.mem_get?_extend (fun c : ClonePair => (u.find c.segA).1)
    (fun s c => setAdd (setAdd s c.segA) c.segB) (fun c => [c.segA, c.segB])
    (fun s c x => by simp [mem_setAdd, or_assoc]) pairs Dict.empty
  have hmem : ∀ k x, x ∈ ((Dict.extend (fun c : ClonePair => (u.find c.segA).1)
      (fun s c => setAdd (setAdd s c.segA) c.segB) pairs Dict.empty).get? k).getD [] ↔
      (u.find x).1 = k ∧ ∃ c ∈ pairs, c.Touches x := by
    intro k x
    rw [hmembers]
    constructor
    · rintro (h | ⟨c, hc, rfl, hx⟩)
      · exact absurd h List.not_mem_nil
      · have hx : x = c.segA ∨ x = c.segB := by simpa using hx
        refine ⟨?_, c, hc, hx⟩
        rcases hx with rfl | rfl
        · rfl
        · exact (hroot _ _).mpr (.symm _ _ (.rel _ _ (List.mem_map_of_mem hc)))
    · rintro ⟨rfl, c, hc, hx⟩
      refine .inr ⟨c, hc, ?_, by simpa [ClonePair.Touches] using hx⟩
      rcases hx with rfl | rfl
      · rfl
      · exact (hroot _ _).mpr (.rel _ _ (List.mem_map_of_mem hc))
  exact
    { root_eq := hroot
      members := by
        intro item hitem x
        rw [← hmem, Dict.get?_eq_some_iff.mpr hitem]
        rfl
      nodup := fun item hitem => Dict.forall_get?_extend _ _ (P := List.Nodup) (Q := List.Nodup)
        List.nodup_nil (fun _ h => h) pairs (fun s c _ hs => nodup_setAdd (nodup_setAdd hs _) _)
        (fun _ _ h => by cases h) (Dict.get?_eq_some_iff.mpr hitem)
      total := by
        intro x hx
        have hx := (hmem (u.find x).1 x).mpr ⟨rfl, hx⟩
        cases hget : (Dict.extend (fun c : ClonePair => (u.find c.segA).1)
            (fun s c => setAdd (setAdd s c.segA) c.segB) pairs Dict.empty).get? (u.find x).1 with
        | none =>
          rw [hget] at hx
          exact absurd hx List.not_mem_nil
        | some members =>
          rw [hget] at hx
          exact ⟨_, Dict.get?_eq_some_iff.mp hget, hx⟩
      pairs := by
        intro k c
        rw [Dict.mem_get?_extend (fun c : ClonePair => (u.find c.segA).1) (fun s c => s ++ [c])
          (fun c => [c]) (fun s c x => by simp) pairs Dict.empty]
        simp only [Dict.get?_empty, Option.getD_none, List.not_mem_nil, false_or,
          List.mem_singleton]
        constructor
        · rintro ⟨d, hd, hk, rfl⟩
          exact ⟨hd, hk⟩
        · rintro ⟨hc, hk⟩
          exact ⟨c, hc, hk, rfl⟩ }

/-! ### Records of segments -/

/-- Of all records, the best one of each segment is kept. -/
structure RecordsBest (records : List (ℚ × NearMissOccurrence))
    (best : Dict ℕ (ℚ × NearMissOccurrence)) : Prop where
  isBest : ∀ id e, best.get? id = some e →
    e ∈ records ∧ e.2.segId = id ∧ ∀ r ∈ records, r.2.segId = id → r.1 ≤ e.1
  complete : ∀ r ∈ records, (best.get? r.2.segId).isSome

theorem RecordsBest.keepSimilar {records : List (ℚ × NearMissOccurrence)}
    {best : Dict ℕ (ℚ × NearMissOccurrence)} (h : RecordsBest records best) (similarity : ℚ)
    (occ : NearMissOccurrence) :
    RecordsBest (records ++ [(similarity, occ)]) (keepSimilar best similarity occ) := by
  -- the new record is the best one of its segment
  have hset : (∀ r ∈ records, r.2.segId = occ.segId → r.1 ≤ similarity) →
      RecordsBest (records ++ [(similarity, occ)])
        (best.upsert occ.segId fun _ => (similarity, occ)) := by
    intro hless
    constructor
    · intro id e he
      by_cases hid : id = occ.segId
      · subst hid
        rw [Dict.get?_upsert_self] at he
        obtain rfl := Option.some.inj he
        refine ⟨List.mem_append_right _ (List.mem_singleton.mpr rfl), rfl, fun r hr hseg => ?_⟩
        rcases List.mem_append.mp hr with hr | hr
        · exact hless r hr hseg
        · obtain rfl := List.mem_singleton.mp hr
          exact le_rfl
      · rw [Dict.get?_upsert_of_ne _ _ hid] at he
        obtain ⟨hmem, hseg, hbest⟩ := h.isBest id e he
        refine ⟨List.mem_append_left _ hmem, hseg, fun r hr hr' => ?_⟩
        rcases List.mem_append.mp hr with hr | hr
        · exact hbest r hr hr'
        · obtain rfl := List.mem_singleton.mp hr
          exact absurd hr'.symm hid
    · intro r hr
      by_cases hid : r.2.segId = occ.segId
      · rw [hid, Dict.get?_upsert_self]
        rfl
      · rw [Dict.get?_upsert_of_ne _ _ hid]
        rcases List.mem_append.mp hr with hr | hr
        · exact h.complete r hr
        · obtain rfl := List.mem_singleton.mp hr
          exact absurd rfl hid
  unfold Csc512.keepSimilar
  cases hget : best.get? occ.segId with
  | none =>
    refine hset fun r hr hseg => ?_
    have hsome := h.complete r hr
    rw [hseg, hget] at hsome
    cases hsome
  | some prev =>
    show RecordsBest _ (ite _ _ _)
    split
    · rename_i hlt
      exact hset fun r hr hseg => ((h.isBest _ _ hget).2.2 r hr hseg).trans hlt.le
    · rename_i hle
      constructor
      · intro id e he
        obtain ⟨hmem, hseg, hbest⟩ := h.isBest id e he
        refine ⟨List.mem_append_left _ hmem, hseg, fun r hr hr' => ?_⟩
        rcases List.mem_append.mp hr with hr | hr
        · exact hbest r hr hr'
        · obtain rfl := List.mem_singleton.mp hr
          subst hr'
          obtain rfl := Option.some.inj (hget.symm.trans he)
          exact not_lt.mp hle
      · intro r hr
        rcases List.mem_append.mp hr with hr | hr
        · exact h.complete r hr
        · obtain rfl := List.mem_singleton.mp hr
          rw [hget]
          rfl

/-- The records of the two sides of a pair. -/
def ClonePair.records (segments : List Segment) (c : ClonePair) :
    List (ℚ × NearMissOccurrence) :=
  [(c.similarity, occurrenceOf segments c.segA c.startA c.endA c.diffsA),
    (c.similarity, occurrenceOf segments c.segB c.startB c.endB c.diffsB)]

/-- **The records that are kept** are the best ones. -/
theorem recordsBest_segOccurrence (segments : List Segment) (pairs : List ClonePair) :
    RecordsBest (pairs.flatMap (ClonePair.records segments)) (segOccurrence segments pairs) := by
  induction pairs using List.reverseRecOn with
  | nil => exact ⟨fun id e h => (by cases h), fun r hr => absurd hr List.not_mem_nil⟩
  | append_singleton pairs c ih =>
    rw [segOccurrence, List.foldl_append, List.foldl_cons, List.foldl_nil, ← segOccurrence,
      List.flatMap_append, List.flatMap_singleton]
    have hboth := (ih.keepSimilar c.similarity
      (occurrenceOf segments c.segA c.startA c.endA c.diffsA)).keepSimilar c.similarity
      (occurrenceOf segments c.segB c.startB c.endB c.diffsB)
    rwa [List.append_assoc] at hboth

theorem exists_record_iff (segments : List Segment) {pairs : List ClonePair} {id : ℕ} {q : ℚ} :
    (∃ r ∈ pairs.flatMap (ClonePair.records segments), r.2.segId = id ∧ r.1 = q) ↔
      ∃ c ∈ pairs, c.Touches id ∧ c.similarity = q := by
  simp only [List.mem_flatMap, ClonePair.records, List.mem_cons, List.not_mem_nil, or_false]
  constructor
  · rintro ⟨r, ⟨c, hc, rfl | rfl⟩, rfl, rfl⟩
    · exact ⟨c, hc, Or.inl rfl, rfl⟩
    · exact ⟨c, hc, Or.inr rfl, rfl⟩
  · rintro ⟨c, hc, rfl | rfl, rfl⟩
    · exact ⟨_, ⟨c, hc, Or.inl rfl⟩, rfl, rfl⟩
    · exact ⟨_, ⟨c, hc, Or.inr rfl⟩, rfl, rfl⟩

/-- The segments that have a record, and whose it is. -/
theorem get?_segOccurrence (segments : List Segment) (pairs : List ClonePair) :
    (∀ id e, (segOccurrence segments pairs).get? id = some e → e.2.segId = id) ∧
      ∀ id, ((segOccurrence segments pairs).get? id).isSome ↔ ∃ c ∈ pairs, c.Touches id := by
  have hbest := recordsBest_segOccurrence segments pairs
  refine ⟨fun id e he => (hbest.isBest id e he).2.1, fun id => ?_⟩
  constructor
  · intro h
    obtain ⟨e, he⟩ := Option.isSome_iff_exists.mp h
    obtain ⟨hmem, hseg, -⟩ := hbest.isBest id e he
    obtain ⟨c, hc, htouches, -⟩ := (exists_record_iff segments).mp ⟨e, hmem, hseg, rfl⟩
    exact ⟨c, hc, htouches⟩
  · rintro ⟨c, hc, htouches⟩
    obtain ⟨r, hr, rfl, -⟩ := (exists_record_iff segments).mpr
      ⟨c, hc, htouches, rfl⟩
    exact hbest.complete r hr

/-! ### Classes -/

/-- A class has the segments of its component, if there are two of them. -/
theorem segIds_nearMissClass {pairs : List ClonePair} (segments : List Segment)
    (classPairs : Dict ℕ (List ClonePair)) {item : ℕ × List ℕ}
    (hitem : ∀ id ∈ item.2, ∃ c ∈ pairs, c.Touches id) :
    (nearMissClass segments pairs classPairs item).map NearMissClass.segIds
      = if item.2.length < 2 then none else some (item.2.insertionSort (· ≤ ·)) := by
  obtain ⟨hids, hsome⟩ := get?_segOccurrence segments pairs
  have hoccs : ((item.2.insertionSort (· ≤ ·)).filterMap fun id =>
      ((segOccurrence segments pairs).get? id).map Prod.snd).map NearMissOccurrence.segId
        = item.2.insertionSort (· ≤ ·) := by
    have hmem : ∀ id ∈ item.2.insertionSort (· ≤ ·), ∃ c ∈ pairs, c.Touches id :=
      fun id hid => hitem id ((List.mem_insertionSort _).mp hid)
    generalize item.2.insertionSort (· ≤ ·) = l at hmem
    induction l with
    | nil => rfl
    | cons id l ih =>
      obtain ⟨e, he⟩ := Option.isSome_iff_exists.mp
        ((hsome id).mpr (hmem id List.mem_cons_self))
      rw [List.filterMap_cons, he, Option.map_some, List.map_cons,
        ih fun id' hid' => hmem id' (List.mem_cons_of_mem _ hid'), hids id e he]
  have hlen := congrArg List.length hoccs
  rw [List.length_map, List.length_insertionSort] at hlen
  simp only [nearMissClass, hlen]
  split
  · rfl
  · exact congrArg some hoccs

/-- The extremes of a list that is not empty. -/
theorem isLeast_min? {l : List ℚ} (hl : l ≠ []) : IsLeast {q | q ∈ l} ((l.min?).getD 0) := by
  obtain ⟨q, hq⟩ := Option.isSome_iff_exists.mp (List.isSome_min?_iff.mpr hl)
  obtain ⟨hmem, hle⟩ := List.min?_eq_some_iff.mp hq
  rw [hq]
  exact ⟨hmem, fun r hr => hle r hr⟩

theorem isGreatest_max? {l : List ℚ} (hl : l ≠ []) :
    IsGreatest {q | q ∈ l} ((l.max?).getD 0) := by
  obtain ⟨q, hq⟩ := Option.isSome_iff_exists.mp (List.isSome_max?_iff.mpr hl)
  obtain ⟨hmem, hle⟩ := List.max?_eq_some_iff.mp hq
  rw [hq]
  exact ⟨hmem, fun r hr => hle r hr⟩

/-- The range of the occurrence is that of a side of the pair. -/
def ClonePair.Gives (c : ClonePair) (o : NearMissOccurrence) : Prop :=
  o.segId = c.segA ∧ o.startStmt = c.startA ∧ o.endStmt = c.endA ∨
    o.segId = c.segB ∧ o.startStmt = c.startB ∧ o.endStmt = c.endB

/-- The similarities of the pairs inside a class. -/
def similaritiesIn (pairs : List ClonePair) (clone : NearMissClass) : Set ℚ :=
  {q | ∃ c ∈ pairs, c.segA ∈ clone.segIds ∧ c.segB ∈ clone.segIds ∧ c.similarity = q}

/-- What a class says about the segments of one group. -/
structure ClassOf (pairs : List ClonePair) (members : List ℕ) (clone : NearMissClass) :
    Prop where
  segIds : clone.segIds = members.insertionSort (· ≤ ·)
  best : ∀ o ∈ clone.occurrences, ∃ c ∈ pairs, c.Gives o ∧
    ∀ d ∈ pairs, d.Touches o.segId → d.similarity ≤ c.similarity
  least : IsLeast (similaritiesIn pairs clone) clone.similarityMin
  greatest : IsGreatest (similaritiesIn pairs clone) clone.similarityMax

section Classes

variable {segments : List Segment} {pairs : List ClonePair} {root : ℕ → ℕ}
  {components : Dict ℕ (List ℕ)} {classPairs : Dict ℕ (List ClonePair)}
  (hgroups : Groups pairs root components classPairs)

include hgroups

/-- A pair has both ends in the group of its root. -/
theorem Groups.ends {item : ℕ × List ℕ} (hitem : item ∈ components.entries) {c : ClonePair}
    (hc : c ∈ pairs) : (c.segA ∈ item.2 ↔ root c.segA = item.1) ∧
      (c.segB ∈ item.2 ↔ root c.segA = item.1) := by
  have hroot : root c.segA = root c.segB :=
    (hgroups.root_eq _ _).mpr (.rel _ _ (List.mem_map_of_mem hc))
  rw [hgroups.members item hitem, hgroups.members item hitem, ← hroot]
  exact ⟨⟨fun h => h.1, fun h => ⟨h, c, hc, Or.inl rfl⟩⟩,
    ⟨fun h => h.1, fun h => ⟨h, c, hc, Or.inr rfl⟩⟩⟩

/-- A group makes a class of its segments, if there are two of them. -/
theorem Groups.segIds_eq {item : ℕ × List ℕ} (hitem : item ∈ components.entries)
    {clone : NearMissClass} (h : nearMissClass segments pairs classPairs item = some clone) :
    2 ≤ item.2.length ∧ clone.segIds = item.2.insertionSort (· ≤ ·) := by
  have hids := segIds_nearMissClass segments classPairs
    fun x hx => ((hgroups.members item hitem x).mp hx).2
  rw [h] at hids
  split at hids
  · cases hids
  · rename_i hlen
    exact ⟨not_lt.mp hlen, Option.some.inj hids⟩

theorem Groups.classOf (hrounded : Rounded pairs) {item : ℕ × List ℕ}
    (hitem : item ∈ components.entries) {clone : NearMissClass}
    (h : nearMissClass segments pairs classPairs item = some clone) :
    ClassOf pairs item.2 clone := by
  obtain ⟨hlen, hids⟩ := hgroups.segIds_eq hitem h
  -- the similarities of the pairs with this root
  have hsims : similaritiesIn pairs clone
      = {q | q ∈ ((classPairs.get? item.1).getD []).map ClonePair.similarity} := by
    ext q
    simp only [similaritiesIn, hids, List.mem_insertionSort, Set.mem_ofPred_eq, List.mem_map,
      hgroups.pairs]
    constructor
    · rintro ⟨c, hc, hA, -, rfl⟩
      exact ⟨c, ⟨hc, ((hgroups.ends hitem hc).1).mp hA⟩, rfl⟩
    · rintro ⟨c, ⟨hc, hroot⟩, rfl⟩
      obtain ⟨hA, hB⟩ := hgroups.ends hitem hc
      exact ⟨c, hc, hA.mpr hroot, hB.mpr hroot, rfl⟩
  have hne : ((classPairs.get? item.1).getD []).map ClonePair.similarity ≠ [] := by
    obtain ⟨x, hx⟩ := List.exists_mem_of_length_pos (by omega : 0 < item.2.length)
    obtain ⟨hroot, c, hc, htouches⟩ := (hgroups.members item hitem x).mp hx
    have hend : root c.segA = item.1 := by
      rcases htouches with rfl | rfl
      · exact hroot
      · exact ((hgroups.ends hitem hc).2).mp hx
    exact List.ne_nil_of_mem (List.mem_map_of_mem ((hgroups.pairs _ c).mpr ⟨hc, hend⟩))
  have hround : ∀ q ∈ ((classPairs.get? item.1).getD []).map ClonePair.similarity,
      round4 q = q := by
    intro q hq
    obtain ⟨c, hc, rfl⟩ := List.mem_map.mp hq
    exact hrounded c ((hgroups.pairs _ c).mp hc).1
  have hleast := isLeast_min? hne
  have hgreatest := isGreatest_max? hne
  simp only [nearMissClass] at h
  split at h
  · cases h
  obtain rfl := Option.some.inj h
  exact
    { segIds := hids
      best := by
        intro o ho
        obtain ⟨id, -, hget⟩ := List.mem_filterMap.mp ho
        obtain ⟨e, he, rfl⟩ := Option.map_eq_some_iff.mp hget
        obtain ⟨hmem, rfl, hbest⟩ := (recordsBest_segOccurrence segments pairs).isBest id e he
        obtain ⟨c, hc, hrecord⟩ := List.mem_flatMap.mp hmem
        refine ⟨c, hc, ?_, fun d hd htouches => ?_⟩
        · simp only [ClonePair.records, List.mem_cons, List.not_mem_nil, or_false] at hrecord
          rcases hrecord with rfl | rfl
          · exact Or.inl ⟨rfl, rfl, rfl⟩
          · exact Or.inr ⟨rfl, rfl, rfl⟩
        · obtain ⟨r, hr, hseg, hsim⟩ := (exists_record_iff segments).mpr
            ⟨d, hd, htouches, rfl⟩
          have hsimilarity : e.1 = c.similarity := by
            simp only [ClonePair.records, List.mem_cons, List.not_mem_nil, or_false] at hrecord
            rcases hrecord with rfl | rfl <;> rfl
          rw [← hsim, ← hsimilarity]
          exact hbest r hr hseg
      least := by
        rw [hsims]
        exact (hround _ hleast.1).symm ▸ hleast
      greatest := by
        rw [hsims]
        exact (hround _ hgreatest.1).symm ▸ hgreatest }

omit hgroups in
theorem exists_mem_numberClasses {classes : List NearMissClass} {P : NearMissClass → Prop}
    (hP : ∀ clone id, P clone → P { clone with id := id }) :
    (∃ clone ∈ classes, P clone) → ∃ clone ∈ numberClasses classes, P clone := by
  rintro ⟨clone, hclone, h⟩
  rw [← List.zipIdx_map_fst 1 classes] at hclone
  obtain ⟨p, hp, rfl⟩ := List.mem_map.mp hclone
  exact ⟨_, List.mem_map_of_mem hp, hP _ _ h⟩

omit hgroups in
theorem of_mem_numberClasses {classes : List NearMissClass} {clone : NearMissClass}
    (h : clone ∈ numberClasses classes) :
    ∃ clone' ∈ classes, clone = { clone' with id := clone.id } := by
  obtain ⟨p, hp, rfl⟩ := List.mem_map.mp h
  exact ⟨p.1, List.fst_mem_of_mem_zipIdx hp, rfl⟩

/-- Every class is one of a group with two segments. -/
theorem Groups.of_mem {clone : NearMissClass}
    (h : clone ∈ numberClasses ((components.entries.insertionSort fun x y =>
      y.2.length ≤ x.2.length).filterMap (nearMissClass segments pairs classPairs))) :
    ∃ item ∈ components.entries, 2 ≤ item.2.length ∧
      clone.segIds = item.2.insertionSort (· ≤ ·) ∧ (Rounded pairs → ClassOf pairs item.2 clone) := by
  obtain ⟨clone', hclone', hid⟩ := of_mem_numberClasses h
  obtain ⟨item, hitem, hclass⟩ := List.mem_filterMap.mp hclone'
  have hitem := (List.mem_insertionSort _).mp hitem
  obtain ⟨hlen, hids⟩ := hgroups.segIds_eq hitem hclass
  refine ⟨item, hitem, hlen, ?_, fun hrounded => ?_⟩
  · rw [hid]
    exact hids
  · have hof := hgroups.classOf hrounded hitem hclass
    rw [hid]
    exact ⟨hof.segIds, hof.best, hof.least, hof.greatest⟩

variable (segments) in
/-- Every group with two segments has a class. -/
theorem Groups.exists_mem {item : ℕ × List ℕ} (hitem : item ∈ components.entries)
    (hlen : 2 ≤ item.2.length) :
    ∃ clone ∈ numberClasses ((components.entries.insertionSort fun x y =>
      y.2.length ≤ x.2.length).filterMap (nearMissClass segments pairs classPairs)),
      clone.segIds = item.2.insertionSort (· ≤ ·) := by
  have hids := segIds_nearMissClass segments classPairs
    fun x hx => ((hgroups.members item hitem x).mp hx).2
  rw [if_neg (not_lt.mpr hlen)] at hids
  obtain ⟨clone, hclone, hsegs⟩ := Option.map_eq_some_iff.mp hids
  refine exists_mem_numberClasses
    (P := fun clone => clone.segIds = item.2.insertionSort (· ≤ ·)) (fun _ _ h => h) ?_
  exact ⟨clone, List.mem_filterMap.mpr ⟨item, (List.mem_insertionSort _).mpr hitem, hclone⟩, hsegs⟩

/-- The classes of different groups have no segment in common. -/
theorem Groups.pairwise_disjoint :
    (numberClasses ((components.entries.insertionSort fun x y =>
      y.2.length ≤ x.2.length).filterMap (nearMissClass segments pairs classPairs))).Pairwise
      fun c d => c.segIds.Disjoint d.segIds := by
  have hkeys : components.entries.Pairwise fun x y => x.1 ≠ y.1 :=
    List.pairwise_map.mp components.nodup
  have hsorted : (components.entries.insertionSort fun x y =>
      y.2.length ≤ x.2.length).Pairwise fun x y => x.1 ≠ y.1 :=
    ((List.perm_insertionSort _ _).pairwise_iff fun h => h.symm).mpr hkeys
  have hclasses : ((components.entries.insertionSort fun x y =>
      y.2.length ≤ x.2.length).filterMap (nearMissClass segments pairs classPairs)).Pairwise
      fun c d => c.segIds.Disjoint d.segIds := by
    refine List.pairwise_filterMap.mpr
      (hsorted.imp_of_mem fun hx hy hne c hc d hd id hid hid' => ?_)
    have hx := (List.mem_insertionSort _).mp hx
    have hy := (List.mem_insertionSort _).mp hy
    rw [(hgroups.segIds_eq hx hc).2, List.mem_insertionSort, hgroups.members _ hx] at hid
    rw [(hgroups.segIds_eq hy hd).2, List.mem_insertionSort, hgroups.members _ hy] at hid'
    exact hne (hid.1.symm.trans hid'.1)
  rw [← List.zipIdx_map_fst 1 (List.filterMap _ _)] at hclasses
  rw [List.pairwise_map] at hclasses
  rw [numberClasses, List.pairwise_map]
  exact hclasses

end Classes

/-! ### The clusters -/

/-- A component of the graph of the pairs. -/
def IsComponent (pairs : List ClonePair) (s : Set ℕ) : Prop :=
  ∃ a, s = {b | Relation.EqvGen (IsEdge pairs) a b}

/-- **The classes are the components** with two segments. -/
structure Clusters (pairs : List ClonePair) (classes : List NearMissClass) : Prop where
  components : ∀ s : Set ℕ, (∃ clone ∈ classes, {id | id ∈ clone.segIds} = s) ↔
    IsComponent pairs s ∧ s.Nontrivial
  apart : classes.Pairwise fun c d => c.segIds.Disjoint d.segIds
  once : ∀ clone ∈ classes, clone.segIds.Nodup
  best : ∀ clone ∈ classes, ∀ o ∈ clone.occurrences, ∃ c ∈ pairs, c.Gives o ∧
    ∀ d ∈ pairs, d.Touches o.segId → d.similarity ≤ c.similarity
  least : ∀ clone ∈ classes, IsLeast (similaritiesIn pairs clone) clone.similarityMin
  greatest : ∀ clone ∈ classes, IsGreatest (similaritiesIn pairs clone) clone.similarityMax

/-- What is joined to something else stands in a pair. -/
theorem exists_edge_of_eqvGen {edge : ℕ → ℕ → Prop} {a b : ℕ} (h : Relation.EqvGen edge a b)
    (hab : a ≠ b) : (∃ c, edge a c ∨ edge c a) ∧ ∃ c, edge b c ∨ edge c b := by
  induction h with
  | rel a b h => exact ⟨⟨b, .inl h⟩, a, .inr h⟩
  | refl => exact absurd rfl hab
  | symm a b _ ih => exact (ih hab.symm).symm
  | trans a b c _ _ ih ih' =>
    by_cases h : a = b
    · subst h
      exact ih' hab
    · by_cases h' : b = c
      · subst h'
        exact ih h
      · exact ⟨(ih h).1, (ih' h').2⟩

theorem touches_of_eqvGen {pairs : List ClonePair} {a b : ℕ}
    (h : Relation.EqvGen (IsEdge pairs) a b) (hab : a ≠ b) :
    (∃ c ∈ pairs, c.Touches a) ∧ ∃ c ∈ pairs, c.Touches b := by
  have hend : ∀ x, (∃ y, IsEdge pairs x y ∨ IsEdge pairs y x) → ∃ c ∈ pairs, c.Touches x := by
    rintro x ⟨y, h | h⟩ <;> obtain ⟨c, hc, heq⟩ := List.mem_map.mp h
    · exact ⟨c, hc, .inl (Prod.mk.inj heq).1.symm⟩
    · exact ⟨c, hc, .inr (Prod.mk.inj heq).2.symm⟩
  obtain ⟨ha, hb⟩ := exists_edge_of_eqvGen h hab
  exact ⟨hend a ha, hend b hb⟩

/-- The segments of a group are the ones that are joined to one of them. -/
theorem Groups.mem_iff {pairs : List ClonePair} {root : ℕ → ℕ} {components : Dict ℕ (List ℕ)}
    {classPairs : Dict ℕ (List ClonePair)} (hgroups : Groups pairs root components classPairs)
    {item : ℕ × List ℕ} (hitem : item ∈ components.entries) {a : ℕ} (ha : a ∈ item.2) (b : ℕ) :
    b ∈ item.2 ↔ Relation.EqvGen (IsEdge pairs) a b := by
  obtain ⟨hroot, htouches⟩ := (hgroups.members item hitem a).mp ha
  rw [hgroups.members item hitem, ← hgroups.root_eq, hroot]
  constructor
  · exact fun h => h.1.symm
  · intro h
    refine ⟨h.symm, ?_⟩
    by_cases hab : a = b
    · exact hab ▸ htouches
    · exact (touches_of_eqvGen ((hgroups.root_eq a b).mp (hroot.trans h)) hab).2

/-- **The classes are exactly the clusters.** -/
theorem nearMissClasses_clusters (segments : List Segment) {pairs : List ClonePair}
    (hrounded : Rounded pairs) : Clusters pairs (nearMissClasses segments pairs) := by
  obtain ⟨root, components, classPairs, hgroups, hclasses⟩ := exists_groups pairs
  rw [hclasses segments]
  have hmem : ∀ (item : ℕ × List ℕ) id, id ∈ item.2.insertionSort (· ≤ ·) ↔ id ∈ item.2 :=
    fun item id => List.mem_insertionSort _
  refine
    { components := fun s => ⟨?_, ?_⟩
      apart := hgroups.pairwise_disjoint
      once := ?_
      best := ?_
      least := ?_
      greatest := ?_ }
  · rintro ⟨clone, hclone, rfl⟩
    obtain ⟨item, hitem, hlen, hids, -⟩ := hgroups.of_mem hclone
    obtain ⟨a, ha⟩ := List.exists_mem_of_length_pos (by omega : 0 < item.2.length)
    obtain ⟨b, hb, hba⟩ := (two_le_length_iff (hgroups.nodup item hitem) ha).mp hlen
    rw [hids]
    simp only [hmem]
    exact ⟨⟨a, Set.ext fun x => hgroups.mem_iff hitem ha x⟩, a, ha, b, hb, hba.symm⟩
  · rintro ⟨⟨a, rfl⟩, hnontrivial⟩
    obtain ⟨b, hb, hba⟩ := hnontrivial.exists_ne a
    obtain ⟨item, hitem, ha⟩ := hgroups.total a (touches_of_eqvGen hb hba.symm).1
    have hiff := hgroups.mem_iff hitem ha
    have hlen := (two_le_length_iff (hgroups.nodup item hitem) ha).mpr ⟨b, (hiff b).mpr hb, hba⟩
    obtain ⟨clone, hclone, hids⟩ := hgroups.exists_mem segments hitem hlen
    refine ⟨clone, hclone, ?_⟩
    rw [hids]
    exact Set.ext fun x => (hmem item x).trans (hiff x)
  · intro clone hclone
    obtain ⟨item, hitem, -, hids, -⟩ := hgroups.of_mem hclone
    rw [hids]
    exact (List.perm_insertionSort _ _).nodup_iff.mpr (hgroups.nodup item hitem)
  all_goals
    intro clone hclone
    obtain ⟨item, hitem, -, -, hof⟩ := hgroups.of_mem hclone
  · exact (hof hrounded).best
  · exact (hof hrounded).least
  · exact (hof hrounded).greatest

/-- Two pairs that share a segment, and a pair inside one segment. -/
def threePairs : List ClonePair :=
  let pair (a b : ℕ) (similarity : ℚ) : ClonePair :=
    { segA := a, startA := 0, endA := 4, segB := b, startB := 1, endB := 5, similarity
      length := 5, diffsA := [], diffsB := [] }
  [pair 1 2 (9 / 10), pair 2 3 (8 / 10), pair 4 4 (9 / 10)]

theorem nearMissClasses_clusters_threePairs : Clusters threePairs (nearMissClasses [] threePairs) :=
  nearMissClasses_clusters [] (by unfold Rounded; decide +kernel)

end Csc512
