import Csc512.Cdup.ClonePlaces
import Csc512.Cdup.NearMiss

/-!
# What the filters of the near misses leave

The pairs of windows are sorted, and then thinned out three times. All that comes of it is: of each
pair of segments the first pair of windows in the sorted list is left, provided that at most half of
its statements differ. The filter for windows inside longer ones never takes that first pair, and
the last filter never takes anything.

## Main results

* `filter_insertionSort` — sorting commutes with filtering
* `mem_filteredPairs_iff` — what the filters leave
* `exists_mem_filteredPairs_iff` — the pairs of segments of what they leave
-/

namespace Csc512

/-! ### Sorting and filtering -/

section Sorting

variable {α : Type*} {r : α → α → Prop} [DecidableRel r]

theorem filter_orderedInsert [IsTrans α r] (p : α → Bool) {a : α} (ha : p a = true) {l : List α}
    (hl : l.Pairwise r) :
    (l.orderedInsert r a).filter p = (l.filter p).orderedInsert r a := by
  induction l with
  | nil => simp [ha]
  | cons b l ih =>
    obtain ⟨hb, hl⟩ := List.pairwise_cons.mp hl
    by_cases hab : r a b
    · -- everything behind `b` is behind `a`, too
      have hfirst : ∀ l' : List α, (∀ c ∈ l', r a c) → l'.orderedInsert r a = a :: l' := by
        intro l' hl'
        cases l' with
        | nil => rfl
        | cons c l' => exact List.orderedInsert_cons_of_le r l' (hl' c List.mem_cons_self)
      rw [List.orderedInsert_cons_of_le r l hab, List.filter_cons_of_pos ha, hfirst]
      intro c hc
      rcases List.mem_cons.mp (List.mem_of_mem_filter hc) with rfl | hc
      · exact hab
      · exact IsTrans.trans _ _ _ hab (hb c hc)
    · rw [List.orderedInsert_of_not_le r l hab]
      by_cases hp : p b = true
      · rw [List.filter_cons_of_pos hp, List.filter_cons_of_pos hp, ih hl,
          List.orderedInsert_of_not_le r _ hab]
      · rw [List.filter_cons_of_neg hp, List.filter_cons_of_neg hp, ih hl]

theorem filter_orderedInsert_of_neg (p : α → Bool) {a : α} (ha : ¬ p a = true) (l : List α) :
    (l.orderedInsert r a).filter p = l.filter p := by
  induction l with
  | nil => simp [ha]
  | cons b l ih =>
    by_cases hab : r a b
    · rw [List.orderedInsert_cons_of_le r l hab, List.filter_cons_of_neg ha]
    · rw [List.orderedInsert_of_not_le r l hab, List.filter_cons, List.filter_cons, ih]

/-- **Sorting commutes with filtering.** -/
theorem filter_insertionSort [Std.Total r] [IsTrans α r] (p : α → Bool) (l : List α) :
    (l.insertionSort r).filter p = (l.filter p).insertionSort r := by
  induction l with
  | nil => rfl
  | cons a l ih =>
    rw [List.insertionSort_cons]
    by_cases ha : p a = true
    · rw [filter_orderedInsert p ha (List.pairwise_insertionSort r l), ih,
        List.filter_cons_of_pos ha, List.insertionSort_cons]
    · rw [filter_orderedInsert_of_neg p ha, ih, List.filter_cons_of_neg ha]

end Sorting

/-! ### The order of the pairs -/

instance : Std.Total ClonePair.le where
  total c d := by
    rcases Nat.lt_trichotomy c.length d.length with h | h | h
    · exact .inr (.inl h)
    · rcases le_total c.similarity d.similarity with h' | h'
      · exact .inr (.inr ⟨h, h'⟩)
      · exact .inl (.inr ⟨h.symm, h'⟩)
    · exact .inl (.inl h)

instance : IsTrans ClonePair ClonePair.le where
  trans c d e := by
    rintro (h | ⟨h, h'⟩) (g | ⟨g, g'⟩)
    · exact .inl (g.trans h)
    · exact .inl (g.trans_lt h)
    · exact .inl (g.trans_eq h)
    · exact .inr ⟨g.trans h, g'.trans h'⟩

/-- The first of some pairs with a key. -/
def firstWith (k : ℕ × ℕ) (pairs : List ClonePair) : Option ClonePair :=
  pairs.find? fun c => c.key = k

/-- The best of some pairs of windows: the longest one, of these the most similar one, and of these
the first one. -/
def bestOf (pairs : List ClonePair) : Option ClonePair := (pairs.insertionSort ClonePair.le).head?

theorem firstWith_insertionSort (k : ℕ × ℕ) (pairs : List ClonePair) :
    firstWith k (pairs.insertionSort ClonePair.le) = bestOf (pairs.filter fun c => c.key = k) := by
  rw [bestOf, ← filter_insertionSort, List.head?_filter]
  rfl

theorem key_of_firstWith {k : ℕ × ℕ} {pairs : List ClonePair} {c : ClonePair}
    (h : firstWith k pairs = some c) : c.key = k := by
  simpa using List.find?_some h

theorem mem_of_firstWith {k : ℕ × ℕ} {pairs : List ClonePair} {c : ClonePair}
    (h : firstWith k pairs = some c) : c ∈ pairs :=
  List.mem_of_find?_eq_some h

/-! ### The filters -/

theorem firstWith_append_singleton (k : ℕ × ℕ) (pairs : List ClonePair) (c : ClonePair) :
    firstWith k (pairs ++ [c])
      = (firstWith k pairs).or (if c.key = k then some c else none) := by
  unfold firstWith
  rw [List.find?_append]
  by_cases hc : c.key = k
  · simp [hc]
  · simp [hc]

/-- The filter for windows inside longer ones keeps the first pair of each pair of segments. -/
theorem firstWith_maximalPairs (k : ℕ × ℕ) (pairs : List ClonePair) :
    firstWith k (maximalPairs pairs) = firstWith k pairs := by
  induction pairs using List.reverseRecOn with
  | nil => rfl
  | append_singleton pairs c ih =>
    rw [maximalPairs, List.foldl_append, List.foldl_cons, List.foldl_nil, ← maximalPairs,
      firstWith_append_singleton]
    by_cases hany : (maximalPairs pairs).any fun big => subsumes big c
    · rw [if_pos hany, ih]
      by_cases hc : c.key = k
      · -- what the pair lies in has the same key
        obtain ⟨big, hbig, hsub⟩ := List.any_eq_true.mp hany
        have hkey : big.key = k := by
          simp only [subsumes, decide_eq_true_eq] at hsub
          rw [← hc, ClonePair.key, ClonePair.key, hsub.1, hsub.2.1]
        have hsome : (firstWith k (maximalPairs pairs)).isSome :=
          List.find?_isSome.mpr ⟨big, hbig, decide_eq_true hkey⟩
        obtain ⟨first, hfirst⟩ := Option.isSome_iff_exists.mp hsome
        rw [← ih, hfirst]
        rfl
      · rw [if_neg hc, Option.or_none]
    · rw [if_neg hany, firstWith_append_singleton, ih]

/-- The segments of the pairs are in order. -/
def Oriented (pairs : List ClonePair) : Prop := ∀ c ∈ pairs, c.segA ≤ c.segB

theorem maximalPairs_sublist (pairs : List ClonePair) : (maximalPairs pairs).Sublist pairs := by
  induction pairs using List.reverseRecOn with
  | nil => exact List.Sublist.refl []
  | append_singleton pairs c ih =>
    rw [maximalPairs, List.foldl_append, List.foldl_cons, List.foldl_nil, ← maximalPairs]
    split
    · exact ih.trans (List.sublist_append_left _ _)
    · exact ih.append (List.Sublist.refl _)

/-- **The best pair** of each pair of segments is the first one of a sorted list. -/
theorem get?_pairBest {pairs : List ClonePair} (horiented : Oriented pairs)
    (hsorted : pairs.Pairwise ClonePair.le) (k : ℕ × ℕ) :
    (pairBest pairs).get? k = firstWith k pairs := by
  induction pairs using List.reverseRecOn generalizing k with
  | nil => rfl
  | append_singleton pairs c ih =>
    obtain ⟨hpairs, -, hle⟩ := List.pairwise_append.mp hsorted
    have ih := ih (fun d hd => horiented d (List.mem_append_left _ hd)) hpairs
    have hc := horiented c (List.mem_append_right _ (List.mem_singleton_self c))
    have hkey : (min c.segA c.segB, max c.segA c.segB) = c.key := by
      rw [min_eq_left hc, max_eq_right hc]
      rfl
    rw [pairBest, List.foldl_append, List.foldl_cons, List.foldl_nil, ← pairBest]
    simp only [hkey]
    rw [ih c.key, firstWith_append_singleton]
    cases hfirst : firstWith c.key pairs with
    | none =>
      by_cases hk : k = c.key
      · subst hk
        rw [Dict.get?_upsert_self, hfirst, if_pos rfl]
        rfl
      · rw [Dict.get?_upsert_of_ne _ _ hk, ih, if_neg (Ne.symm hk), Option.or_none]
    | some prev =>
      have hprev := hle prev (mem_of_firstWith hfirst) c (List.mem_singleton_self c)
      have hworse : ¬ (prev.length < c.length ∨
          prev.length = c.length ∧ prev.similarity < c.similarity) := by
        rintro (h | ⟨h, h'⟩)
        · rcases hprev with hprev | ⟨hprev, -⟩ <;> omega
        · rcases hprev with hprev | ⟨-, hprev⟩
          · omega
          · exact absurd h' (not_lt.mpr hprev)
      show (ite _ _ _ : Dict _ _).get? k = _
      rw [if_neg hworse, ih]
      by_cases hk : c.key = k
      · rw [← hk, hfirst]
        rfl
      · rw [if_neg hk, Option.or_none]

/-- The last filter takes nothing from a list in which each pair of segments stands once. -/
theorem dropMet_eq {pairs : List ClonePair} (horiented : Oriented pairs)
    (hnodup : (pairs.map ClonePair.key).Nodup) : dropMet pairs = pairs := by
  have hfoldl : pairs.foldl (fun (met : List (ℕ × ℕ × ℕ × ℕ) × List ClonePair) c =>
      if (c.segA, c.startA, c.segB, c.startB) ∉ met.1 ∧
        (c.segB, c.startB, c.segA, c.startA) ∉ met.1
      then (met.1 ++ [(c.segA, c.startA, c.segB, c.startB)], met.2 ++ [c]) else met) ([], [])
      = (pairs.map fun c => (c.segA, c.startA, c.segB, c.startB), pairs) := by
    induction pairs using List.reverseRecOn with
    | nil => rfl
    | append_singleton pairs c ih =>
      rw [List.map_append, List.nodup_append] at hnodup
      obtain ⟨hpairs, -, hne⟩ := hnodup
      have hfresh : ∀ d ∈ pairs, d.key ≠ c.key := fun d hd =>
        hne _ (List.mem_map_of_mem hd) _ (List.mem_map_of_mem (List.mem_singleton_self c))
      rw [List.foldl_append, ih (fun d hd => horiented d (List.mem_append_left _ hd)) hpairs,
        List.foldl_cons, List.foldl_nil, if_pos, List.map_append]
      · rfl
      · constructor
        · intro hmem
          obtain ⟨d, hd, heq⟩ := List.mem_map.mp hmem
          simp only [Prod.mk.injEq] at heq
          exact hfresh d hd (Prod.ext heq.1 heq.2.2.1)
        · -- the other way round the two segments are the same
          intro hmem
          obtain ⟨d, hd, heq⟩ := List.mem_map.mp hmem
          simp only [Prod.mk.injEq] at heq
          have hle := horiented c (List.mem_append_right _ (List.mem_singleton_self c))
          have hle' := horiented d (List.mem_append_left _ hd)
          rw [heq.1, heq.2.2.1] at hle'
          have hsame := le_antisymm hle hle'
          exact hfresh d hd (Prod.ext (heq.1.trans hsame.symm) (heq.2.2.1.trans hsame))
  rw [dropMet, hfoldl]

/-- **What the filters leave**: the best pair of windows of each pair of segments, if at most half
of its statements differ. -/
theorem mem_filteredPairs_iff {pairs : List ClonePair} (horiented : Oriented pairs)
    (c : ClonePair) : c ∈ filteredPairs pairs ↔
      bestOf (pairs.filter fun d => d.key = c.key) = some c ∧ diffRatioOk c = true := by
  have hsub := maximalPairs_sublist (pairs.insertionSort ClonePair.le)
  have horiented' : Oriented (maximalPairs (pairs.insertionSort ClonePair.le)) := fun d hd =>
    horiented d ((List.mem_insertionSort _).mp (hsub.mem hd))
  have hget : ∀ k, (pairBest (maximalPairs (pairs.insertionSort ClonePair.le))).get? k
      = bestOf (pairs.filter fun d => d.key = k) := by
    intro k
    rw [get?_pairBest horiented' ((List.pairwise_insertionSort _ _).sublist hsub),
      firstWith_maximalPairs, firstWith_insertionSort]
  have hkey : ∀ k d, bestOf (pairs.filter fun d => d.key = k) = some d → d.key = k := by
    intro k d hd
    rw [← firstWith_insertionSort] at hd
    exact key_of_firstWith hd
  unfold filteredPairs
  generalize pairBest (maximalPairs (pairs.insertionSort ClonePair.le)) = best at hget
  have hentry : ∀ e ∈ best.entries, e.2.key = e.1 := fun e he =>
    hkey e.1 e.2 ((hget e.1).symm.trans (Dict.get?_eq_some_iff.mpr he))
  have hmem : ∀ d, d ∈ best.entries.map Prod.snd ↔
      bestOf (pairs.filter fun e => e.key = d.key) = some d := by
    intro d
    rw [← hget, Dict.get?_eq_some_iff, List.mem_map]
    constructor
    · rintro ⟨e, he, rfl⟩
      exact hentry e he ▸ he
    · exact fun h => ⟨_, h, rfl⟩
  have hnodup : ((best.entries.map Prod.snd).map ClonePair.key).Nodup := by
    have hkeys : (best.entries.map Prod.snd).map ClonePair.key = best.entries.map Prod.fst := by
      rw [List.map_map]
      exact List.map_congr_left hentry
    exact hkeys ▸ best.nodup
  have hperm := List.perm_insertionSort ClonePair.leSimilarity
    ((best.entries.map Prod.snd).filter diffRatioOk)
  rw [dropMet_eq]
  · rw [List.mem_insertionSort, List.mem_filter, hmem]
  · intro d hd
    have hd := List.mem_of_mem_filter ((List.mem_insertionSort _).mp hd)
    have hbest := (hmem d).mp hd
    rw [← firstWith_insertionSort] at hbest
    exact horiented d ((List.mem_insertionSort _).mp (mem_of_firstWith hbest))
  · exact (hperm.map _).nodup_iff.mpr (hnodup.sublist (List.filter_sublist.map _))

/-! ### The pairs of segments -/

section Pairs

variable (m : Matcher) {segments : List Segment} {sequences : Dict ℕ (List SeqEntry)}
  {threshold : ℚ} {minLength : ℕ} {windowSizes : List ℕ} {excludeSegPairs : List (ℕ × ℕ)}

theorem exists_of_mem_mapM {α β : Type} {f : α → Option β} {l : List α} {ys : List β}
    (h : l.mapM f = some ys) {y : β} (hy : y ∈ ys) : ∃ x ∈ l, f x = some y := by
  induction l generalizing ys with
  | nil =>
    obtain rfl : [] = ys := by simpa using h
    exact absurd hy List.not_mem_nil
  | cons x l ih =>
    rw [List.mapM_cons] at h
    simp only [Option.bind_eq_bind, Option.bind_eq_some_iff] at h
    obtain ⟨z, hz, zs, hzs, heq⟩ := h
    obtain rfl := Option.some.inj heq
    rcases List.mem_cons.mp hy with rfl | hy
    · exact ⟨x, List.mem_cons_self, hz⟩
    · obtain ⟨x', hx', hf⟩ := ih hzs hy
      exact ⟨x', List.mem_cons_of_mem _ hx', hf⟩

theorem key_of_mem_nearMisses {a b : ℕ} {seqA seqB : List SeqEntry} {misses : List ClonePair}
    (h : nearMisses m threshold windowSizes a b seqA seqB = some misses) {c : ClonePair}
    (hc : c ∈ misses) : c.key = (a, b) := by
  obtain ⟨v, -, hv⟩ := exists_of_mem_mapM h hc
  simp only [clonePairOf, Option.bind_eq_bind, Option.bind_eq_some_iff] at hv
  obtain ⟨firstA, -, lastA, -, firstB, -, lastB, -, heq⟩ := hv
  obtain rfl := Option.some.inj heq
  rfl

theorem key_of_mem_pairMisses {a b : ℕ} {misses : List ClonePair}
    (h : pairMisses m segments sequences threshold minLength windowSizes excludeSegPairs a b
      = some misses) {c : ClonePair} (hc : c ∈ misses) : c.key = (a, b) := by
  unfold pairMisses at h
  split at h
  · split at h
    · obtain rfl := Option.some.inj h
      exact absurd hc List.not_mem_nil
    · exact key_of_mem_nearMisses m h hc
  · obtain rfl := Option.some.inj h
    exact absurd hc List.not_mem_nil

theorem mem_segPairs {ids : List ℕ} (hsorted : ids.Pairwise (· ≤ ·)) {a b : ℕ}
    (h : (a, b) ∈ segPairs ids) : a ∈ ids ∧ b ∈ ids ∧ a ≤ b := by
  induction ids with
  | nil => exact absurd h List.not_mem_nil
  | cons x ids ih =>
    obtain ⟨hx, hsorted⟩ := List.pairwise_cons.mp hsorted
    rcases List.mem_append.mp h with h | h
    · obtain ⟨y, hy, heq⟩ := List.mem_map.mp h
      obtain ⟨rfl, rfl⟩ := Prod.mk.inj heq
      refine ⟨List.mem_cons_self, hy, ?_⟩
      rcases List.mem_cons.mp hy with rfl | hy
      · exact le_rfl
      · exact hx y hy
    · obtain ⟨ha, hb, hle⟩ := ih hsorted h
      exact ⟨List.mem_cons_of_mem _ ha, List.mem_cons_of_mem _ hb, hle⟩

theorem mem_segPairs_of_le {ids : List ℕ} (hsorted : ids.Pairwise (· ≤ ·)) {a b : ℕ}
    (ha : a ∈ ids) (hb : b ∈ ids) (hle : a ≤ b) : (a, b) ∈ segPairs ids := by
  induction ids with
  | nil => exact absurd ha List.not_mem_nil
  | cons x ids ih =>
    obtain ⟨hx, hsorted⟩ := List.pairwise_cons.mp hsorted
    by_cases hax : a = x
    · subst hax
      exact List.mem_append_left _ (List.mem_map.mpr ⟨b, hb, rfl⟩)
    · have ha := (List.mem_cons.mp ha).resolve_left hax
      rcases List.mem_cons.mp hb with hbx | hb
      · exact absurd (le_antisymm (hbx ▸ hle) (hx a ha)) hax
      · exact List.mem_append_right _ (ih hsorted ha hb)

theorem nodup_segPairs {ids : List ℕ} (h : ids.Nodup) : (segPairs ids).Nodup := by
  induction ids with
  | nil => exact List.nodup_nil
  | cons x ids ih =>
    obtain ⟨hx, hnodup⟩ := List.nodup_cons.mp h
    refine List.nodup_append.mpr ⟨h.map fun _ _ heq => (Prod.mk.inj heq).2, ih hnodup, ?_⟩
    rintro p hp q hq rfl
    obtain ⟨y, -, rfl⟩ := List.mem_map.mp hp
    have hmem : ∀ (ids : List ℕ) a b, (a, b) ∈ segPairs ids → a ∈ ids := by
      intro ids
      induction ids with
      | nil => exact fun a b h => absurd h List.not_mem_nil
      | cons z ids ih =>
        intro a b hab
        rcases List.mem_append.mp hab with hab | hab
        · obtain ⟨w, -, heq⟩ := List.mem_map.mp hab
          exact (Prod.mk.inj heq).1 ▸ List.mem_cons_self
        · exact List.mem_cons_of_mem _ (ih a b hab)
    exact hx (hmem ids x y hq)

/-- Two segments are near misses of one another: at most half of the statements of their best
windows differ. -/
def NearMiss (m : Matcher) (segments : List Segment) (sequences : Dict ℕ (List SeqEntry))
    (threshold : ℚ) (minLength : ℕ) (windowSizes : List ℕ) (excludeSegPairs : List (ℕ × ℕ))
    (a b : ℕ) : Prop :=
  a ≤ b ∧ ∃ misses c, pairMisses m segments sequences threshold minLength windowSizes
    excludeSegPairs a b = some misses ∧ bestOf misses = some c ∧ diffRatioOk c = true

/-- The near misses of all segments, by pairs of segments. -/
theorem filter_clonePairs {pairs : List ClonePair}
    (h : clonePairs m segments sequences threshold minLength windowSizes excludeSegPairs
      = some pairs) (k : ℕ × ℕ) : pairs.filter (fun c => c.key = k)
      = if k ∈ segPairs ((sequences.entries.map Prod.fst).insertionSort (· ≤ ·)) then
          (pairMisses m segments sequences threshold minLength windowSizes excludeSegPairs
            k.1 k.2).getD []
        else [] := by
  simp only [clonePairs, Option.bind_eq_bind, Option.bind_eq_some_iff] at h
  obtain ⟨found, hfound, heq⟩ := h
  obtain rfl := Option.some.inj heq
  have hnodup := nodup_segPairs
    ((List.perm_insertionSort (· ≤ ·) (sequences.entries.map Prod.fst)).nodup_iff.mpr
      sequences.nodup)
  revert hfound hnodup
  generalize segPairs ((sequences.entries.map Prod.fst).insertionSort (· ≤ ·)) = ps
  intro hfound hnodup
  induction ps generalizing found with
  | nil =>
    obtain rfl : [] = found := by simpa using hfound
    rfl
  | cons p ps ih =>
    rw [List.mapM_cons] at hfound
    simp only [Option.bind_eq_bind, Option.bind_eq_some_iff] at hfound
    obtain ⟨misses, hmisses, rest, hrest, heq⟩ := hfound
    obtain rfl := Option.some.inj heq
    obtain ⟨hp, hnodup⟩ := List.nodup_cons.mp hnodup
    rw [List.flatten_cons, List.filter_append, ih rest rfl hrest hnodup]
    by_cases hk : k = p
    · subst hk
      have hall : misses.filter (fun c => c.key = k) = misses :=
        List.filter_eq_self.mpr fun c hc => decide_eq_true (key_of_mem_pairMisses m hmisses hc)
      rw [hall, if_neg hp, if_pos List.mem_cons_self, hmisses, List.append_nil]
      rfl
    · have hnone : misses.filter (fun c => c.key = k) = [] := by
        refine List.filter_eq_nil_iff.mpr fun c hc hkey => hk ?_
        rw [← of_decide_eq_true hkey]
        exact key_of_mem_pairMisses m hmisses hc
      rw [hnone, List.nil_append]
      simp only [List.mem_cons, hk, false_or]

theorem oriented_clonePairs {pairs : List ClonePair}
    (h : clonePairs m segments sequences threshold minLength windowSizes excludeSegPairs
      = some pairs) : Oriented pairs := by
  intro c hc
  have hmem : c ∈ pairs.filter fun d => d.key = c.key :=
    List.mem_filter.mpr ⟨hc, decide_eq_true rfl⟩
  rw [filter_clonePairs m h] at hmem
  split at hmem
  · rename_i hk
    exact (mem_segPairs (List.pairwise_insertionSort _ _) hk).2.2
  · exact absurd hmem List.not_mem_nil

/-- **The pairs of segments that are left** are the near misses. -/
theorem mem_keys_filteredPairs_iff {pairs : List ClonePair}
    (h : clonePairs m segments sequences threshold minLength windowSizes excludeSegPairs
      = some pairs) (a b : ℕ) : (a, b) ∈ (filteredPairs pairs).map ClonePair.key ↔
      NearMiss m segments sequences threshold minLength windowSizes excludeSegPairs a b := by
  have horiented := oriented_clonePairs m h
  have hsorted : ((sequences.entries.map Prod.fst).insertionSort (· ≤ ·)).Pairwise (· ≤ ·) :=
    List.pairwise_insertionSort _ _
  rw [List.mem_map]
  constructor
  · rintro ⟨c, hc, hkey⟩
    obtain ⟨hbest, hratio⟩ := (mem_filteredPairs_iff horiented c).mp hc
    rw [filter_clonePairs m h, hkey] at hbest
    split at hbest
    · rename_i hk
      refine ⟨(mem_segPairs hsorted hk).2.2, ?_⟩
      cases hmisses : pairMisses m segments sequences threshold minLength windowSizes
          excludeSegPairs a b with
      | none =>
        rw [hmisses] at hbest
        cases hbest
      | some misses =>
        rw [hmisses] at hbest
        exact ⟨misses, c, rfl, hbest, hratio⟩
    · cases hbest
  · rintro ⟨hle, misses, c, hmisses, hbest, hratio⟩
    have hcmem : c ∈ misses := (List.mem_insertionSort _).mp (List.mem_of_head? hbest)
    have hkey := key_of_mem_pairMisses m hmisses hcmem
    refine ⟨c, (mem_filteredPairs_iff horiented c).mpr ⟨?_, hratio⟩, hkey⟩
    rw [filter_clonePairs m h, hkey, if_pos]
    · show bestOf ((pairMisses _ _ _ _ _ _ _ a b).getD []) = _
      rw [hmisses]
      exact hbest
    · -- both segments have a sequence
      have hseq : ∀ {x}, (comparedSeq segments sequences minLength x).isSome →
          x ∈ (sequences.entries.map Prod.fst).insertionSort (· ≤ ·) := by
        intro x hx
        rw [List.mem_insertionSort]
        obtain ⟨seq, hx⟩ := Option.isSome_iff_exists.mp hx
        have hget := Option.eq_some_of_filter_eq_some hx
        exact List.mem_map_of_mem (Dict.get?_eq_some_iff.mp hget)
      unfold pairMisses at hmisses
      cases hA : comparedSeq segments sequences minLength a with
      | none =>
        rw [hA] at hmisses
        obtain rfl := Option.some.inj hmisses
        exact absurd hcmem List.not_mem_nil
      | some seqA =>
        cases hB : comparedSeq segments sequences minLength b with
        | none =>
          rw [hA, hB] at hmisses
          obtain rfl := Option.some.inj hmisses
          exact absurd hcmem List.not_mem_nil
        | some seqB =>
          exact mem_segPairs_of_le hsorted (hseq (by rw [hA]; rfl)) (hseq (by rw [hB]; rfl)) hle

end Pairs

end Csc512
