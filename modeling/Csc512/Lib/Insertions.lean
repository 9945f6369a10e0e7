import Mathlib.Data.List.InsertIdx
import Mathlib.Data.List.Sort
import Mathlib.Data.List.TakeDrop

/-!
# Insertions at given places

Elements are inserted into a list one after the other, the ones further back first. The places are
then places of the list as it was, and every element of it divides what is inserted into what goes
in front of it and what goes behind.

## Main results

* `insertAll_split` — an element of the list divides the insertions
* `insertAll_cases` — what stands at a place after the insertions
-/

namespace Csc512

variable {α β : Type*}

/-- Insert elements at places, one after the other. -/
def insertAll (insertions : List (ℕ × α)) (l : List α) : List α :=
  insertions.foldl (fun l q => l.insertIdx q.1 q.2) l

theorem insertAll_cons (q : ℕ × α) (insertions : List (ℕ × α)) (l : List α) :
    insertAll (q :: insertions) l = insertAll insertions (l.insertIdx q.1 q.2) := rfl

theorem insertAll_map (f : α → β) (insertions : List (ℕ × α)) (l : List α) :
    (insertAll insertions l).map f
      = insertAll (insertions.map fun q => (q.1, f q.2)) (l.map f) := by
  induction insertions generalizing l with
  | nil => rfl
  | cons q insertions ih =>
    rw [insertAll_cons, ih, List.map_insertIdx]
    rfl

theorem mem_insertAll {insertions : List (ℕ × α)} {l : List α}
    (hle : ∀ q ∈ insertions, q.1 ≤ l.length) {x : α} :
    x ∈ insertAll insertions l ↔ x ∈ l ∨ ∃ q ∈ insertions, q.2 = x := by
  induction insertions generalizing l with
  | nil => simp [insertAll]
  | cons q insertions ih =>
    obtain ⟨hq, hrest⟩ := List.forall_mem_cons.mp hle
    rw [insertAll_cons, ih fun p hp => (hrest p hp).trans
      (by rw [List.length_insertIdx_of_le_length hq]; omega), List.mem_insertIdx hq]
    simp only [List.exists_mem_cons_iff]
    constructor
    · rintro ((rfl | h) | h)
      · exact .inr (.inl rfl)
      · exact .inl h
      · exact .inr (.inr h)
    · rintro (h | rfl | h)
      · exact .inl (.inr h)
      · exact .inl (.inl rfl)
      · exact .inr h

theorem insertIdx_append_left {n : ℕ} {a : List α} (hn : n ≤ a.length) (x : α) (b : List α) :
    (a ++ b).insertIdx n x = a.insertIdx n x ++ b := by
  induction a generalizing n with
  | nil =>
    obtain rfl := Nat.le_zero.mp hn
    rfl
  | cons c a ih =>
    cases n with
    | zero => rfl
    | succ n =>
      rw [List.cons_append, List.insertIdx_succ_cons, List.insertIdx_succ_cons,
        ih (Nat.le_of_succ_le_succ hn), List.cons_append]

theorem insertIdx_append_right (n : ℕ) (a : List α) (x : α) (b : List α) :
    (a ++ b).insertIdx (a.length + n) x = a ++ b.insertIdx n x := by
  induction a with
  | nil => rw [List.nil_append, List.nil_append, List.length_nil, Nat.zero_add]
  | cons c a ih =>
    rw [List.length_cons, Nat.add_right_comm, List.cons_append, List.insertIdx_succ_cons, ih,
      List.cons_append]

/-- Insertions at places in the front of a list. -/
theorem insertAll_append {insertions : List (ℕ × α)} {a : List α}
    (hle : ∀ q ∈ insertions, q.1 ≤ a.length) (b : List α) :
    insertAll insertions (a ++ b) = insertAll insertions a ++ b := by
  induction insertions generalizing a with
  | nil => rfl
  | cons q insertions ih =>
    obtain ⟨hq, hrest⟩ := List.forall_mem_cons.mp hle
    rw [insertAll_cons, insertAll_cons, insertIdx_append_left hq]
    exact ih fun p hp => (hrest p hp).trans
      (by rw [List.length_insertIdx_of_le_length hq]; omega)

/-- **An element of the list divides the insertions.** -/
theorem insertAll_split {insertions : List (ℕ × α)}
    (hsorted : insertions.Pairwise fun p q => q.1 ≤ p.1) (a : List α) (x : α) (b : List α) :
    insertAll insertions (a ++ x :: b)
      = insertAll (insertions.filter fun q => q.1 ≤ a.length) a ++ x ::
        insertAll ((insertions.filter fun q => a.length < q.1).map fun q =>
          (q.1 - (a.length + 1), q.2)) b := by
  induction insertions generalizing b with
  | nil => rfl
  | cons q insertions ih =>
    obtain ⟨hq, hrest⟩ := List.pairwise_cons.mp hsorted
    by_cases hle : q.1 ≤ a.length
    · -- the places that follow are not further back
      have hall : ∀ p ∈ q :: insertions, p.1 ≤ a.length :=
        List.forall_mem_cons.mpr ⟨hle, fun p hp => (hq p hp).trans hle⟩
      have hfront : (q :: insertions).filter (fun q => q.1 ≤ a.length) = q :: insertions :=
        List.filter_eq_self.mpr fun p hp => decide_eq_true (hall p hp)
      have hback : (q :: insertions).filter (fun q => a.length < q.1) = [] :=
        List.filter_eq_nil_iff.mpr fun p hp h =>
          absurd (of_decide_eq_true h) (Nat.not_lt_of_le (hall p hp))
      rw [hfront, hback, insertAll_append hall]
      rfl
    · obtain ⟨n, hn⟩ := Nat.exists_eq_add_of_lt (Nat.lt_of_not_le hle)
      have hinsert : (a ++ x :: b).insertIdx q.1 q.2 = a ++ x :: b.insertIdx n q.2 := by
        rw [hn, Nat.add_assoc, insertIdx_append_right, List.insertIdx_succ_cons]
      rw [insertAll_cons, hinsert, ih hrest, List.filter_cons_of_neg (by simpa using hle),
        List.filter_cons_of_pos (by simpa using hle), List.map_cons, insertAll_cons,
        show q.1 - (a.length + 1) = n by omega]

/-- **What stands at a place after the insertions**: an inserted element, or an element of the list
with what is inserted in front of it and behind it. -/
theorem insertAll_cases {insertions : List (ℕ × α)} {l : List α}
    (hsorted : insertions.Pairwise fun p q => q.1 ≤ p.1)
    (hle : ∀ q ∈ insertions, q.1 ≤ l.length) {n : ℕ} {x : α}
    (h : (insertAll insertions l)[n]? = some x) :
    (∃ q ∈ insertions, q.2 = x) ∨ ∃ i, l[i]? = some x ∧
      (insertAll insertions l).take n
        = insertAll (insertions.filter fun q => q.1 ≤ i) (l.take i) ∧
      (insertAll insertions l).drop (n + 1)
        = insertAll ((insertions.filter fun q => i < q.1).map fun q => (q.1 - (i + 1), q.2))
          (l.drop (i + 1)) := by
  -- number the elements of the list, to tell equal ones apart
  let tagged : List (α × Option ℕ) := l.zipIdx.map fun p => (p.1, some p.2)
  let added : List (ℕ × α × Option ℕ) := insertions.map fun q => (q.1, q.2, none)
  have hlist : tagged.map Prod.fst = l := by
    rw [List.map_map]
    exact List.zipIdx_map_fst 0 l
  have hadded : added.map (fun q => (q.1, q.2.1)) = insertions := by
    rw [List.map_map]
    exact List.map_id _
  have hall : insertAll insertions l = (insertAll added tagged).map Prod.fst := by
    rw [insertAll_map, hlist, hadded]
  have hlen : tagged.length = l.length := by rw [List.length_map, List.length_zipIdx]
  have hget : ∀ {j : ℕ} {y : α × Option ℕ}, tagged[j]? = some y →
      y.2 = some j ∧ l[j]? = some y.1 := by
    intro j y hy
    rw [List.getElem?_map, List.getElem?_zipIdx, Option.map_map, Nat.zero_add] at hy
    obtain ⟨z, hz, rfl⟩ := Option.map_eq_some_iff.mp hy
    exact ⟨rfl, hz⟩
  rw [hall, List.getElem?_map] at h
  obtain ⟨⟨x, tag⟩, hx, rfl⟩ := Option.map_eq_some_iff.mp h
  have hmem := (mem_insertAll (fun q hq => by
    obtain ⟨p, hp, rfl⟩ := List.mem_map.mp hq
    exact hlen ▸ hle p hp)).mp (List.mem_of_getElem? hx)
  rcases hmem with hmem | ⟨q, hq, heq⟩
  · obtain ⟨i, hi⟩ := List.mem_iff_getElem?.mp hmem
    obtain ⟨htag, hli⟩ := hget hi
    obtain rfl : tag = some i := htag
    refine .inr ⟨i, hli, ?_⟩
    have hlt : i < tagged.length := (List.getElem?_eq_some_iff.mp hi).1
    have hsplit : tagged = tagged.take i ++ (x, some i) :: tagged.drop (i + 1) := by
      rw [← (List.getElem?_eq_some_iff.mp hi).2, List.cons_getElem_drop_succ,
        List.take_append_drop]
    have hnot : ∀ (rest : List (ℕ × α × Option ℕ)) (part : List (α × Option ℕ)),
        (∀ q ∈ rest, q.2.2 = none) → (x, some i) ∉ part → (∀ q ∈ rest, q.1 ≤ part.length) →
        (x, some i) ∉ insertAll rest part := by
      intro rest part hrest hpart hle hmem
      rcases (mem_insertAll hle).mp hmem with hmem | ⟨q, hq, heq⟩
      · exact hpart hmem
      · have := hrest q hq
        rw [heq] at this
        cases this
    have hnone : ∀ q ∈ added, q.2.2 = none := by
      intro q hq
      obtain ⟨p, -, rfl⟩ := List.mem_map.mp hq
      rfl
    have hlength : (tagged.take i).length = i := List.length_take_of_le hlt.le
    have hfull := insertAll_split (show added.Pairwise fun p q => q.1 ≤ p.1 from
      List.pairwise_map.mpr hsorted) (tagged.take i) (x, some i) (tagged.drop (i + 1))
    rw [← hsplit, hlength] at hfull
    have hwhole := List.take_append_drop n (insertAll added tagged)
    rw [List.drop_eq_getElem_cons (List.getElem?_eq_some_iff.mp hx).1,
      (List.getElem?_eq_some_iff.mp hx).2] at hwhole
    have hfront : (x, some i) ∉ insertAll (added.filter fun q => q.1 ≤ i) (tagged.take i) := by
      refine hnot _ _ (fun q hq => hnone q (List.mem_of_mem_filter hq)) (fun hmem => ?_)
        fun q hq => hlength.symm ▸ of_decide_eq_true (List.mem_filter.mp hq).2
      obtain ⟨j, hj⟩ := List.mem_iff_getElem?.mp hmem
      rw [List.getElem?_take] at hj
      split_ifs at hj with hji
      exact Nat.ne_of_gt hji (Option.some.inj (hget hj).1)
    have hback : (x, some i) ∉ insertAll ((added.filter fun q => i < q.1).map fun q =>
        (q.1 - (i + 1), q.2)) (tagged.drop (i + 1)) := by
      refine hnot _ _ (fun q hq => ?_) (fun hmem => ?_) fun q hq => ?_
      · obtain ⟨p, hp, rfl⟩ := List.mem_map.mp hq
        exact hnone p (List.mem_of_mem_filter hp)
      · obtain ⟨j, hj⟩ := List.mem_iff_getElem?.mp hmem
        rw [List.getElem?_drop] at hj
        have := Option.some.inj (hget hj).1
        omega
      · obtain ⟨p, hp, rfl⟩ := List.mem_map.mp hq
        obtain ⟨r, hr, rfl⟩ := List.mem_map.mp (List.mem_of_mem_filter hp)
        have := hle r hr
        rw [List.length_drop, hlen]
        show r.1 - (i + 1) ≤ l.length - (i + 1)
        omega
    obtain ⟨htake, -, hdrop⟩ := (List.append_cons_inj_of_notMem hfront hback).mp
      (hfull.symm.trans hwhole.symm)
    have htakes : (tagged.take i).map Prod.fst = l.take i := by rw [List.map_take, hlist]
    have hdrops : (tagged.drop (i + 1)).map Prod.fst = l.drop (i + 1) := by
      rw [List.map_drop, hlist]
    constructor
    · rw [hall, ← List.map_take, ← htake, insertAll_map, htakes, List.filter_map,
        List.map_map]
      exact congrArg (insertAll · _) (List.map_id _)
    · rw [hall, ← List.map_drop, ← hdrop, insertAll_map, hdrops, List.filter_map,
        List.map_map, List.map_map]
      rfl
  · obtain ⟨p, hp, rfl⟩ := List.mem_map.mp hq
    exact .inl ⟨p, hp, (Prod.mk.inj heq).1⟩

end Csc512
