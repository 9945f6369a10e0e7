import Csc512.Cdup.FlatPlaces

/-!
# The places of a clone class

The classes of the clone detector described through the normal forms at flat positions. A class of
matches is a sequence of normal forms with its places: the ends of maximal matches with this
content. A Type I class of the Type II run has the places of one class of matches that also agree
in the Type I normal form.

## Main results

* `get?_cloneClasses` — the classes of matches hold the occurrences of their places
* `get?_type1Classes` — so do the Type I classes of the Type II run
-/

namespace Csc512

/-! ### Sets as lists -/

section Sets

variable {α : Type*} [DecidableEq α]

theorem mem_setAdd {s : List α} {x a : α} : a ∈ setAdd s x ↔ a ∈ s ∨ a = x := by
  unfold setAdd
  split
  · rename_i hx
    constructor
    · exact Or.inl
    · rintro (h | rfl)
      · exact h
      · exact hx
  · simp

theorem nodup_setAdd {s : List α} (h : s.Nodup) (x : α) : (setAdd s x).Nodup := by
  unfold setAdd
  split
  · exact h
  · rename_i hx
    exact List.nodup_append.mpr ⟨h, List.nodup_singleton x, fun a ha b hb hab =>
      hx (List.mem_singleton.mp hb ▸ hab ▸ ha)⟩

theorem mem_foldl_setAdd {xs s : List α} {a : α} :
    a ∈ xs.foldl setAdd s ↔ a ∈ s ∨ a ∈ xs := by
  induction xs generalizing s with
  | nil => simp
  | cons x xs ih => rw [List.foldl_cons, ih, mem_setAdd, or_assoc, List.mem_cons]

theorem nodup_foldl_setAdd (xs : List α) {s : List α} (h : s.Nodup) :
    (xs.foldl setAdd s).Nodup := by
  induction xs generalizing s with
  | nil => exact h
  | cons x xs ih => exact ih (nodup_setAdd h x)

omit [DecidableEq α] in
/-- A list of different elements has two of them if it has one beside a given one. -/
theorem two_le_length_iff {s : List α} (h : s.Nodup) {a : α} (ha : a ∈ s) :
    2 ≤ s.length ↔ ∃ b ∈ s, b ≠ a := by
  constructor
  · intro hlen
    match s, h, hlen with
    | x :: y :: s, h, _ =>
      have hxy : x ≠ y := by
        rintro rfl
        simp at h
      by_cases hx : x = a
      · exact ⟨y, by simp, fun hy => hxy (hx.trans hy.symm)⟩
      · exact ⟨x, by simp, hx⟩
  · rintro ⟨b, hb, hne⟩
    have hsub : [b, a].Subperm s :=
      List.subperm_of_subset (by simpa using hne) (by simp [ha, hb])
    exact hsub.length_le

end Sets

/-! ### The places of a class -/

section Places

variable (minLength maxFreq : ℤ) (flat : List (Option FlatEntry))

/-- A range with the normal forms `u` begins at `p` and is an end of a maximal match. -/
structure MatchPlace (u : List Text) (p : ℕ) : Prop where
  pos : 0 < u.length
  long : minLength ≤ u.length
  content : contentTuple flat p u.length = u
  matched : ∃ q, MaximalMatch maxFreq flat p q u.length ∨ MaximalMatch maxFreq flat q p u.length

/-- A range with the Type I normal forms `u` begins at `p`, and a class of matches has it and
another range with these Type I normal forms. -/
def ExactPlace (u : List Text) (p : ℕ) : Prop :=
  formsAt FlatEntry.norm1 flat p u.length = u ∧
    ∃ w : List Text, w.length = u.length ∧ MatchPlace minLength maxFreq flat w p ∧
      ∃ q, q ≠ p ∧ MatchPlace minLength maxFreq flat w q ∧
        formsAt FlatEntry.norm1 flat q u.length = u

/-- The places of the class of a type, by its content. -/
def Place (type2Norm : Bool) : CloneType → List Text → ℕ → Prop
  | .I, u, p =>
    if type2Norm then ExactPlace minLength maxFreq flat u p else MatchPlace minLength maxFreq flat u p
  | .II, u, p => type2Norm ∧ MatchPlace minLength maxFreq flat u p

variable {minLength maxFreq flat}

theorem MaximalMatch.flatRange_left {p q n : ℕ} (hn : 0 < n)
    (h : MaximalMatch maxFreq flat p q n) : FlatRange flat p n where
  pos := hn
  holds k hk := by
    obtain ⟨norm, hnorm, -⟩ := h.same k hk
    exact (Option.map_eq_some_iff.mp hnorm).imp fun entry he => he.1

theorem MaximalMatch.flatRange_right {p q n : ℕ} (hn : 0 < n)
    (h : MaximalMatch maxFreq flat p q n) : FlatRange flat q n where
  pos := hn
  holds k hk := by
    obtain ⟨norm, -, hnorm, -⟩ := h.same k hk
    exact (Option.map_eq_some_iff.mp hnorm).imp fun entry he => he.1

theorem MaximalMatch.contentTuple_eq {p q n : ℕ} (hn : 0 < n)
    (h : MaximalMatch maxFreq flat p q n) : contentTuple flat p n = contentTuple flat q n := by
  refine ((h.flatRange_left hn).formsAt_eq_iff (h.flatRange_right hn) _).mpr fun k hk => ?_
  obtain ⟨norm, hp, hq, -⟩ := h.same k hk
  rw [← normAt_eq, ← normAt_eq, hp, hq]

theorem MatchPlace.flatRange {u : List Text} {p : ℕ} (h : MatchPlace minLength maxFreq flat u p) :
    FlatRange flat p u.length := by
  obtain ⟨q, hq | hq⟩ := h.matched
  · exact hq.flatRange_left h.pos
  · exact hq.flatRange_right h.pos

/-- A place has a partner: another place of the same class. -/
theorem MatchPlace.exists_partner {u : List Text} {p : ℕ}
    (h : MatchPlace minLength maxFreq flat u p) :
    ∃ q, q ≠ p ∧ MatchPlace minLength maxFreq flat u q := by
  have hn := h.pos
  obtain ⟨q, hq | hq⟩ := h.matched
  · exact ⟨q, hq.lt.ne', h.pos, h.long, (hq.contentTuple_eq hn).symm.trans h.content, p, Or.inr hq⟩
  · exact ⟨q, hq.lt.ne, h.pos, h.long, (hq.contentTuple_eq hn).trans h.content, p, Or.inl hq⟩

theorem ExactPlace.flatRange {u : List Text} {p : ℕ}
    (h : ExactPlace minLength maxFreq flat u p) : FlatRange flat p u.length := by
  obtain ⟨-, w, hlen, hplace, -⟩ := h
  exact hlen ▸ hplace.flatRange

theorem Place.flatRange {type2Norm : Bool} {t : CloneType} {u : List Text} {p : ℕ}
    (h : Place minLength maxFreq flat type2Norm t u p) : FlatRange flat p u.length := by
  cases t with
  | I =>
    rw [Place] at h
    split at h
    · exact ExactPlace.flatRange h
    · exact h.flatRange
  | II => exact h.2.flatRange

/-- The content of a class can be read off any of its places. -/
theorem Place.content_eq {type2Norm : Bool} {t : CloneType} {u v : List Text} {p : ℕ}
    (h : Place minLength maxFreq flat type2Norm t u p)
    (h' : Place minLength maxFreq flat type2Norm t v p) (hlen : u.length = v.length) : u = v := by
  cases t with
  | I =>
    rw [Place] at h h'
    split at h
    · rw [if_pos ‹_›] at h'
      rw [← h.1, ← h'.1, hlen]
    · rw [if_neg ‹_›] at h'
      rw [← h.content, ← h'.content, hlen]
  | II => rw [← h.2.content, ← h'.2.content, hlen]

end Places

/-! ### The classes -/

section Classes

variable {minLength maxFreq : ℤ} {flat : List (Option FlatEntry)} {segments : List Segment}
  {base : ℕ → ℕ} (hlaid : Laid segments flat base)

include hlaid

/-- The classes as a plain fold. -/
theorem cloneClasses_eq :
    cloneClasses flat (completedClones minLength maxFreq flat)
      = some (Dict.extend (fun m : ℕ × ℕ × ℕ => contentTuple flat m.1 m.2.2)
        (fun s m => setAdd (setAdd s (occAt flat m.1 m.2.2)) (occAt flat m.2.1 m.2.2))
        (completedClones minLength maxFreq flat) Dict.empty) := by
  have hrange : ∀ m ∈ completedClones minLength maxFreq flat,
      FlatRange flat m.1 m.2.2 ∧ FlatRange flat m.2.1 m.2.2 := by
    rintro ⟨a, b, n⟩ hm
    obtain ⟨hmatch, hn, -⟩ := ((mem_completedClones_iff maxFreq minLength flat).2 a b n).mp hm
    exact ⟨hmatch.flatRange_left hn, hmatch.flatRange_right hn⟩
  rw [cloneClasses]
  revert hrange
  generalize completedClones minLength maxFreq flat = matched
  generalize (Dict.empty : Dict (List Text) (List Occurrence)) = classes
  intro hrange
  induction matched generalizing classes with
  | nil => rfl
  | cons m matched ih =>
    obtain ⟨ha, hb⟩ := hrange m List.mem_cons_self
    rw [List.foldlM_cons, addMatch, ha.flatRangeToOccurrence_eq hlaid,
      hb.flatRangeToOccurrence_eq hlaid]
    exact ih _ fun m hm => hrange m (List.mem_cons_of_mem _ hm)

variable (maxFreq) in
/-- **The classes and their places.** -/
theorem get?_cloneClasses :
    ∃ classes, cloneClasses flat (completedClones minLength maxFreq flat) = some classes ∧
      (∀ u o, o ∈ (classes.get? u).getD [] ↔
        ∃ p, MatchPlace minLength maxFreq flat u p ∧ o = occAt flat p u.length) ∧
      ∀ u s, classes.get? u = some s → s.Nodup ∧ s ≠ [] := by
  refine ⟨_, cloneClasses_eq hlaid, fun u o => ?_, fun u s hs => ?_⟩
  · rw [Dict.mem_get?_extend _ _ (fun m => [occAt flat m.1 m.2.2, occAt flat m.2.1 m.2.2])
      (fun s m a => by simp [mem_setAdd, or_assoc])]
    simp only [Dict.get?_empty, Option.getD_none, List.not_mem_nil, false_or, List.mem_cons,
      or_false, Prod.exists, (mem_completedClones_iff maxFreq minLength flat).2]
    constructor
    · rintro ⟨a, b, n, ⟨hmatch, hn, hlong⟩, rfl, ho⟩
      have hlen : (contentTuple flat a n).length = n :=
        (hmatch.flatRange_left hn).formsAt_length _
      have hplace : MatchPlace minLength maxFreq flat (contentTuple flat a n) a :=
        ⟨by omega, by omega, by rw [hlen], b, Or.inl (by rwa [hlen])⟩
      have hplace' : MatchPlace minLength maxFreq flat (contentTuple flat a n) b :=
        ⟨by omega, by omega, by rw [hlen, hmatch.contentTuple_eq hn], a, Or.inr (by rwa [hlen])⟩
      rcases ho with rfl | rfl
      · exact ⟨a, hplace, by rw [hlen]⟩
      · exact ⟨b, hplace', by rw [hlen]⟩
    · rintro ⟨p, hplace, rfl⟩
      have hn := hplace.pos
      obtain ⟨q, hq | hq⟩ := hplace.matched
      · exact ⟨p, q, u.length, ⟨hq, hn, hplace.long⟩, hplace.content, Or.inl rfl⟩
      · exact ⟨q, p, u.length, ⟨hq, hn, hplace.long⟩, (hq.contentTuple_eq hn).trans hplace.content,
          Or.inr rfl⟩
  · refine Dict.forall_get?_extend _ _ (P := List.Nodup) (Q := fun s => s.Nodup ∧ s ≠ [])
      List.nodup_nil (fun s h => h.1) _
      (fun s m _ h => ⟨nodup_setAdd (nodup_setAdd h _) _, ?_⟩) (by simp) hs
    exact List.ne_nil_of_mem (mem_setAdd.mpr (Or.inr rfl))

omit hlaid in
theorem nodup_norm1Groups (order : SetOrder Occurrence) {occurrences : List Occurrence}
    {v : List Text} {g : List Occurrence}
    (hg : (norm1Groups flat order occurrences).get? v = some g) : g.Nodup :=
  Dict.forall_get?_extend _ _ (P := List.Nodup) (Q := List.Nodup) List.nodup_nil (fun _ h => h) _
    (fun _ x _ h => nodup_setAdd h x) (by simp) hg

omit hlaid in
theorem mem_norm1Groups (order : SetOrder Occurrence) {occurrences : List Occurrence}
    {v : List Text} {o : Occurrence} :
    o ∈ ((norm1Groups flat order occurrences).get? v).getD [] ↔
      o ∈ occurrences ∧ norm1Tuple flat o = v := by
  rw [norm1Groups, ← Dict.extend, Dict.mem_get?_extend _ _ (fun occ => [occ])
    (fun s x a => by simp [mem_setAdd])]
  simp only [Dict.get?_empty, Option.getD_none, List.not_mem_nil, false_or,
    (order.perm _).mem_iff, List.mem_singleton]
  constructor
  · rintro ⟨x, hx, hv, rfl⟩
    exact ⟨hx, hv⟩
  · rintro ⟨ho, hv⟩
    exact ⟨o, ho, hv, rfl⟩

omit hlaid in
/-- The Type I classes as a plain fold over the groups with at least two occurrences. -/
theorem type1Classes_eq (order : SetOrder Occurrence) (classes : Dict (List Text) (List Occurrence)) :
    type1Classes flat order classes
      = Dict.extend Prod.fst (fun s g => (order.visit g.2).foldl setAdd s)
        ((classes.entries.flatMap fun c => (norm1Groups flat order c.2).entries).filter
          fun g => 2 ≤ g.2.length) Dict.empty := by
  rw [Dict.extend, List.foldl_filter, List.foldl_flatMap, type1Classes]
  simp only [addGroups, decide_eq_true_eq]

omit hlaid in
/-- What the Type I classes hold: the occurrences that agree with another one of their class. -/
theorem mem_type1Classes (order : SetOrder Occurrence)
    {classes : Dict (List Text) (List Occurrence)} {v : List Text} {o : Occurrence} :
    o ∈ ((type1Classes flat order classes).get? v).getD [] ↔
      ∃ u s, classes.get? u = some s ∧ o ∈ s ∧ norm1Tuple flat o = v ∧
        ∃ o' ∈ s, o' ≠ o ∧ norm1Tuple flat o' = v := by
  rw [type1Classes_eq, Dict.mem_get?_extend _
    (fun s (g : List Text × List Occurrence) => (order.visit g.2).foldl setAdd s)
    (fun g => order.visit g.2) (fun s g a => mem_foldl_setAdd)]
  simp only [Dict.get?_empty, Option.getD_none, List.not_mem_nil, false_or, List.mem_filter,
    List.mem_flatMap, (order.perm _).mem_iff, Prod.exists, decide_eq_true_eq,
    ← Dict.get?_eq_some_iff]
  constructor
  · rintro ⟨v', g, ⟨⟨u, s, hs, hg⟩, hlen⟩, rfl, ho⟩
    have hmem : ∀ o, o ∈ g ↔ o ∈ s ∧ norm1Tuple flat o = v' := by
      intro o
      rw [← mem_norm1Groups order, hg, Option.getD_some]
    obtain ⟨o', ho', hne⟩ := (two_le_length_iff (nodup_norm1Groups order hg) ho).mp hlen
    exact ⟨u, s, hs, ((hmem o).mp ho).1, ((hmem o).mp ho).2, o', ((hmem o').mp ho').1, hne,
      ((hmem o').mp ho').2⟩
  · rintro ⟨u, s, hs, ho, hv, o', ho', hne, hv'⟩
    have hin := (mem_norm1Groups order).mpr ⟨ho, hv⟩
    have hin' := (mem_norm1Groups order).mpr ⟨ho', hv'⟩
    cases hg : (norm1Groups flat order s).get? v with
    | none =>
      rw [hg] at hin
      cases hin
    | some g =>
      rw [hg, Option.getD_some] at hin hin'
      have hlen := (two_le_length_iff (nodup_norm1Groups order hg) hin).mpr ⟨o', hin', hne⟩
      exact ⟨v, g, ⟨⟨u, s, hs, hg⟩, hlen⟩, rfl, hin⟩

/-- **The Type I classes and their places.** -/
theorem get?_type1Classes (order : SetOrder Occurrence)
    {classes : Dict (List Text) (List Occurrence)}
    (hclasses : ∀ u o, o ∈ (classes.get? u).getD [] ↔
      ∃ p, MatchPlace minLength maxFreq flat u p ∧ o = occAt flat p u.length) :
    (∀ v o, o ∈ ((type1Classes flat order classes).get? v).getD [] ↔
      ∃ p, ExactPlace minLength maxFreq flat v p ∧ o = occAt flat p v.length) ∧
    ∀ v s, (type1Classes flat order classes).get? v = some s → s.Nodup ∧ s ≠ [] := by
  refine ⟨fun v o => ?_, fun v s hs => ?_⟩
  · rw [mem_type1Classes]
    constructor
    · rintro ⟨u, s, hs, ho, hv, o', ho', hne, hv'⟩
      obtain ⟨p, hp, rfl⟩ := (hclasses u o).mp (by rwa [hs])
      obtain ⟨q, hq, rfl⟩ := (hclasses u o').mp (by rwa [hs])
      have hrange := hp.flatRange
      have hrange' := hq.flatRange
      rw [norm1Tuple_occAt hlaid hrange] at hv
      rw [norm1Tuple_occAt hlaid hrange'] at hv'
      have hlen : v.length = u.length := by rw [← hv, hrange.formsAt_length]
      refine ⟨p, ⟨by rw [hlen, hv], u, hlen.symm, hp, q, ?_, hq, by rw [hlen, hv']⟩, by rw [hlen]⟩
      exact fun hqp => hne (by rw [hqp])
    · rintro ⟨p, ⟨hv, u, hlen, hp, q, hne, hq, hv'⟩, rfl⟩
      have hrange := hp.flatRange
      have hrange' := hq.flatRange
      have hmem := (hclasses u _).mpr ⟨p, hp, rfl⟩
      have hmem' := (hclasses u _).mpr ⟨q, hq, rfl⟩
      cases hs : classes.get? u with
      | none =>
        rw [hs] at hmem
        cases hmem
      | some s =>
        rw [hs, Option.getD_some] at hmem hmem'
        rw [← hlen] at hv hv' ⊢
        refine ⟨u, s, hs, hmem, ?_, _, hmem', ?_, ?_⟩
        · rw [norm1Tuple_occAt hlaid hrange, hv]
        · exact fun heq => hne ((occAt_inj hlaid hrange' hrange).mp heq).1
        · rw [norm1Tuple_occAt hlaid hrange', hv']
  · rw [type1Classes_eq] at hs
    refine Dict.forall_get?_extend _
      (fun s (g : List Text × List Occurrence) => (order.visit g.2).foldl setAdd s)
      (P := List.Nodup) (Q := fun s => s.Nodup ∧ s ≠ []) List.nodup_nil (fun s h => h.1) _
      (fun s g hg h => ⟨nodup_foldl_setAdd _ h, fun hnil => ?_⟩) (by simp) hs
    -- a group with two occurrences adds some
    have hlen := (List.mem_filter.mp hg).2
    obtain ⟨o, ho⟩ := List.exists_mem_of_length_pos (l := g.2) (by
      simp only [decide_eq_true_eq] at hlen
      omega)
    have hmem : o ∈ (order.visit g.2).foldl setAdd s :=
      mem_foldl_setAdd.mpr (Or.inr ((order.perm _).mem_iff.mpr ho))
    rw [hnil] at hmem
    cases hmem

end Classes

end Csc512
