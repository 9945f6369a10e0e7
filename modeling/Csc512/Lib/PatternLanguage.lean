import Csc512.Lib.Pattern

/-!
# What a pattern reads

The texts that a pattern can match, where groups and conditions on the surroundings are left out. A
matcher only ever finds such texts.

## Main results

* `Pattern.exists_reads_of_mem_run` — a pattern stops behind a text that it reads
* `Pattern.reads_of_mem_findTexts` — the texts that are found
* `Pattern.isSome_fullMatch_iff` — the texts that are matched as a whole
-/

namespace Csc512

theorem between_append (s rest before before' : Text) (groups groups' : List (ℕ × Text)) :
    Cursor.between ⟨before, s ++ rest, groups⟩ ⟨before', rest, groups'⟩ = s := by
  rw [Cursor.between, List.length_append, Nat.add_sub_cancel, List.take_left]

namespace Pattern

/-- A pattern reads a text. -/
inductive Reads : Pattern → Text → Prop
  | empty : Reads empty []
  | char {p : Char → Bool} {c : Char} (h : p c) : Reads (char p) [c]
  | seq {p q : Pattern} {s t : Text} (hp : Reads p s) (hq : Reads q t) : Reads (seq p q) (s ++ t)
  | left {p q : Pattern} {s : Text} (h : Reads p s) : Reads (alt p q) s
  | right {p q : Pattern} {s : Text} (h : Reads q s) : Reads (alt p q) s
  | done {p : Pattern} : Reads (star p) []
  | more {p : Pattern} {s t : Text} (hp : Reads p s) (h : Reads (star p) t) :
    Reads (star p) (s ++ t)
  | group {k : ℕ} {p : Pattern} {s : Text} (h : Reads p s) : Reads (group k p) s
  | boundary {w : Char → Bool} : Reads (boundary w) []
  | atStart : Reads atStart []
  | atEnd : Reads atEnd []

/-- A cursor that stands behind a text that a pattern reads. -/
def ReadsTo (p : Pattern) (c d : Cursor) : Prop := ∃ s, c.after = s ++ d.after ∧ Reads p s

theorem readsTo_repeatStep {p : Pattern} (h : ∀ c, ∀ d ∈ p.run c, ReadsTo p c d) (n : ℕ)
    (c : Cursor) : ∀ d ∈ repeatStep p.run n c, ReadsTo (star p) c d := by
  induction n generalizing c with
  | zero =>
    intro d hd
    obtain rfl := List.mem_singleton.mp hd
    exact ⟨[], rfl, .done⟩
  | succ n ih =>
    intro d hd
    rcases List.mem_append.mp hd with hd | hd
    · obtain ⟨e, he, hd⟩ := List.mem_flatMap.mp hd
      obtain ⟨s, hs, hp⟩ := h c e (List.mem_of_mem_filter he)
      obtain ⟨t, ht, hstar⟩ := ih e d hd
      exact ⟨s ++ t, by rw [hs, ht, List.append_assoc], .more hp hstar⟩
    · obtain rfl := List.mem_singleton.mp hd
      exact ⟨[], rfl, .done⟩

/-- **A pattern stops behind a text that it reads.** -/
theorem exists_reads_of_mem_run (p : Pattern) (c : Cursor) : ∀ d ∈ p.run c, ReadsTo p c d := by
  induction p generalizing c with
  | empty =>
    intro d hd
    obtain rfl := List.mem_singleton.mp hd
    exact ⟨[], rfl, .empty⟩
  | char f =>
    intro d hd
    rw [run] at hd
    split at hd
    · cases hd
    · rename_i x s hafter
      split at hd
      · obtain rfl := List.mem_singleton.mp hd
        exact ⟨[x], hafter, .char ‹_›⟩
      · cases hd
  | seq p q ihp ihq =>
    intro d hd
    obtain ⟨e, he, hd⟩ := List.mem_flatMap.mp hd
    obtain ⟨s, hs, hp⟩ := ihp c e he
    obtain ⟨t, ht, hq⟩ := ihq e d hd
    exact ⟨s ++ t, by rw [hs, ht, List.append_assoc], .seq hp hq⟩
  | alt p q ihp ihq =>
    intro d hd
    rcases List.mem_append.mp hd with hd | hd
    · obtain ⟨s, hs, hp⟩ := ihp c d hd
      exact ⟨s, hs, .left hp⟩
    · obtain ⟨s, hs, hq⟩ := ihq c d hd
      exact ⟨s, hs, .right hq⟩
  | star p ih => exact readsTo_repeatStep ih _ c
  | group k p ih =>
    intro d hd
    obtain ⟨e, he, rfl⟩ := List.mem_map.mp hd
    obtain ⟨s, hs, hp⟩ := ih c e he
    exact ⟨s, hs, .group hp⟩
  | boundary w =>
    intro d hd
    rw [run] at hd
    split at hd
    · obtain rfl := List.mem_singleton.mp hd
      exact ⟨[], rfl, .boundary⟩
    · cases hd
  | atStart =>
    intro d hd
    rw [run] at hd
    split at hd
    · obtain rfl := List.mem_singleton.mp hd
      exact ⟨[], rfl, .atStart⟩
    · cases hd
  | atEnd =>
    intro d hd
    rw [run] at hd
    split at hd
    · obtain rfl := List.mem_singleton.mp hd
      exact ⟨[], rfl, .atEnd⟩
    · cases hd

theorem mem_run_of_searchFrom {p : Pattern} {n : ℕ} {c : Cursor} {m : Cursor × Cursor}
    (h : searchFrom p n c = some m) : m.2 ∈ p.run m.1 := by
  induction n generalizing c with
  | zero =>
    obtain ⟨d, hd, rfl⟩ := Option.map_eq_some_iff.mp h
    exact List.mem_of_head? hd
  | succ n ih =>
    rw [searchFrom] at h
    split at h
    · obtain rfl := Option.some.inj h
      exact List.mem_of_head? ‹_›
    · split at h
      · cases h
      · exact ih h

theorem mem_run_of_findAllFrom {p : Pattern} {n : ℕ} {c : Cursor} :
    ∀ m ∈ findAllFrom p n c, m.2 ∈ p.run m.1 := by
  induction n generalizing c with
  | zero => nofun
  | succ n ih =>
    rw [findAllFrom]
    split
    · nofun
    · rename_i start stop hfound
      have hfirst := mem_run_of_searchFrom hfound
      split
      · exact List.forall_mem_cons.mpr ⟨hfirst, ih⟩
      · split
        · exact List.forall_mem_cons.mpr ⟨hfirst, nofun⟩
        · exact List.forall_mem_cons.mpr ⟨hfirst, ih⟩

/-- **The texts that are found** are texts that the pattern reads. -/
theorem reads_of_mem_findTexts {p : Pattern} {s t : Text} (h : t ∈ p.findTexts s) :
    Reads p t := by
  obtain ⟨m, hm, rfl⟩ := List.mem_map.mp h
  obtain ⟨u, hu, hreads⟩ := exists_reads_of_mem_run p m.1 m.2 (mem_run_of_findAllFrom m hm)
  rwa [Cursor.between, hu, List.length_append, Nat.add_sub_cancel, List.take_left]

theorem after_suffix_of_searchFrom {p : Pattern} {n : ℕ} {c : Cursor} {m : Cursor × Cursor}
    (h : searchFrom p n c = some m) : m.1.after <:+ c.after := by
  induction n generalizing c with
  | zero =>
    obtain ⟨d, -, rfl⟩ := Option.map_eq_some_iff.mp h
    exact List.suffix_rfl
  | succ n ih =>
    rw [searchFrom] at h
    split at h
    · obtain rfl := Option.some.inj h
      exact List.suffix_rfl
    · split at h
      · cases h
      · rename_i x s hafter
        exact (ih h).trans (hafter ▸ List.suffix_cons x s)

/-- **Nothing is replaced** in a text in which the pattern reads nothing. -/
theorem replaceAll_of_not_infix {p : Pattern} {s : Text} (h : ∀ t, Reads p t → ¬ t <:+: s)
    (rep : Cursor → Text) : p.replaceAll rep s = s := by
  have hnone : ∀ n, searchFrom p n (Cursor.start s) = none := by
    intro n
    by_contra hne
    obtain ⟨m, hm⟩ := Option.ne_none_iff_exists'.mp hne
    obtain ⟨t, ht, hreads⟩ := exists_reads_of_mem_run p m.1 m.2 (mem_run_of_searchFrom hm)
    obtain ⟨front, hfront⟩ := after_suffix_of_searchFrom hm
    exact h t hreads ⟨front, m.2.after, by rw [List.append_assoc, ← ht, hfront]; rfl⟩
  have hfind : p.findAll s = [] := by
    rw [findAll, findAllFrom, hnone]
  rw [replaceAll, hfind]
  rfl

theorem Reads.eq_of_literal {s t : Text} (h : Reads (literal s) t) : t = s := by
  induction s generalizing t with
  | nil =>
    cases h
    rfl
  | cons c s ih =>
    cases h with
    | seq hp hq =>
      cases hp with
      | char hc =>
        obtain rfl := of_decide_eq_true hc
        rw [ih hq]
        rfl

/-! ### Letters -/

/-- A pattern of letters reads letters. -/
theorem Reads.forall_of_star_char {f : Char → Bool} {s : Text} (h : Reads (star (Pattern.char f)) s) :
    ∀ c ∈ s, f c := by
  generalize hp : star (Pattern.char f) = p at h
  induction h with
  | done => nofun
  | more hfirst hrest ihfirst ih =>
    obtain rfl := Pattern.star.inj hp
    cases hfirst with
    | char hc => exact List.forall_mem_cons.mpr ⟨hc, ih rfl⟩
  | _ => cases hp

/-- The preferred match of a pattern of letters is as long as can be. -/
theorem head?_run_star_char {f : Char → Bool} {s rest : Text} (hs : ∀ c ∈ s, f c)
    (hrest : ∀ c ∈ rest.head?, f c = false) (before : Text) (groups : List (ℕ × Text)) :
    ((star (Pattern.char f)).run ⟨before, s ++ rest, groups⟩).head?
      = some ⟨s.reverse ++ before, rest, groups⟩ := by
  have hstep : ∀ n ≥ s.length, (repeatStep (Pattern.char f).run n
      ⟨before, s ++ rest, groups⟩).head? = some ⟨s.reverse ++ before, rest, groups⟩ := by
    induction s generalizing before with
    | nil =>
      intro n _
      cases n with
      | zero => rfl
      | succ n =>
        have hrun : (Pattern.char f).run ⟨before, rest, groups⟩ = [] := by
          cases rest with
          | nil => rfl
          | cons c rest => exact if_neg (by simp [hrest c rfl])
        rw [List.nil_append, repeatStep, hrun]
        rfl
    | cons c s ih =>
      intro n hn
      obtain ⟨n, rfl⟩ := Nat.exists_eq_succ_of_ne_zero (Nat.ne_zero_of_lt hn)
      have hc : f c := hs c List.mem_cons_self
      have hnext := ih (fun d hd => hs d (List.mem_cons_of_mem _ hd)) (c :: before) n
        (Nat.le_of_succ_le_succ hn)
      have hrun : (Pattern.char f).run ⟨before, c :: s ++ rest, groups⟩
          = [⟨c :: before, s ++ rest, groups⟩] := if_pos hc
      rw [repeatStep, hrun]
      simp only [List.filter_cons, List.filter_nil, List.cons_append, List.length_cons,
        Nat.lt_succ_self, decide_true, if_true, List.flatMap_cons, List.flatMap_nil,
        List.append_nil]
      rw [List.head?_append, hnext]
      simp
  exact hstep _ (by simp)

/-- The preferred match of a letter and more letters is as long as can be. -/
theorem head?_run_of_reads_letters {f g : Char → Bool} {s rest : Text}
    (hs : Reads (seq (Pattern.char f) (star (Pattern.char g))) s)
    (hrest : ∀ c ∈ rest.head?, g c = false) (before : Text) (groups : List (ℕ × Text)) :
    ((seq (Pattern.char f) (star (Pattern.char g))).run ⟨before, s ++ rest, groups⟩).head?
      = some ⟨s.reverse ++ before, rest, groups⟩ := by
  cases hs with
  | @seq _ _ v w hv hw =>
    cases hv with
    | @char _ c hc =>
      have hfirst : (Pattern.char f).run ⟨before, [c] ++ w ++ rest, groups⟩
          = [⟨c :: before, w ++ rest, groups⟩] := if_pos hc
      rw [run, hfirst, List.flatMap_singleton, List.reverse_append, List.append_assoc]
      exact head?_run_star_char hw.forall_of_star_char hrest (c :: before) groups

/-! ### Matching a whole text -/

theorem fullMatch_of_head? {p : Pattern} {s : Text} {c : Cursor}
    (h : (p.run (Cursor.start s)).head? = some c) (hc : c.after = []) : p.fullMatch s = some c := by
  obtain ⟨l, hl⟩ := List.head?_eq_some_iff.mp h
  rw [fullMatch, hl, List.find?_cons_of_pos (by simpa using hc)]

theorem head?_run_char {f : Char → Bool} {c : Char} (h : f c = true) (before s : Text)
    (groups : List (ℕ × Text)) : ((Pattern.char f).run ⟨before, c :: s, groups⟩).head?
      = some ⟨c :: before, s, groups⟩ := by
  have hrun : (Pattern.char f).run ⟨before, c :: s, groups⟩ = [⟨c :: before, s, groups⟩] := if_pos h
  rw [hrun]
  rfl

theorem head?_run_seq {p q : Pattern} {c d e : Cursor} (hp : (p.run c).head? = some d)
    (hq : (q.run d).head? = some e) : ((seq p q).run c).head? = some e := by
  obtain ⟨l, hl⟩ := List.head?_eq_some_iff.mp hp
  rw [run, hl, List.flatMap_cons, List.head?_append, hq]
  rfl

theorem head?_run_group {p : Pattern} {k : ℕ} {c d : Cursor} (hp : (p.run c).head? = some d) :
    ((group k p).run c).head? = some { d with groups := (k, c.between d) :: d.groups } := by
  rw [run, List.head?_map, hp]
  rfl

/-- A character that no part of a pattern can read. -/
def avoids (x : Char) : Pattern → Bool
  | char f => !f x
  | seq p q => p.avoids x && q.avoids x
  | alt p q => p.avoids x && q.avoids x
  | star p => p.avoids x
  | group _ p => p.avoids x
  | empty | boundary _ | atStart | atEnd => true

theorem Reads.notMem {p : Pattern} {s : Text} (h : Reads p s) {x : Char}
    (hp : p.avoids x = true) : x ∉ s := by
  induction h with
  | char hc =>
    rw [List.mem_singleton]
    rintro rfl
    simp [avoids, hc] at hp
  | seq _ _ ihp ihq =>
    rw [avoids, Bool.and_eq_true] at hp
    rw [List.mem_append, not_or]
    exact ⟨ihp hp.1, ihq hp.2⟩
  | left _ ih =>
    rw [avoids, Bool.and_eq_true] at hp
    exact ih hp.1
  | right _ ih =>
    rw [avoids, Bool.and_eq_true] at hp
    exact ih hp.2
  | more _ _ ihp ih =>
    rw [List.mem_append, not_or]
    exact ⟨ihp hp, ih hp⟩
  | group _ ih => exact ih hp
  | _ => exact List.not_mem_nil

theorem fullMatch_eq_none {p : Pattern} {s : Text} {x : Char} (hp : p.avoids x = true)
    (hx : x ∈ s) : p.fullMatch s = none := by
  by_contra hne
  obtain ⟨c, hc⟩ := Option.ne_none_iff_exists'.mp hne
  obtain ⟨t, ht, hreads⟩ := exists_reads_of_mem_run p _ c (List.mem_of_find?_eq_some hc)
  have hdone : c.after = [] := by simpa using List.find?_some hc
  rw [hdone, List.append_nil] at ht
  exact hreads.notMem hp (ht ▸ hx)

/-- Patterns without conditions on the surroundings. -/
def anchorless : Pattern → Bool
  | seq p q => p.anchorless && q.anchorless
  | alt p q => p.anchorless && q.anchorless
  | star p => p.anchorless
  | group _ p => p.anchorless
  | empty | char _ => true
  | boundary _ | atStart | atEnd => false

theorem self_mem_repeatStep (step : Cursor → List Cursor) (n : ℕ) (c : Cursor) :
    c ∈ repeatStep step n c := by
  cases n with
  | zero => exact List.mem_singleton_self c
  | succ n => exact List.mem_append_right _ (List.mem_singleton_self c)

theorem mem_repeatStep_of_le {step : Cursor → List Cursor} {m n : ℕ} {c d : Cursor}
    (h : d ∈ repeatStep step m c) (hle : m ≤ n) : d ∈ repeatStep step n c := by
  induction m generalizing n c with
  | zero =>
    obtain rfl := List.mem_singleton.mp h
    exact self_mem_repeatStep step n _
  | succ m ih =>
    obtain ⟨n, rfl⟩ := Nat.exists_eq_add_of_le' (Nat.le_of_add_left_le hle)
    rcases List.mem_append.mp h with h | h
    · obtain ⟨e, he, hd⟩ := List.mem_flatMap.mp h
      exact List.mem_append_left _ (List.mem_flatMap.mpr ⟨e, he, ih hd (by omega)⟩)
    · exact List.mem_append_right _ h

/-- **A pattern can stop** behind every text that it reads. -/
theorem exists_mem_run_of_reads {p : Pattern} {s : Text} (h : Reads p s) (hp : p.anchorless = true)
    (before rest : Text) (groups : List (ℕ × Text)) :
    ∃ d ∈ p.run ⟨before, s ++ rest, groups⟩, d.after = rest := by
  induction h generalizing before rest groups with
  | empty => exact ⟨_, List.mem_singleton_self _, rfl⟩
  | @char f c hc => exact ⟨_, List.mem_of_head? (head?_run_char hc before rest groups), rfl⟩
  | @seq p q s t _ _ ihp ihq =>
    rw [anchorless, Bool.and_eq_true] at hp
    rw [List.append_assoc]
    obtain ⟨d, hd, hafter⟩ := ihp hp.1 before (t ++ rest) groups
    obtain ⟨before', after', groups'⟩ := d
    obtain rfl : after' = t ++ rest := hafter
    obtain ⟨e, he, hrest⟩ := ihq hp.2 before' rest groups'
    exact ⟨e, List.mem_flatMap.mpr ⟨_, hd, he⟩, hrest⟩
  | left _ ih =>
    rw [anchorless, Bool.and_eq_true] at hp
    obtain ⟨d, hd, hafter⟩ := ih hp.1 before rest groups
    exact ⟨d, List.mem_append_left _ hd, hafter⟩
  | right _ ih =>
    rw [anchorless, Bool.and_eq_true] at hp
    obtain ⟨d, hd, hafter⟩ := ih hp.2 before rest groups
    exact ⟨d, List.mem_append_right _ hd, hafter⟩
  | done => exact ⟨_, self_mem_repeatStep _ _ _, rfl⟩
  | @more p s t _ _ ihp ih =>
    rcases List.eq_nil_or_concat s with rfl | ⟨s, x, rfl⟩
    · exact ih hp before rest groups
    · rw [List.append_assoc]
      obtain ⟨d, hd, hafter⟩ := ihp hp before (t ++ rest) groups
      obtain ⟨before', after', groups'⟩ := d
      obtain rfl : after' = t ++ rest := hafter
      obtain ⟨e, he, hrest⟩ := ih hp before' rest groups'
      -- the first part is not empty, so that the rest is shorter
      have hlen : (s.concat x ++ (t ++ rest)).length = (t ++ rest).length + s.length + 1 := by
        simp
        omega
      refine ⟨e, ?_, hrest⟩
      show e ∈ repeatStep p.run (s.concat x ++ (t ++ rest)).length _
      rw [hlen]
      refine List.mem_append_left _ (List.mem_flatMap.mpr ⟨_, List.mem_filter.mpr ⟨hd, ?_⟩, ?_⟩)
      · simp only [List.concat_eq_append, List.length_append, List.length_cons, List.length_nil,
          decide_eq_true_eq]
        omega
      · exact mem_repeatStep_of_le he (Nat.le_add_right _ _)
  | group _ ih =>
    obtain ⟨d, hd, hafter⟩ := ih hp before rest groups
    exact ⟨_, List.mem_map_of_mem hd, hafter⟩
  | boundary | atStart | atEnd => cases hp

/-- **The texts that are matched as a whole** are those that the pattern reads. -/
theorem isSome_fullMatch_iff {p : Pattern} (hp : p.anchorless = true) {s : Text} :
    (p.fullMatch s).isSome ↔ Reads p s := by
  constructor
  · intro h
    obtain ⟨c, hc⟩ := Option.isSome_iff_exists.mp h
    obtain ⟨t, ht, hreads⟩ := exists_reads_of_mem_run p _ c (List.mem_of_find?_eq_some hc)
    have hdone : c.after = [] := by simpa using List.find?_some hc
    rw [hdone, List.append_nil] at ht
    rwa [show s = t from ht]
  · intro h
    obtain ⟨d, hd, hafter⟩ := exists_mem_run_of_reads h hp [] [] []
    rw [List.append_nil] at hd
    exact List.find?_isSome.mpr ⟨d, hd, by simpa using hafter⟩

/-- **A pattern is found** in the texts that hold a text that it reads. -/
theorem isSome_searchFrom_iff {p : Pattern} (hp : p.anchorless = true) {n : ℕ} {c : Cursor}
    (hn : c.after.length ≤ n) :
    (searchFrom p n c).isSome ↔ ∃ t, Reads p t ∧ t <:+: c.after := by
  constructor
  · intro h
    obtain ⟨m, hm⟩ := Option.isSome_iff_exists.mp h
    obtain ⟨t, ht, hreads⟩ := exists_reads_of_mem_run p m.1 m.2 (mem_run_of_searchFrom hm)
    obtain ⟨front, hfront⟩ := after_suffix_of_searchFrom hm
    exact ⟨t, hreads, front, m.2.after, by rw [List.append_assoc, ← ht, hfront]⟩
  · rintro ⟨t, hreads, front, rest, hinfix⟩
    have hhead : ∀ before groups, ((p.run ⟨before, t ++ rest, groups⟩).head?).isSome := by
      intro before groups
      obtain ⟨d, hd, -⟩ := exists_mem_run_of_reads hreads hp before rest groups
      exact List.isSome_head?.mpr (List.ne_nil_of_mem hd)
    induction n generalizing c front with
    | zero =>
      obtain ⟨before, after, groups⟩ := c
      obtain rfl : after = [] := List.length_eq_zero_iff.mp (Nat.le_zero.mp hn)
      obtain ⟨hleft, hrest⟩ := List.append_eq_nil_iff.mp hinfix
      obtain ⟨-, ht⟩ := List.append_eq_nil_iff.mp hleft
      have hfirst := hhead before groups
      rw [ht, hrest, List.append_nil] at hfirst
      rw [searchFrom, Option.isSome_map]
      exact hfirst
    | succ n ih =>
      obtain ⟨before, after, groups⟩ := c
      rw [searchFrom]
      split
      · rfl
      · rename_i hnone
        cases front with
        | nil =>
          have hfirst := hhead before groups
          rw [show t ++ rest = after from hinfix, hnone] at hfirst
          cases hfirst
        | cons x front =>
          obtain rfl : x :: front ++ t ++ rest = after := hinfix
          exact ih (c := ⟨x :: before, front ++ t ++ rest, []⟩)
            (by simpa using hn) front rfl

theorem isSome_search_iff {p : Pattern} (hp : p.anchorless = true) {s : Text} :
    (p.search s).isSome ↔ ∃ t, Reads p t ∧ t <:+: s :=
  isSome_searchFrom_iff hp (Nat.le_refl _)

theorem reads_literal (s : Text) : Reads (literal s) s := by
  induction s with
  | nil => exact .empty
  | cons c s ih => exact .seq (s := [c]) (.char (decide_eq_true rfl)) ih

theorem anchorless_literal (s : Text) : (literal s).anchorless = true := by
  induction s with
  | nil => rfl
  | cons c s ih => exact ih

/-! ### The last place where a pattern goes on -/

theorem eq_of_mem_repeatStep_char {f : Char → Bool} {n : ℕ} {before s : Text}
    {groups : List (ℕ × Text)} {d : Cursor}
    (h : d ∈ repeatStep (Pattern.char f).run n ⟨before, s, groups⟩) :
    ∃ t u b, s = t ++ u ∧ d = ⟨b, u, groups⟩ := by
  induction n generalizing before s with
  | zero => exact ⟨[], s, before, rfl, List.mem_singleton.mp h⟩
  | succ n ih =>
    rcases List.mem_append.mp h with h | h
    · obtain ⟨e, he, hd⟩ := List.mem_flatMap.mp h
      have hrun := List.mem_of_mem_filter he
      rw [run] at hrun
      split at hrun
      · cases hrun
      · rename_i x s' hafter
        obtain rfl : s = x :: s' := hafter
        split at hrun
        · obtain rfl := List.mem_singleton.mp hrun
          obtain ⟨t, u, b, rfl, heq⟩ := ih hd
          exact ⟨x :: t, u, b, rfl, heq⟩
        · cases hrun
    · exact ⟨[], s, before, rfl, List.mem_singleton.mp h⟩

theorem repeatStep_char_cons {f : Char → Bool} {x : Char} (hx : f x = true) (n : ℕ)
    (before s : Text) (groups : List (ℕ × Text)) :
    repeatStep (Pattern.char f).run (n + 1) ⟨before, x :: s, groups⟩
      = repeatStep (Pattern.char f).run n ⟨x :: before, s, groups⟩ ++ [⟨before, x :: s, groups⟩] := by
  have hrun : (Pattern.char f).run ⟨before, x :: s, groups⟩ = [⟨x :: before, s, groups⟩] :=
    if_pos hx
  rw [repeatStep, hrun]
  simp

/-- Letters are read up to the last place where it goes on. -/
theorem head?_flatMap_star_char {f : Char → Bool} {s rest : Text} {groups : List (ℕ × Text)}
    {F : Cursor → List Cursor} {Q : Cursor → Prop} (hs : ∀ c ∈ s, f c = true)
    (hlater : ∀ t u b, rest = t ++ u → t ≠ [] → F ⟨b, u, groups⟩ = [])
    (hhere : ∀ b, ∃ d, (F ⟨b, rest, groups⟩).head? = some d ∧ Q d) (before : Text) {n : ℕ}
    (hn : s.length ≤ n) :
    ∃ d, ((repeatStep (Pattern.char f).run n ⟨before, s ++ rest, groups⟩).flatMap F).head? = some d
      ∧ Q d := by
  induction s generalizing before n with
  | nil =>
    obtain ⟨d, hd, hQ⟩ := hhere before
    refine ⟨d, ?_, hQ⟩
    rw [List.nil_append]
    cases n with
    | zero =>
      rw [repeatStep, List.flatMap_singleton]
      exact hd
    | succ n =>
      have hnone : ∀ e ∈ ((Pattern.char f).run ⟨before, rest, groups⟩).filter
          (fun d => decide (d.after.length < rest.length)), ∀ d ∈ repeatStep (Pattern.char f).run n e,
          F d = [] := by
        intro e he d hd
        have hrun := List.mem_of_mem_filter he
        rw [run] at hrun
        split at hrun
        · cases hrun
        · rename_i x s' hafter
          obtain rfl : rest = x :: s' := hafter
          split at hrun
          · obtain rfl := List.mem_singleton.mp hrun
            obtain ⟨t, u, b, rfl, rfl⟩ := eq_of_mem_repeatStep_char hd
            exact hlater (x :: t) u b rfl (List.cons_ne_nil _ _)
          · cases hrun
      have hfirst : (((Pattern.char f).run ⟨before, rest, groups⟩).filter
          (fun d => decide (d.after.length < rest.length)) |>.flatMap
            (repeatStep (Pattern.char f).run n)).flatMap F = [] := by
        rw [List.flatMap_eq_nil_iff]
        intro d hd
        obtain ⟨e, he, hd⟩ := List.mem_flatMap.mp hd
        exact hnone e he d hd
      rw [repeatStep, List.flatMap_append, hfirst, List.nil_append, List.flatMap_singleton]
      exact hd
  | cons x s ih =>
    obtain ⟨n, rfl⟩ := Nat.exists_eq_succ_of_ne_zero (Nat.ne_zero_of_lt hn)
    obtain ⟨d, hd, hQ⟩ := ih (fun c hc => hs c (List.mem_cons_of_mem _ hc)) (x :: before)
      (Nat.le_of_succ_le_succ hn)
    refine ⟨d, ?_, hQ⟩
    rw [List.cons_append, repeatStep_char_cons (hs x List.mem_cons_self), List.flatMap_append,
      List.head?_append, hd]
    rfl

/-- A group of letters is read up to the last place where the pattern behind it goes on. -/
theorem head?_run_group_plus {f : Char → Bool} {k : ℕ} {q : Pattern} {s rest : Text}
    {Q : Cursor → Prop} (hne : s ≠ []) (hs : ∀ c ∈ s, f c = true)
    (hlater : ∀ t u b g, rest = t ++ u → t ≠ [] → q.run ⟨b, u, g⟩ = [])
    (groups : List (ℕ × Text))
    (hhere : ∀ b, ∃ d, (q.run ⟨b, rest, (k, s) :: groups⟩).head? = some d ∧ Q d) (before : Text) :
    ∃ d, ((seq (group k (plus (Pattern.char f))) q).run ⟨before, s ++ rest, groups⟩).head? = some d
      ∧ Q d := by
  obtain ⟨x, s, rfl⟩ := List.exists_cons_of_ne_nil hne
  let c : Cursor := ⟨before, x :: s ++ rest, groups⟩
  let F : Cursor → List Cursor := fun d => q.run { d with groups := (k, c.between d) :: d.groups }
  have hbetween : ∀ b, c.between ⟨b, rest, groups⟩ = x :: s := by
    intro b
    rw [Cursor.between, List.length_append, Nat.add_sub_cancel, List.take_left]
  have hfirst : (Pattern.char f).run c = [⟨x :: before, s ++ rest, groups⟩] :=
    if_pos (hs x List.mem_cons_self)
  have hrun : (seq (group k (plus (Pattern.char f))) q).run c
      = (repeatStep (Pattern.char f).run (s ++ rest).length
          ⟨x :: before, s ++ rest, groups⟩).flatMap F := by
    show ((((Pattern.char f).run c).flatMap (star (Pattern.char f)).run).map _).flatMap q.run = _
    rw [hfirst, List.flatMap_singleton, List.flatMap_map]
    rfl
  rw [show (⟨before, x :: s ++ rest, groups⟩ : Cursor) = c from rfl, hrun]
  have hlength : s.length ≤ (s ++ rest).length := by
    rw [List.length_append]
    omega
  refine head?_flatMap_star_char (F := F) (fun d hd => hs d (List.mem_cons_of_mem _ hd))
    (fun t u b ht hne => hlater t u b _ ht hne) (fun b => ?_) (x :: before) hlength
  obtain ⟨d, hd, hQ⟩ := hhere b
  refine ⟨d, ?_, hQ⟩
  show (q.run ⟨b, rest, (k, c.between ⟨b, rest, groups⟩) :: groups⟩).head? = _
  rw [hbetween]
  exact hd

end Pattern

end Csc512
