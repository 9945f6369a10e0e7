import Csc512.Lib.PatternLanguage

/-!
# Replacing a text

A literal text is replaced from the left: at every character the text is there or it is not.

## Main results

* `Replaced.replaceAll_eq` — what replacing every match of a literal text gives
* `replaceAll_literal_cons`, `replaceAll_literal_concat` — a character before the first place, or
  behind the last, is left alone
-/

namespace Csc512

open Pattern

variable {w r s t : Text}

/-- The text `w` is replaced by `r` from the left. -/
inductive Replaced (w r : Text) : Text → Text → Prop
  | nil : Replaced w r [] []
  | here {s t : Text} (h : Replaced w r s t) : Replaced w r (w ++ s) (r ++ t)
  | skip {c : Char} {s t : Text} (hc : ¬ w <+: c :: s) (h : Replaced w r s t) :
    Replaced w r (c :: s) (c :: t)

theorem exists_replaced (hw : w ≠ []) (r s : Text) : ∃ t, Replaced w r s t := by
  generalize hn : s.length = n
  induction n using Nat.strong_induction_on generalizing s with
  | _ n ih =>
    subst hn
    cases s with
    | nil => exact ⟨[], .nil⟩
    | cons c s =>
      by_cases hc : w <+: c :: s
      · obtain ⟨rest, hrest⟩ := hc
        have hlen := congrArg List.length hrest
        rw [List.length_append] at hlen
        have hpos := List.length_pos_of_ne_nil hw
        obtain ⟨t, ht⟩ := ih rest.length (by omega) rest rfl
        exact ⟨r ++ t, hrest ▸ .here ht⟩
      · obtain ⟨t, ht⟩ := ih s.length (by simp) s rfl
        exact ⟨c :: t, .skip hc ht⟩

theorem run_literal (w : Text) (before after : Text) (groups : List (ℕ × Text)) :
    (literal w).run ⟨before, after, groups⟩
      = if w <+: after then [⟨w.reverse ++ before, after.drop w.length, groups⟩] else [] := by
  induction w generalizing before after with
  | nil =>
    rw [if_pos List.nil_prefix]
    rfl
  | cons x w ih =>
    cases after with
    | nil =>
      rw [if_neg (by simp)]
      rfl
    | cons y after =>
      have hone : (literal (x :: w)).run ⟨before, y :: after, groups⟩
          = (if decide (y = x) then [⟨y :: before, after, groups⟩] else []).flatMap
            (literal w).run := rfl
      rw [hone]
      by_cases hxy : y = x
      · subst hxy
        rw [if_pos (decide_eq_true rfl), List.flatMap_singleton, ih]
        simp
      · rw [if_neg (by simpa using hxy), if_neg fun h => hxy (List.cons_prefix_cons.mp h).1.symm]
        rfl

/-- What stands after a cursor, with the matches replaced. -/
def replacedFrom (r : Text) : Cursor → List (Cursor × Cursor) → Text
  | c, [] => c.after
  | c, m :: ms => c.between m.1 ++ r ++ replacedFrom r m.2 ms

theorem replacedFrom_groups (r before s : Text) (groups groups' : List (ℕ × Text))
    (ms : List (Cursor × Cursor)) :
    replacedFrom r ⟨before, s, groups⟩ ms = replacedFrom r ⟨before, s, groups'⟩ ms := by
  cases ms <;> rfl

theorem replaceAll_eq_replacedFrom (p : Pattern) (r s : Text) :
    p.replaceAll (fun _ => r) s = replacedFrom r (Cursor.start s) (p.findAll s) := by
  have hfold : ∀ (ms : List (Cursor × Cursor)) (acc : Text) (c : Cursor),
      (ms.foldl (fun (q : Text × Cursor) m => (q.1 ++ q.2.between m.1 ++ r, m.2)) (acc, c)).1 ++
        (ms.foldl (fun (q : Text × Cursor) m => (q.1 ++ q.2.between m.1 ++ r, m.2)) (acc, c)).2.after
          = acc ++ replacedFrom r c ms := by
    intro ms
    induction ms with
    | nil => exact fun _ _ => rfl
    | cons m ms ih =>
      intro acc c
      rw [List.foldl_cons, ih, replacedFrom]
      simp only [List.append_assoc]
  exact hfold (p.findAll s) [] (Cursor.start s)

theorem searchFrom_literal_of_prefix {before : Text} {groups : List (ℕ × Text)} (n : ℕ) :
    searchFrom (literal w) n ⟨before, w ++ s, groups⟩
      = some (⟨before, w ++ s, groups⟩, ⟨w.reverse ++ before, s, groups⟩) := by
  cases n with
  | zero =>
    rw [searchFrom, run_literal, if_pos (List.prefix_append w s), List.drop_left]
    rfl
  | succ n =>
    rw [searchFrom, run_literal, if_pos (List.prefix_append w s), List.drop_left]
    rfl

theorem searchFrom_literal_cons {x : Char} {before : Text} {groups : List (ℕ × Text)}
    (h : ¬ w <+: x :: s) (n : ℕ) : searchFrom (literal w) (n + 1) ⟨before, x :: s, groups⟩
      = searchFrom (literal w) n ⟨x :: before, s, []⟩ := by
  rw [searchFrom, run_literal, if_neg h]
  rfl

theorem searchFrom_literal_nil {before : Text} {groups : List (ℕ × Text)} (hw : w ≠ []) (n : ℕ) :
    searchFrom (literal w) n ⟨before, [], groups⟩ = none := by
  have hrun : (literal w).run ⟨before, [], groups⟩ = [] := by
    rw [run_literal, if_neg fun h => hw (List.prefix_nil.mp h)]
  cases n <;> rw [searchFrom, hrun] <;> rfl

/-- The first match is replaced, and then those behind it. -/
theorem Replaced.replacedFrom_eq (hw : w ≠ []) (h : Replaced w r s t) {n : ℕ} (hn : s.length < n)
    (before : Text) (groups : List (ℕ × Text)) : replacedFrom r ⟨before, s, groups⟩
      (findAllFrom (literal w) n ⟨before, s, groups⟩) = t := by
  obtain ⟨n, rfl⟩ := Nat.exists_eq_succ_of_ne_zero (Nat.ne_of_gt (Nat.zero_lt_of_lt hn))
  induction h generalizing n before groups with
  | nil =>
    rw [findAllFrom, searchFrom_literal_nil hw]
    rfl
  | @here s t h ih =>
    have hpos := List.length_pos_of_ne_nil hw
    rw [List.length_append] at hn
    rw [findAllFrom, searchFrom_literal_of_prefix]
    dsimp only
    rw [if_pos (by rw [List.length_append]; omega), replacedFrom]
    obtain ⟨n, rfl⟩ := Nat.exists_eq_succ_of_ne_zero (n := n) (by omega)
    have hrest : replacedFrom r ⟨w.reverse ++ before, s, groups⟩
        (findAllFrom (literal w) (n + 1) ⟨w.reverse ++ before, s, []⟩) = t :=
      (replacedFrom_groups r _ s groups [] _).trans (ih (w.reverse ++ before) [] n (by omega))
    rw [hrest, Cursor.between, Nat.sub_self]
    rfl
  | @skip c s t hc h ih =>
    have hrest := ih (c :: before) [] n (by simp at hn; omega)
    rw [findAllFrom] at hrest ⊢
    rw [show (⟨before, c :: s, groups⟩ : Cursor).after.length = s.length + 1 from rfl,
      searchFrom_literal_cons hc]
    -- the text in front of the first match has one character more
    cases hm : searchFrom (literal w) s.length ⟨c :: before, s, []⟩ with
    | none =>
      rw [hm] at hrest
      rw [← show s = t from hrest]
      rfl
    | some m =>
      have hsuffix : m.1.after.length ≤ s.length := (after_suffix_of_searchFrom hm).length_le
      have hbetween : (⟨before, c :: s, groups⟩ : Cursor).between m.1
          = c :: (⟨c :: before, s, []⟩ : Cursor).between m.1 := by
        rw [Cursor.between, Cursor.between, List.length_cons, Nat.sub_add_comm hsuffix]
        rfl
      rw [hm] at hrest
      rw [← hrest]
      dsimp only
      split_ifs
      · rw [replacedFrom, replacedFrom, hbetween]
        rfl
      · split
        · rw [replacedFrom, replacedFrom, hbetween]
          rfl
        · rw [replacedFrom, replacedFrom, hbetween]
          rfl

/-- **Every match of a literal text** is replaced from the left. -/
theorem Replaced.replaceAll_eq (hw : w ≠ []) (h : Replaced w r s t) :
    (literal w).replaceAll (fun _ => r) s = t := by
  rw [replaceAll_eq_replacedFrom]
  exact h.replacedFrom_eq hw (Nat.lt_succ_self _) [] []

theorem replaced_replaceAll (hw : w ≠ []) (r s : Text) :
    Replaced w r s ((literal w).replaceAll (fun _ => r) s) := by
  obtain ⟨t, ht⟩ := exists_replaced hw r s
  rwa [ht.replaceAll_eq hw]

/-- A character that the text does not begin with is left alone. -/
theorem replaceAll_literal_cons {c : Char} (hw : w ≠ []) (hc : w.head? ≠ some c) (r s : Text) :
    (literal w).replaceAll (fun _ => r) (c :: s)
      = c :: (literal w).replaceAll (fun _ => r) s := by
  refine (Replaced.skip (fun h => ?_) (replaced_replaceAll hw r s)).replaceAll_eq hw
  obtain ⟨d, w, rfl⟩ := List.exists_cons_of_ne_nil hw
  exact hc (congrArg some (List.cons_prefix_cons.mp h).1)

theorem Replaced.concat {d : Char} (hw : w ≠ []) (hd : d ∉ w) (h : Replaced w r s t) :
    Replaced w r (s ++ [d]) (t ++ [d]) := by
  induction h with
  | nil =>
    refine .skip (fun h => ?_) .nil
    rcases List.prefix_cons_iff.mp h with rfl | ⟨u, rfl, -⟩
    · exact hw rfl
    · exact hd List.mem_cons_self
  | @here s t h ih =>
    rw [List.append_assoc, List.append_assoc]
    exact .here ih
  | @skip c s t hc h ih =>
    refine .skip (fun h => ?_) ih
    rcases List.prefix_concat_iff.mp (show w <+: (c :: s) ++ [d] from h) with heq | hprefix
    · exact hd (heq ▸ List.mem_append_right _ List.mem_cons_self)
    · exact hc hprefix

/-- A character behind the text that is not one of the text's is left alone. -/
theorem replaceAll_literal_concat {d : Char} (hw : w ≠ []) (hd : d ∉ w) (r s : Text) :
    (literal w).replaceAll (fun _ => r) (s ++ [d])
      = (literal w).replaceAll (fun _ => r) s ++ [d] :=
  ((replaced_replaceAll hw r s).concat hw hd).replaceAll_eq hw

end Csc512
