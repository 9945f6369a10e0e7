import Csc512.Cdup.ArrayText

/-!
# Lists in braces

How nested lists of integers are written: decimal integers, braces and commas, with white space
anywhere between these. `parseBrace` reads every such text back. It cuts the inside of the outer
braces at the commas that its depth counter finds outside all braces, and goes on inside the pieces;
so what has to be shown is that the counter passes over a written item at any depth, and comes out
of it at the depth at which it went in.

## Main results

* `NestedInt.parseBrace_writes` — what is written for a list is read as this list
-/

namespace Csc512

/-- An integer, or a list of such items. -/
inductive NestedInt where
  | int (n : ℤ)
  | list (items : List NestedInt)

/-- A text of nothing but white space. -/
def IsBlank (s : Text) : Prop := ∀ c ∈ s, isSpace c

namespace NestedInt

mutual

/-- An item as a value of an initialiser. -/
def data : NestedInt → InitData
  | .int n => .int n
  | .list items => .list (datas items)

/-- The items of a list as values of an initialiser. -/
def datas : List NestedInt → List InitData
  | [] => []
  | x :: xs => data x :: datas xs

end

mutual

/-- `Writes x s`: the text `s` is one of the ways to write the item `x`. -/
inductive Writes : NestedInt → Text → Prop
  | int (n : ℤ) : Writes (.int n) (intText n)
  | list {xs : List NestedInt} {s : Text} (hs : WritesItems xs s) :
      Writes (.list xs) ('{' :: (s ++ ['}']))

/-- `WritesItems xs s`: the text `s` is one of the ways to write what stands between the braces of
the list `xs`. -/
inductive WritesItems : List NestedInt → Text → Prop
  | nil {a : Text} (ha : IsBlank a) : WritesItems [] a
  | one {x : NestedInt} {a s b : Text} (ha : IsBlank a) (hs : Writes x s) (hb : IsBlank b) :
      WritesItems [x] (a ++ (s ++ b))
  | cons {x : NestedInt} {xs : List NestedInt} {a s b t : Text} (ha : IsBlank a) (hs : Writes x s)
      (hb : IsBlank b) (hxs : xs ≠ []) (ht : WritesItems xs t) :
      WritesItems (x :: xs) (a ++ (s ++ (b ++ ',' :: t)))

end

mutual

/-- Each item can be written. -/
theorem exists_writes : ∀ x : NestedInt, ∃ s, Writes x s
  | .int n => ⟨intText n, .int n⟩
  | .list xs =>
    let ⟨s, hs⟩ := exists_writesItems xs
    ⟨'{' :: (s ++ ['}']), .list hs⟩

theorem exists_writesItems : ∀ xs : List NestedInt, ∃ s, WritesItems xs s
  | [] => ⟨[], .nil (List.forall_mem_nil _)⟩
  | [x] =>
    let ⟨_, hs⟩ := exists_writes x
    ⟨_, .one (List.forall_mem_nil _) hs (List.forall_mem_nil _)⟩
  | x :: y :: xs =>
    let ⟨_, hs⟩ := exists_writes x
    let ⟨_, ht⟩ := exists_writesItems (y :: xs)
    ⟨_, .cons (List.forall_mem_nil _) hs (List.forall_mem_nil _) (List.cons_ne_nil y xs) ht⟩

end

/-! ### Passing over items -/

theorem splitElements_blank {a : Text} (ha : IsBlank a) (depth : ℤ) (current rest : Text) :
    splitElements depth current (a ++ rest) = splitElements depth (current ++ a) rest := by
  refine splitElements_append (fun c hc => ?_) depth current rest
  have hspace := ha c hc
  refine ⟨?_, ?_, ?_⟩ <;> rintro rfl <;> exact absurd hspace (by decide)

theorem splitElements_intText (n : ℤ) (depth : ℤ) (current rest : Text) :
    splitElements depth current (intText n ++ rest)
      = splitElements depth (current ++ intText n) rest := by
  refine splitElements_append (fun c hc => ?_) depth current rest
  have hnumeral := isNumeral_of_mem_intText c hc
  refine ⟨?_, ?_, ?_⟩ <;> rintro rfl <;> exact absurd hnumeral (by decide)

mutual

/-- At any depth, an item goes to the current piece, and the depth is as before. -/
theorem splitElements_writes {x : NestedInt} {s : Text} (h : Writes x s) {depth : ℤ}
    (hdepth : 0 ≤ depth) (current rest : Text) :
    splitElements depth current (s ++ rest) = splitElements depth (current ++ s) rest := by
  cases h with
  | int n => exact splitElements_intText n depth current rest
  | @list xs s hs =>
    have hclose : ∀ u, splitElements (depth + 1) u ('}' :: rest)
        = splitElements depth (u ++ ['}']) rest := by
      intro u
      rw [splitElements, if_neg (by decide), if_pos rfl, add_sub_cancel_right]
    rw [List.cons_append, List.append_assoc, splitElements, if_pos rfl,
      splitElements_writesItems hs (by omega), List.singleton_append, hclose]
    simp only [List.append_assoc, List.cons_append, List.nil_append]

/-- Inside braces, the items of a list go to the current piece, with the commas between them. -/
theorem splitElements_writesItems {xs : List NestedInt} {s : Text} (h : WritesItems xs s)
    {depth : ℤ} (hdepth : 0 < depth) (current rest : Text) :
    splitElements depth current (s ++ rest) = splitElements depth (current ++ s) rest := by
  cases h with
  | nil ha => exact splitElements_blank ha depth current rest
  | @one x a s b ha hs hb =>
    rw [List.append_assoc, List.append_assoc, splitElements_blank ha,
      splitElements_writes hs hdepth.le, splitElements_blank hb, List.append_assoc,
      List.append_assoc]
  | @cons x xs a s b t ha hs hb hxs ht =>
    have hcomma : ∀ u, splitElements depth u (',' :: (t ++ rest))
        = splitElements depth (u ++ [',']) (t ++ rest) := by
      intro u
      rw [splitElements, if_neg (by decide), if_neg (by decide), if_neg fun h => hdepth.ne' h.2]
    rw [List.append_assoc, List.append_assoc, List.append_assoc, List.cons_append,
      splitElements_blank ha, splitElements_writes hs hdepth.le, splitElements_blank hb, hcomma,
      splitElements_writesItems ht hdepth]
    simp only [List.append_assoc, List.singleton_append]

end

/-! ### The pieces -/

theorem Writes.trimmed {x : NestedInt} {s : Text} (h : Writes x s) : Trimmed s := by
  cases h with
  | int n => exact (numeralEnds_intText n).trimmed
  | @list xs s hs => exact ⟨⟨'{', _, rfl, by decide⟩, '{' :: s, '}', rfl, by decide⟩

theorem rstrip_append_blank {b : Text} (hb : IsBlank b) (s : Text) :
    rstrip (s ++ b) = rstrip s := by
  induction b using List.reverseRecOn with
  | nil => rw [List.append_nil]
  | append_singleton b c ih =>
    rw [← List.append_assoc, rstrip_append_space _ (hb c (by simp)),
      ih fun d hd => hb d (List.mem_append_left _ hd)]

/-- What is left of an item with white space around. -/
theorem Writes.strip_eq {x : NestedInt} {s : Text} (h : Writes x s) {a b : Text} (ha : IsBlank a)
    (hb : IsBlank b) : strip (a ++ (s ++ b)) = s := by
  have hself := h.trimmed.strip_eq
  obtain ⟨⟨c, t, rfl, hc⟩, -⟩ := h.trimmed
  rw [strip, lstrip_cons hc] at hself
  rw [List.cons_append, strip_append_cons ha hc, rstrip_append_blank hb, ← rstrip_cons hc, hself]

theorem Writes.ne_nil {x : NestedInt} {s : Text} (h : Writes x s) : s ≠ [] := by
  obtain ⟨⟨c, t, rfl, -⟩, -⟩ := h.trimmed
  exact List.cons_ne_nil c t

/-- White space around the items of a list can be dropped. -/
theorem WritesItems.stripped {xs : List NestedInt} {s : Text} (h : WritesItems xs s) :
    WritesItems xs (strip s) := by
  have hlstrip : WritesItems xs (lstrip s) := by
    have hdrop : ∀ {x : NestedInt} {a t : Text} (u : Text), IsBlank a → Writes x t →
        lstrip (a ++ (t ++ u)) = [] ++ (t ++ u) := by
      intro x a t u ha ht
      obtain ⟨⟨c, t, rfl, hc⟩, -⟩ := ht.trimmed
      exact lstrip_append_cons ha hc _
    cases h with
    | nil ha =>
      have hnil : lstrip s = [] := List.dropWhile_eq_nil_iff.mpr ha
      exact hnil ▸ .nil (List.forall_mem_nil _)
    | one ha hs hb =>
      rw [hdrop _ ha hs]
      exact .one (List.forall_mem_nil _) hs hb
    | cons ha hs hb hxs ht =>
      rw [hdrop _ ha hs]
      exact .cons (List.forall_mem_nil _) hs hb hxs ht
  have hrstrip : ∀ {xs : List NestedInt} {s : Text}, WritesItems xs s →
      WritesItems xs (rstrip s) := by
    intro xs
    induction xs with
    | nil =>
      rintro s ⟨ha⟩
      exact .nil fun c hc => ha c ((rstrip_isPrefix s).subset hc)
    | cons x xs ih =>
      intro s hs
      cases hs with
      | @one _ a s b ha hs hb =>
        obtain ⟨r, d, hlast, hd⟩ := hs.trimmed.last
        have hrstrip : rstrip (a ++ (s ++ b)) = a ++ (s ++ []) := by
          rw [← List.append_assoc, rstrip_append_blank hb, List.append_nil, hlast,
            ← List.append_assoc, rstrip_append_singleton _ hd]
        exact hrstrip ▸ .one ha hs (List.forall_mem_nil _)
      | @cons _ _ a s b t ha hs hb hxs ht =>
        have hrstrip : rstrip (a ++ (s ++ (b ++ ',' :: t))) = a ++ (s ++ (b ++ ',' :: rstrip t)) := by
          rw [← List.append_assoc, ← List.append_assoc, rstrip_append_cons (by decide),
            List.append_assoc, List.append_assoc]
        exact hrstrip ▸ .cons ha hs hb hxs (ih ht)
  exact hrstrip hlstrip

/-- Outside braces, each item gets a piece of its own. -/
theorem splitElements_items {xs : List NestedInt} (hxs : xs ≠ []) {s : Text}
    (h : WritesItems xs s) :
    List.Forall₂ (fun x t => Writes x t ∧ t.length ≤ s.length) xs (splitElements 0 [] s) := by
  induction xs generalizing s with
  | nil => exact absurd rfl hxs
  | cons x xs ih =>
    cases h with
    | @one _ a s b ha hs hb =>
      have hpiece : splitElements 0 [] (a ++ (s ++ b)) = [s] := by
        rw [← List.append_nil (a ++ (s ++ b)), List.append_assoc, List.append_assoc,
          splitElements_blank ha, splitElements_writes hs le_rfl, splitElements_blank hb,
          splitElements, List.nil_append, List.append_assoc, hs.strip_eq ha hb, if_neg hs.ne_nil]
      rw [hpiece]
      refine .cons ⟨hs, ?_⟩ .nil
      simp only [List.length_append]
      omega
    | @cons _ _ a s b t ha hs hb hne ht =>
      have hpiece : splitElements 0 [] (a ++ (s ++ (b ++ ',' :: t)))
          = s :: splitElements 0 [] t := by
        rw [splitElements_blank ha, splitElements_writes hs le_rfl, splitElements_blank hb,
          splitElements, if_neg (by decide), if_neg (by decide), if_pos ⟨rfl, rfl⟩,
          List.nil_append, List.append_assoc, hs.strip_eq ha hb]
      have hlength : t.length ≤ (a ++ (s ++ (b ++ ',' :: t))).length := by
        simp only [List.length_append, List.length_cons]
        omega
      rw [hpiece]
      refine .cons ⟨hs, ?_⟩ ((ih hne ht).imp fun _ _ h => ⟨h.1, h.2.trans hlength⟩)
      simp only [List.length_append]
      omega

/-! ### Reading back -/

variable (U : CharTable)

/-- The list that is read from what is written for it, if there is fuel for each character. -/
theorem parseBraceFrom_writesItems {fuel : ℕ} {xs : List NestedInt} {s t : Text}
    (h : WritesItems xs s) (ht : strip t = '{' :: (s ++ ['}'])) (hfuel : s.length < fuel) :
    parseBraceFrom U fuel t = datas xs := by
  induction fuel generalizing xs s t with
  | zero => exact absurd hfuel (Nat.not_lt_zero _)
  | succ fuel ih =>
    rw [parseBraceFrom, ht, List.drop_one, List.tail_cons, List.dropLast_concat]
    have hshort : (strip s).length ≤ s.length :=
      (strip_sublist s).length_le
    have hread : ∀ x u, Writes x u ∧ u.length ≤ (strip s).length →
        (if u.head? = some '{' then .list (parseBraceFrom U fuel u) else parseElement U u)
          = data x := by
      rintro x u ⟨hu, hlength⟩
      have htrim := hu.trimmed.strip_eq
      cases hu with
      | int n =>
        obtain ⟨c, v, hcons, hc⟩ := exists_cons_intText n
        have hopen : (intText n).head? ≠ some '{' := by
          rw [hcons]
          rintro h
          rw [Option.some.inj h] at hc
          exact absurd hc (by decide)
        rw [if_neg hopen, parseElement, prefixedInt_intText]
        rfl
      | @list xs v hv =>
        rw [List.length_cons, List.length_append, List.length_singleton] at hlength
        rw [List.head?_cons, if_pos rfl, ih hv htrim (by omega)]
        rfl
    by_cases hxs : xs = []
    · subst hxs
      cases h with
      | nil ha =>
        rw [strip_blanks ha]
        rfl
    · have hpieces := splitElements_items hxs h.stripped
      generalize splitElements 0 [] (strip s) = us at hpieces
      clear hxs h ht
      induction hpieces with
      | nil => rfl
      | cons hu _ ihus => exact congrArg₂ List.cons (hread _ _ hu) ihus

/-- **Reading back what is written.** Every way to write a list of integers in braces, of any depth
and width, and with any white space around, is read as this list. -/
theorem parseBrace_writes {xs : List NestedInt} {s : Text} (h : Writes (.list xs) s) {a b : Text}
    (ha : IsBlank a) (hb : IsBlank b) : parseBrace U (a ++ (s ++ b)) = datas xs := by
  have hstrip := h.strip_eq ha hb
  cases h with
  | @list xs s hs =>
    refine parseBraceFrom_writesItems U hs hstrip ?_
    simp only [List.length_append, List.length_cons]
    omega

/-- A list in a list, an empty list, and white space around some of the tokens. -/
theorem parseBrace_writes_sample : parseBrace CharTable.ascii (lit "\t\x7b1, \x7b -2 ,3\x7d,\x7b \x7d\x7d ")
    = [.int 1, .list [.int (-2), .int 3], .list []] := by
  have hnil : IsBlank [] := List.forall_mem_nil _
  have hblank : IsBlank [' '] := List.forall_mem_singleton.mpr blank_space
  have htab : IsBlank ['\t'] := List.forall_mem_singleton.mpr (by decide)
  have hpair : Writes (.list [.int (-2), .int 3]) (lit "\x7b -2 ,3\x7d") :=
    .list (.cons hblank (.int (-2)) hblank (List.cons_ne_nil _ _) (.one hnil (.int 3) hnil))
  have hlist : Writes (.list [.int 1, .list [.int (-2), .int 3], .list []])
      (lit "\x7b1, \x7b -2 ,3\x7d,\x7b \x7d\x7d") :=
    .list (.cons hnil (.int 1) hnil (List.cons_ne_nil _ _)
      (.cons hblank hpair hnil (List.cons_ne_nil _ _) (.one hnil (.list (.nil hblank)) hnil)))
  exact parseBrace_writes CharTable.ascii hlist htab hblank

end NestedInt

end Csc512
