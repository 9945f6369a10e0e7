import Csc512.Cdup.Normalize

/-!
# Generics in Java sources

Before a Java source is parsed, its generic type parameters are removed. An identifier directly
followed by an angle bracket counts as generic if the bracket is closed before the end of a
statement, a line or an assignment, or the beginning of a block. Two comparisons in one condition
have this form, too.

## Main results

* `genericAt_eq_some_iff` — where the pass sees a generic
* `stripGenerics_eq_self_iff` — which sources it leaves alone
-/

namespace Csc512

/-! ### The pass -/

/-- The characters that end the search for the closing bracket. -/
def angleStops : List Char := [';', '\n', '=', '{']

/-- Behind the bracket that closes the innermost of `depth` open ones, what follows the last one. -/
def closeAngle : ℕ → Text → Option Text
  | _, [] => none
  | depth, c :: s =>
    if c = '<' then closeAngle (depth + 1) s
    else if c = '>' then if depth = 1 then some s else closeAngle (depth - 1) s
    else if c ∈ angleStops then none
    else closeAngle depth s

section Strip

variable (U : CharTable)

/-- The identifier at the beginning of a text, if it is followed by type arguments, and what follows
them. -/
def genericAt : Text → Option (Text × Text)
  | [] => none
  | c :: s =>
    if isIdentStart c then
      match s.dropWhile (isWordChar U) with
      | '<' :: t => (closeAngle 1 t).map fun rest => (c :: s.takeWhile (isWordChar U), rest)
      | _ => none
    else none

/-- Remove type arguments. Every round moves on, so that the length of the text is enough fuel. -/
def stripGenericsFrom : ℕ → Text → Text
  | 0, _ => []
  | _ + 1, [] => []
  | n + 1, c :: s =>
    match genericAt U (c :: s) with
    | some (name, rest) => name ++ stripGenericsFrom n rest
    | none => c :: stripGenericsFrom n s

/-- Remove the generic type parameters of a source. -/
def stripGenerics (src : Text) : Text := stripGenericsFrom U src.length src

end Strip

/-! ### Closing brackets -/

/-- A text after which one of `depth` open brackets is left, that closes no more than are open and
holds no stop. -/
structure LeavesOne (depth : ℕ) (u : Text) : Prop where
  noStop : ∀ c ∈ u, c ∉ angleStops
  open_ : ∀ p, p <+: u → p.count '>' < depth + p.count '<'
  total : u.count '>' + 1 = depth + u.count '<'

theorem leavesOne_nil_iff {depth : ℕ} : LeavesOne depth [] ↔ depth = 1 := by
  constructor
  · intro h
    have htotal := h.total
    simp at htotal
    omega
  · rintro rfl
    refine ⟨fun c hc => absurd hc List.not_mem_nil, fun p hp => ?_, rfl⟩
    rw [List.prefix_nil.mp hp]
    decide

/-- The first character of such a text opens a bracket, closes one, or neither. -/
theorem leavesOne_cons_iff {depth : ℕ} (hdepth : 0 < depth) {c : Char} {u : Text} :
    LeavesOne depth (c :: u) ↔ c ∉ angleStops ∧
      if c = '<' then LeavesOne (depth + 1) u
      else if c = '>' then 1 < depth ∧ LeavesOne (depth - 1) u
      else LeavesOne depth u := by
  have hcount : ∀ (x : Char) (p : Text), (c :: p).count x = p.count x + if c = x then 1 else 0 :=
    fun x p => by rw [List.count_cons]; simp
  have hcons : ∀ p, p <+: u → c :: p <+: c :: u := fun p hp => (List.prefix_cons_inj c).mpr hp
  constructor
  · rintro ⟨hstop, hopen, htotal⟩
    refine ⟨hstop c List.mem_cons_self, ?_⟩
    have hrest : ∀ d ∈ u, d ∉ angleStops := fun d hd => hstop d (List.mem_cons_of_mem c hd)
    have hall : ∀ p, p <+: u → (c :: p).count '>' < depth + (c :: p).count '<' :=
      fun p hp => hopen _ (hcons p hp)
    simp only [hcount] at hall htotal
    split
    · rename_i hc
      subst hc
      simp only [if_true, (by decide : ('<' : Char) ≠ '>'), if_false] at hall htotal
      exact ⟨hrest, fun p hp => by have := hall p hp; omega, by omega⟩
    · rename_i hless
      split
      · rename_i hc
        subst hc
        simp only [if_true, hless, if_false] at hall htotal
        have hone : 1 < depth := by simpa using hall [] List.nil_prefix
        exact ⟨hone, hrest, fun p hp => by have := hall p hp; omega, by omega⟩
      · rename_i hgreater
        simp only [hless, hgreater, if_false] at hall htotal
        exact ⟨hrest, fun p hp => by have := hall p hp; omega, by omega⟩
  · rintro ⟨hc, hrest⟩
    have hcases : (∀ d ∈ u, d ∉ angleStops) ∧
        (∀ p, p <+: u → (c :: p).count '>' < depth + (c :: p).count '<') ∧
        (c :: u).count '>' + 1 = depth + (c :: u).count '<' := by
      simp only [hcount]
      split at hrest
      · rename_i hless
        subst hless
        simp only [if_true, (by decide : ('<' : Char) ≠ '>'), if_false]
        exact ⟨hrest.noStop, fun p hp => by have := hrest.open_ p hp; omega,
          by have := hrest.total; omega⟩
      · rename_i hless
        split at hrest
        · rename_i hgreater
          subst hgreater
          obtain ⟨hone, hrest⟩ := hrest
          simp only [if_true, hless, if_false]
          exact ⟨hrest.noStop, fun p hp => by have := hrest.open_ p hp; omega,
            by have := hrest.total; omega⟩
        · rename_i hgreater
          simp only [hless, hgreater, if_false]
          exact ⟨hrest.noStop, fun p hp => by have := hrest.open_ p hp; omega,
            by have := hrest.total; omega⟩
    refine ⟨List.forall_mem_cons.mpr ⟨hc, hcases.1⟩, fun p hp => ?_, hcases.2.2⟩
    cases p with
    | nil => simpa using hdepth
    | cons d p =>
      obtain ⟨rfl, hpu⟩ := List.cons_prefix_cons.mp hp
      exact hcases.2.1 p hpu

/-- **When the search for the closing bracket succeeds.** -/
theorem closeAngle_eq_some_iff {depth : ℕ} {s rest : Text} (hdepth : 0 < depth) :
    closeAngle depth s = some rest ↔ ∃ u, s = u ++ '>' :: rest ∧ LeavesOne depth u := by
  induction s generalizing depth with
  | nil => simp [closeAngle]
  | cons c s ih =>
    have hcons : (∃ u, c :: s = u ++ '>' :: rest ∧ LeavesOne depth u) ↔
        (c = '>' ∧ s = rest ∧ depth = 1) ∨
          ∃ u, s = u ++ '>' :: rest ∧ LeavesOne depth (c :: u) := by
      constructor
      · rintro ⟨u, hu, hleaves⟩
        cases u with
        | nil =>
          obtain ⟨rfl, rfl⟩ := List.cons.inj hu
          exact Or.inl ⟨rfl, rfl, leavesOne_nil_iff.mp hleaves⟩
        | cons d u =>
          obtain ⟨rfl, rfl⟩ := List.cons.inj hu
          exact Or.inr ⟨u, rfl, hleaves⟩
      · rintro (⟨rfl, rfl, rfl⟩ | ⟨u, rfl, hleaves⟩)
        · exact ⟨[], rfl, leavesOne_nil_iff.mpr rfl⟩
        · exact ⟨c :: u, rfl, hleaves⟩
    rw [hcons, closeAngle]
    simp only [leavesOne_cons_iff hdepth]
    by_cases hless : c = '<'
    · subst hless
      simp only [if_true, (by decide : ('<' : Char) ≠ '>'), false_and, false_or,
        (by decide : ('<' : Char) ∉ angleStops), not_false_eq_true, true_and]
      exact ih (Nat.succ_pos depth)
    · by_cases hgreater : c = '>'
      · subst hgreater
        simp only [hless, if_false, if_true, true_and,
          (by decide : ('>' : Char) ∉ angleStops), not_false_eq_true]
        by_cases hone : depth = 1
        · subst hone
          simp [eq_comm]
        · simp only [hone, if_false, and_false, false_or, (by omega : 1 < depth), true_and]
          exact ih (by omega)
      · simp only [hless, hgreater, if_false, false_and, false_or]
        split
        · rename_i hstop
          simp [hstop]
        · rename_i hstop
          simp only [hstop, not_false_eq_true, true_and]
          exact ih hdepth

/-! ### Generics -/

section Generics

variable (U : CharTable)

theorem isWordChar_less : isWordChar U '<' = false := by
  simp [isWordChar, U.isAlnum_ascii '<' (by decide)]

variable {U}

/-- **Where the pass sees a generic.** -/
theorem genericAt_eq_some_iff {s name rest : Text} :
    genericAt U s = some (name, rest) ↔ ∃ c w u, name = c :: w ∧ isIdentStart c ∧
      (∀ d ∈ w, isWordChar U d) ∧ LeavesOne 1 u ∧ s = name ++ '<' :: (u ++ '>' :: rest) := by
  constructor
  · intro h
    cases s with
    | nil => cases h
    | cons c s =>
      simp only [genericAt] at h
      split at h
      · rename_i hc
        split at h
        · rename_i t ht
          obtain ⟨tail, hclose, heq⟩ := Option.map_eq_some_iff.mp h
          obtain ⟨rfl, rfl⟩ := Prod.mk.inj heq
          obtain ⟨u, rfl, hu⟩ := (closeAngle_eq_some_iff Nat.one_pos).mp hclose
          refine ⟨c, _, u, rfl, hc, fun d hd => List.mem_takeWhile_imp hd, hu, ?_⟩
          rw [← ht, List.cons_append, List.takeWhile_append_dropWhile]
        · cases h
      · cases h
  · rintro ⟨c, w, u, rfl, hc, hw, hu, rfl⟩
    have hstop : ¬ isWordChar U '<' := by simp [isWordChar_less]
    have htake : (w ++ '<' :: (u ++ '>' :: rest)).takeWhile (isWordChar U) = w := by
      rw [List.takeWhile_append_of_pos hw, List.takeWhile_cons_of_neg hstop, List.append_nil]
    have hdrop : (w ++ '<' :: (u ++ '>' :: rest)).dropWhile (isWordChar U) =
        '<' :: (u ++ '>' :: rest) := by
      rw [List.dropWhile_append_of_pos hw, List.dropWhile_cons_of_neg hstop]
    have hclose : closeAngle 1 (u ++ '>' :: rest) = some rest :=
      (closeAngle_eq_some_iff Nat.one_pos).mpr ⟨u, rfl, hu⟩
    simp only [List.cons_append, genericAt, hc, if_true, hdrop, hclose, htake, Option.map_some]

theorem length_of_genericAt {s name rest : Text} (h : genericAt U s = some (name, rest)) :
    name.length + rest.length < s.length := by
  obtain ⟨c, w, u, -, -, -, -, rfl⟩ := genericAt_eq_some_iff.mp h
  simp only [List.length_append, List.length_cons]
  omega

variable (U) in
theorem length_stripGenericsFrom_le (n : ℕ) (s : Text) :
    (stripGenericsFrom U n s).length ≤ s.length := by
  induction n generalizing s with
  | zero => exact Nat.zero_le _
  | succ n ih =>
    cases s with
    | nil => exact le_refl _
    | cons c s =>
      rw [stripGenericsFrom]
      split
      · rename_i name rest h
        have hrest := ih rest
        have hlength := length_of_genericAt h
        rw [List.length_append]
        omega
      · exact Nat.succ_le_succ (ih s)

/-- The pass leaves a text alone only if it sees no generic on its way through: what it cuts is
never put back. -/
theorem stripGenericsFrom_eq_self_iff {n : ℕ} {s : Text} (hn : s.length ≤ n) :
    stripGenericsFrom U n s = s ↔ ∀ b, b <:+ s → genericAt U b = none := by
  induction s generalizing n with
  | nil =>
    refine ⟨fun _ b hb => by rw [List.suffix_nil.mp hb]; rfl, fun _ => ?_⟩
    cases n <;> rfl
  | cons c s ih =>
    cases n with
    | zero => exact absurd hn (Nat.not_succ_le_zero _)
    | succ n =>
      rw [stripGenericsFrom]
      split
      · rename_i name rest h
        have hshort : (name ++ stripGenericsFrom U n rest).length < (c :: s).length := by
          rw [List.length_append]
          have hle := length_stripGenericsFrom_le U n rest
          have hlt := length_of_genericAt h
          omega
        refine ⟨fun heq => absurd (congrArg List.length heq) hshort.ne, fun hnone => ?_⟩
        rw [hnone _ (List.suffix_refl _)] at h
        cases h
      · rename_i h
        rw [List.cons_inj_right, ih (Nat.le_of_succ_le_succ hn)]
        constructor
        · intro hrest b hb
          rcases List.suffix_cons_iff.mp hb with rfl | hb
          · exact h
          · exact hrest b hb
        · exact fun hall b hb => hall b (hb.trans (List.suffix_cons c s))

variable (U)

/-- **Which sources the pass leaves alone.** The brackets may be those of a type or of two
comparisons: the pass cannot tell them apart. -/
theorem stripGenerics_eq_self_iff (src : Text) :
    stripGenerics U src = src ↔ ¬ ∃ a c w u b, src = a ++ c :: w ++ '<' :: (u ++ '>' :: b) ∧
      isIdentStart c ∧ (∀ d ∈ w, isWordChar U d) ∧ LeavesOne 1 u := by
  rw [stripGenerics, stripGenericsFrom_eq_self_iff le_rfl]
  constructor
  · rintro hnone ⟨a, c, w, u, b, rfl, hc, hw, hu⟩
    have h := hnone (c :: w ++ '<' :: (u ++ '>' :: b)) ⟨a, (List.append_assoc _ _ _).symm⟩
    rw [genericAt_eq_some_iff.mpr ⟨c, w, u, rfl, hc, hw, hu, rfl⟩] at h
    cases h
  · rintro hnot s ⟨a, rfl⟩
    rcases hs : genericAt U s with _ | ⟨name, rest⟩
    · rfl
    · obtain ⟨c, w, u, rfl, hc, hw, hu, rfl⟩ := genericAt_eq_some_iff.mp hs
      exact absurd ⟨a, c, w, u, rest, (List.append_assoc _ _ _).symm, hc, hw, hu⟩ hnot

end Generics

/-- Two comparisons in one condition lose everything from the first operator to the second. -/
theorem stripGenerics_comparisons : stripGenerics CharTable.ascii (lit "if (i<n && j>m) x();") ≠
    lit "if (i<n && j>m) x();" := by
  decide

end Csc512
