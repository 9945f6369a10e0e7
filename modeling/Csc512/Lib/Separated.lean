import Csc512.Lib.Text

/-!
# Names with a separator between them

A path is a list of names with a separator behind each of them. When no name contains the
separator, the names can be read off the path: of two equal paths, one goes on where the names of
the other end.

## Main results

* `separated_eq_separated` — equal paths have the same names as far as both have names
-/

namespace Csc512

section Separated

variable {α : Type*} {x : α}

/-- Some names, each with the separator `x` behind it, and what follows them. -/
def separated (x : α) (names : List (List α)) (last : List α) : List α :=
  names.foldr (fun name rest => name ++ x :: rest) last

@[simp] theorem separated_nil (last : List α) : separated x [] last = last := rfl

@[simp] theorem separated_cons (name : List α) (names : List (List α)) (last : List α) :
    separated x (name :: names) last = name ++ x :: separated x names last := rfl

theorem separated_append (names names' : List (List α)) (last : List α) :
    separated x (names ++ names') last = separated x names (separated x names' last) :=
  List.foldr_append

/-- Joining names leaves the separator behind the last one out. -/
theorem intercalate_append_cons {names : List (List α)} (h : names ≠ []) (last : List α) :
    [x].intercalate names ++ x :: last = separated x names last := by
  induction names with
  | nil => exact absurd rfl h
  | cons name names ih =>
    cases names with
    | nil => rw [List.intercalate_singleton, separated_cons, separated_nil]
    | cons next names =>
      rw [separated_cons, ← ih (List.cons_ne_nil _ _), List.intercalate_cons_cons]
      simp only [List.append_assoc, List.cons_append, List.nil_append]

/-- **Reading a path**: two equal paths have the same names as far as both have names. -/
theorem separated_eq_separated {names names' : List (List α)} {last last' : List α}
    (hnames : ∀ name ∈ names, x ∉ name) (hnames' : ∀ name ∈ names', x ∉ name)
    (h : separated x names last = separated x names' last') :
    (∃ rest, names' = names ++ rest ∧ last = separated x rest last') ∨
      ∃ rest, names = names' ++ rest ∧ last' = separated x rest last := by
  induction names generalizing names' with
  | nil => exact Or.inl ⟨names', rfl, h⟩
  | cons name names ih =>
    cases names' with
    | nil => exact Or.inr ⟨name :: names, rfl, h.symm⟩
    | cons name' names' =>
      obtain ⟨hname, htail⟩ := List.forall_mem_cons.mp hnames
      obtain ⟨hname', htail'⟩ := List.forall_mem_cons.mp hnames'
      obtain ⟨rfl, -, hrest⟩ := eq_of_append_cons (p := (· ≠ x))
        (fun c hc heq => hname (heq ▸ hc)) (fun c hc heq => hname' (heq ▸ hc))
        (not_not.mpr rfl) (not_not.mpr rfl) h
      rcases ih htail htail' hrest with ⟨rest, rfl, hlast⟩ | ⟨rest, rfl, hlast⟩
      · exact Or.inl ⟨rest, rfl, hlast⟩
      · exact Or.inr ⟨rest, rfl, hlast⟩

end Separated

end Csc512
