import Csc512.Lib.Text

/-!
# How tuples are printed

Quoted words, numbers and tuples of them, as text. A tuple stands in parentheses, with a comma and a
blank between its items; a tuple of one item has a comma behind it. What is printed can be read
back: behind a printed value there is a comma or a parenthesis, and with that its end is known.

## Main results

* `Printed.delimited` — where a printed value ends
* `tupleText_inj` — a printed tuple determines its items
-/

namespace Csc512

/-- A word in quotes. -/
def quoted (word : Text) : Text := '\'' :: word ++ ['\'']

/-- The items of a tuple behind the first one, and the closing parenthesis. -/
def tupleTail : List Text → Text
  | [] => [')']
  | x :: xs => ',' :: ' ' :: (x ++ tupleTail xs)

/-- A tuple of items. -/
def tupleText : List Text → Text
  | [] => ['(', ')']
  | [x] => '(' :: (x ++ [',', ')'])
  | x :: y :: xs => '(' :: (x ++ tupleTail (y :: xs))

/-- What is printed of words without quotes, numbers and tuples. -/
inductive Printed : Text → Prop
  | quoted {word : Text} (h : '\'' ∉ word) : Printed (quoted word)
  | number (n : ℕ) : Printed (natText n)
  | tuple {xs : List Text} (h : ∀ x ∈ xs, Printed x) : Printed (tupleText xs)

/-- A text that begins with a comma or a closing parenthesis. -/
def Stops (s : Text) : Prop := s.head? = some ',' ∨ s.head? = some ')'

theorem stops_comma (s : Text) : Stops (',' :: s) := .inl rfl

theorem stops_tupleTail (xs : List Text) (s : Text) : Stops (tupleTail xs ++ s) := by
  cases xs with
  | nil => exact .inr rfl
  | cons x xs => exact .inl rfl

/-! ### The first characters -/

theorem head?_tupleText (xs : List Text) : (tupleText xs).head? = some '(' := by
  match xs with
  | [] => rfl
  | [_] => rfl
  | _ :: _ :: _ => rfl

/-- No letter of a number stands where it stops. -/
theorem Stops.exists_cons {s : Text} (h : Stops s) : ∃ c t, s = c :: t ∧ ¬ c.isDigit := by
  obtain ⟨c, t, rfl⟩ := List.exists_cons_of_ne_nil (show s ≠ [] by
    rintro rfl
    exact h.elim nofun nofun)
  refine ⟨c, t, rfl, ?_⟩
  rcases h with h | h
  · obtain rfl := Option.some.inj h
    decide
  · obtain rfl := Option.some.inj h
    decide

/-! ### Where a value ends -/

/-- A value is known from a text that begins with it. -/
def Delimited (x : Text) : Prop :=
  ∀ y s t, Printed y → Stops s → Stops t → x ++ s = y ++ t → x = y ∧ s = t

theorem delimited_quoted {word : Text} (hword : '\'' ∉ word) : Delimited (quoted word) := by
  intro y s t hy hs ht h
  cases hy with
  | quoted hword' =>
    rename_i word'
    simp only [quoted, List.cons_append, List.append_assoc, List.cons.injEq, true_and,
      List.nil_append] at h
    have hne : ∀ {w : Text}, '\'' ∉ w → ∀ c ∈ w, c ≠ '\'' := by
      rintro w hw c hc rfl
      exact hw hc
    obtain ⟨rfl, -, rfl⟩ := eq_of_append_cons (hne hword) (hne hword') (by simp) (by simp) h
    exact ⟨rfl, rfl⟩
  | number n =>
    obtain ⟨c, rest, hn, hdigit⟩ := exists_natText n
    rw [hn] at h
    obtain rfl := (List.cons.inj h).1
    exact absurd hdigit (by decide)
  | tuple hxs =>
    rename_i xs
    have hhead := congrArg List.head? h
    rw [List.head?_append, List.head?_append, head?_tupleText] at hhead
    exact absurd (Option.some.inj hhead) (by decide)

theorem delimited_number (n : ℕ) : Delimited (natText n) := by
  intro y s t hy hs ht h
  obtain ⟨c, rest, hn, hdigit⟩ := exists_natText n
  cases hy with
  | quoted hword =>
    rw [hn] at h
    obtain rfl := (List.cons.inj h).1
    exact absurd hdigit (by decide)
  | number m =>
    obtain ⟨c, s, rfl, hc⟩ := hs.exists_cons
    obtain ⟨d, t, rfl, hd⟩ := ht.exists_cons
    obtain ⟨hnm, rfl, rfl⟩ := eq_of_append_cons (fun _ => isDigit_of_mem_natText)
      (fun _ => isDigit_of_mem_natText) hc hd h
    exact ⟨hnm, rfl⟩
  | tuple hxs =>
    rename_i xs
    have hhead := congrArg List.head? h
    rw [List.head?_append, List.head?_append, head?_tupleText, hn] at hhead
    obtain rfl := Option.some.inj hhead
    exact absurd hdigit (by decide)

theorem tupleTail_inj {xs : List Text} (hxs : ∀ x ∈ xs, Delimited x) {ys : List Text}
    (hys : ∀ y ∈ ys, Printed y) {s t : Text} (h : tupleTail xs ++ s = tupleTail ys ++ t) :
    xs = ys ∧ s = t := by
  induction xs generalizing ys with
  | nil =>
    cases ys with
    | nil => exact ⟨rfl, (List.cons.inj h).2⟩
    | cons y ys => exact absurd (List.cons.inj h).1 (by decide)
  | cons x xs ih =>
    cases ys with
    | nil => exact absurd (List.cons.inj h).1 (by decide)
    | cons y ys =>
      simp only [tupleTail, List.cons_append, List.append_assoc, List.cons.injEq, true_and] at h
      obtain ⟨rfl, hrest⟩ := hxs x List.mem_cons_self y _ _ (hys y List.mem_cons_self)
        (stops_tupleTail xs s) (stops_tupleTail ys t) h
      obtain ⟨rfl, rfl⟩ := ih (fun x hx => hxs x (List.mem_cons_of_mem _ hx))
        (fun y hy => hys y (List.mem_cons_of_mem _ hy)) hrest
      exact ⟨rfl, rfl⟩

theorem tupleText_cons (x : Text) (xs : List Text) (s : Text) :
    ∃ rest, tupleText (x :: xs) ++ s = '(' :: (x ++ rest) ∧ Stops rest := by
  cases xs with
  | nil => exact ⟨',' :: ')' :: s, by simp [tupleText], stops_comma _⟩
  | cons y xs => exact ⟨tupleTail (y :: xs) ++ s, by simp [tupleText], stops_tupleTail _ _⟩

/-- A printed value does not begin with a closing parenthesis. -/
theorem Printed.head_ne {x s : Text} (h : Printed x) : (x ++ s).head? ≠ some ')' := by
  rw [List.head?_append]
  cases h with
  | quoted hword => exact fun h => absurd (Option.some.inj h) (by decide)
  | number n =>
    obtain ⟨c, rest, hn, hdigit⟩ := exists_natText n
    rw [hn]
    intro h
    obtain rfl := Option.some.inj h
    exact absurd hdigit (by decide)
  | tuple hxs =>
    rw [head?_tupleText]
    exact fun h => absurd (Option.some.inj h) (by decide)

theorem tupleText_append_inj {xs : List Text} (hxs : ∀ x ∈ xs, Printed x)
    (hdelimited : ∀ x ∈ xs, Delimited x) {ys : List Text} (hys : ∀ y ∈ ys, Printed y)
    {s t : Text} (h : tupleText xs ++ s = tupleText ys ++ t) : xs = ys ∧ s = t := by
  match xs, ys with
  | [], [] => exact ⟨rfl, (List.cons.inj (List.cons.inj h).2).2⟩
  | [], y :: ys =>
    obtain ⟨rest, hrest, -⟩ := tupleText_cons y ys t
    rw [hrest] at h
    exact absurd (congrArg List.head? (List.cons.inj h).2).symm
      (hys y List.mem_cons_self).head_ne
  | x :: xs, [] =>
    obtain ⟨rest, hrest, -⟩ := tupleText_cons x xs s
    rw [hrest] at h
    exact absurd (congrArg List.head? (List.cons.inj h).2) (hxs x List.mem_cons_self).head_ne
  | x :: xs, y :: ys =>
    have hx := hdelimited x List.mem_cons_self y
    have hy := hys y List.mem_cons_self
    match xs, ys with
    | [], [] =>
      simp only [tupleText, List.cons_append, List.append_assoc, List.cons.injEq, true_and] at h
      obtain ⟨rfl, hrest⟩ := hx _ _ hy (stops_comma _) (stops_comma _) h
      exact ⟨rfl, (List.cons.inj (List.cons.inj hrest).2).2⟩
    | [], y' :: ys =>
      simp only [tupleText, List.cons_append, List.append_assoc, List.cons.injEq, true_and] at h
      obtain ⟨-, hrest⟩ := hx _ _ hy (stops_comma _) (stops_tupleTail _ _) h
      exact absurd (List.cons.inj (List.cons.inj hrest).2).1 (by decide)
    | x' :: xs, [] =>
      simp only [tupleText, List.cons_append, List.append_assoc, List.cons.injEq, true_and] at h
      obtain ⟨-, hrest⟩ := hx _ _ hy (stops_tupleTail _ _) (stops_comma _) h
      exact absurd (List.cons.inj (List.cons.inj hrest).2).1 (by decide)
    | x' :: xs, y' :: ys =>
      simp only [tupleText, List.cons_append, List.append_assoc, List.cons.injEq, true_and] at h
      obtain ⟨rfl, hrest⟩ := hx _ _ hy (stops_tupleTail _ _) (stops_tupleTail _ _) h
      obtain ⟨htail, rfl⟩ := tupleTail_inj (fun z hz => hdelimited z (List.mem_cons_of_mem _ hz))
        (fun z hz => hys z (List.mem_cons_of_mem _ hz)) hrest
      exact ⟨by rw [htail], rfl⟩

/-- **A printed value ends where it ends**, whatever follows. -/
theorem Printed.delimited {x : Text} (h : Printed x) : Delimited x := by
  induction h with
  | quoted hword => exact delimited_quoted hword
  | number n => exact delimited_number n
  | tuple hxs ih =>
    intro y s t hy hs ht h
    cases hy with
    | quoted hword =>
      have hhead := congrArg List.head? h
      rw [List.head?_append, List.head?_append, head?_tupleText] at hhead
      exact absurd (Option.some.inj hhead) (by decide)
    | number n =>
      obtain ⟨c, rest, hn, hdigit⟩ := exists_natText n
      have hhead := congrArg List.head? h
      rw [List.head?_append, List.head?_append, head?_tupleText, hn] at hhead
      obtain rfl := Option.some.inj hhead
      exact absurd hdigit (by decide)
    | tuple hys =>
      obtain ⟨rfl, rfl⟩ := tupleText_append_inj hxs ih hys h
      exact ⟨rfl, rfl⟩

/-- **A printed tuple determines its items.** -/
theorem tupleText_inj {xs ys : List Text} (hxs : ∀ x ∈ xs, Printed x) (hys : ∀ y ∈ ys, Printed y)
    (h : tupleText xs = tupleText ys) : xs = ys :=
  (tupleText_append_inj hxs (fun x hx => (hxs x hx).delimited) hys
    (congrArg (· ++ []) h)).1

theorem quoted_inj {word word' : Text} (h : quoted word = quoted word') : word = word' := by
  have htail := (List.cons.inj h).2
  exact List.append_cancel_right htail

end Csc512
