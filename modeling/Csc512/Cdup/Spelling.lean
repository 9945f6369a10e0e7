import Csc512.Cdup.BlockText
import Csc512.Cdup.ExprPrinter
import Csc512.Cdup.ParseFile
import Csc512.Lib.PatternLanguage

/-!
# How names are spelled

What the parser finds in a text that is given as its parts: an identifier is read up to its end, it
is a word of its own between blanks, and trimming stops at visible characters.

## Main results

* `identPrefix_append` — an identifier at the beginning of a text
* `words_append` — an identifier is the first word of a text
* `Trimmed.strip_eq` — a text between visible characters has nothing to trim
-/

namespace Csc512

/-! ### Words -/

theorem lt_of_isIdentifier {w : Text} (h : isIdentifier w = true) : ∀ c ∈ w, c.toNat < 128 ∧
    (c.isAlphanum = true ∨ c = '_') := by
  cases w with
  | nil => nofun
  | cons c v =>
    obtain ⟨hc, hv⟩ := Bool.and_eq_true_iff.mp h
    have hword : ∀ d : Char, d.isAlphanum = true ∨ d = '_' → d.toNat < 128 ∧
        (d.isAlphanum = true ∨ d = '_') := by
      rintro d (hd | rfl)
      · exact ⟨lt_of_isAlphanum hd, .inl hd⟩
      · exact ⟨by decide, .inr rfl⟩
    rintro d hd
    rcases List.mem_cons.mp hd with rfl | hd
    · refine hword d ?_
      rcases Bool.or_eq_true_iff.mp hc with hc | hc
      · exact .inl (by simp [Char.isAlphanum, hc])
      · exact .inr (of_decide_eq_true hc)
    · refine hword d ?_
      rcases Bool.or_eq_true_iff.mp (List.all_eq_true.mp hv d hd) with hd | hd
      · exact .inl hd
      · exact .inr (of_decide_eq_true hd)

/-- The characters of an identifier are neither blanks nor punctuation. -/
theorem isInk_of_mem_identifier {w : Text} (h : isIdentifier w = true) : ∀ c ∈ w, isInk c = true := by
  intro c hc
  rcases (lt_of_isIdentifier h c hc).2 with hc | rfl
  · exact isInk_of_isAlphanum hc
  · decide

theorem ne_of_mem_identifier {w : Text} (h : isIdentifier w = true) {x : Char}
    (hx : x.isAlphanum = false) (hne : x ≠ '_') : x ∉ w := by
  intro hmem
  rcases (lt_of_isIdentifier h x hmem).2 with hword | rfl
  · rw [hx] at hword
    cases hword
  · exact hne rfl

theorem exists_cons_of_isIdentifier {w : Text} (h : isIdentifier w = true) :
    ∃ c v, w = c :: v ∧ isIdentStart c = true := by
  cases w with
  | nil => cases h
  | cons c v => exact ⟨c, v, rfl, (Bool.and_eq_true_iff.mp h).1⟩

theorem not_isSpace_of_isInk {c : Char} (h : isInk c = true) : ¬ isSpace c := by
  simp only [isInk, Bool.and_eq_true, Bool.not_eq_true'] at h
  simp [h.1]

section Identifiers

variable (U : CharTable)

theorem isWordChar_of_mem_identifier {w : Text} (h : isIdentifier w = true) :
    ∀ c ∈ w, isWordChar U c = true := by
  intro c hc
  obtain ⟨hlt, hword⟩ := lt_of_isIdentifier h c hc
  rw [isWordChar, U.isAlnum_ascii c hlt]
  rcases hword with hc | rfl
  · rw [hc]
    rfl
  · rfl

theorem isWordChar_eq_false {c : Char} (hlt : c.toNat < 128) (hc : c.isAlphanum = false)
    (hne : c ≠ '_') : isWordChar U c = false := by
  rw [isWordChar, U.isAlnum_ascii c hlt, hc]
  simpa using hne

/-- An identifier is read up to its end. -/
theorem head?_run_identPattern {w rest : Text} (hw : isIdentifier w = true)
    (hrest : ∀ c ∈ rest.head?, isWordChar U c = false) (before : Text)
    (groups : List (ℕ × Text)) : ((identPattern U).run ⟨before, w ++ rest, groups⟩).head?
      = some ⟨w.reverse ++ before, rest, groups⟩ := by
  obtain ⟨c, v, rfl, hc⟩ := exists_cons_of_isIdentifier hw
  have hstar := Pattern.head?_run_star_char (f := isWordChar U)
    (fun d hd => isWordChar_of_mem_identifier U hw d (List.mem_cons_of_mem _ hd)) hrest
    (c :: before) groups
  have hfirst : (Pattern.char isIdentStart).run ⟨before, c :: v ++ rest, groups⟩
      = [⟨c :: before, v ++ rest, groups⟩] := if_pos hc
  show (((Pattern.char isIdentStart).run ⟨before, c :: v ++ rest, groups⟩).flatMap _).head? = _
  rw [hfirst, List.flatMap_singleton, List.reverse_cons, List.append_assoc, List.singleton_append]
  exact hstar

theorem identPrefix_append {w rest : Text} (hw : isIdentifier w = true)
    (hrest : ∀ c ∈ rest.head?, isWordChar U c = false) :
    identPrefix U (w ++ rest) = some (w, rest) := by
  rw [identPrefix, Pattern.matchStart, Cursor.start, head?_run_identPattern U hw hrest]
  show some ((w ++ rest).take ((w ++ rest).length - rest.length), rest) = _
  rw [List.length_append, Nat.add_sub_cancel, List.take_left]

end Identifiers

theorem blank_space : isSpace ' ' := by decide

theorem words_of_isIdentifier {w : Text} (hw : isIdentifier w = true) : words w = [w] := by
  obtain ⟨c, v, hcons, -⟩ := exists_cons_of_isIdentifier hw
  have hsplit : w.splitOnP (fun c => isSpace c) = [w] :=
    List.splitOnP_eq_singleton fun d hd => by
      simpa using not_isSpace_of_isInk (isInk_of_mem_identifier hw d hd)
  show (w.splitOnP fun c => isSpace c).filter _ = _
  rw [hsplit, hcons]
  rfl

/-- An identifier is the first word of a text. -/
theorem words_append {w : Text} (hw : isIdentifier w = true) (rest : Text) :
    words (w ++ ' ' :: rest) = w :: words rest := by
  rw [words_append_cons blank_space, words_of_isIdentifier hw, List.singleton_append]

theorem firstWord_append {w : Text} (hw : isIdentifier w = true) (rest : Text) :
    firstWord (w ++ ' ' :: rest) = w := by
  rw [firstWord, words_append hw]
  rfl

/-- The name of a type without its stars. -/
theorem rstripChar_star {w : Text} (hw : isIdentifier w = true) : rstripChar '*' w = w := by
  rw [rstripChar, List.rdropWhile_eq_self_iff]
  intro hne
  simpa using fun h => ne_of_mem_identifier hw (by decide) (by decide) (h ▸ List.getLast_mem hne)

/-! ### Trimming -/

/-- A text between visible characters. -/
structure Trimmed (s : Text) : Prop where
  head : ∃ c t, s = c :: t ∧ ¬ isSpace c
  last : ∃ r d, s = r ++ [d] ∧ ¬ isSpace d

/-- A text between visible characters has nothing to trim. -/
theorem strip_of_ends {c d : Char} {r s : Text} (h : c :: s = r ++ [d]) (hc : ¬ isSpace c)
    (hd : ¬ isSpace d) : strip (c :: s) = c :: s := by
  rw [strip, lstrip_cons hc, h, rstrip_append_singleton r hd]

/-- The semicolon of a statement is cut off. -/
theorem rstripChar_strip_of_ends {c d : Char} {r s : Text} (h : c :: s = r ++ [d])
    (hc : ¬ isSpace c) (hne : d ≠ ';') : rstripChar ';' (strip (c :: s ++ [';'])) = c :: s := by
  have hstrip : strip (c :: s ++ [';']) = c :: s ++ [';'] :=
    strip_of_ends (r := c :: s) (d := ';') rfl hc (by decide)
  rw [hstrip, rstripChar, List.rdropWhile_concat_pos _ _ _ (by decide), h,
    List.rdropWhile_concat_neg _ _ _ (by simpa using hne)]

theorem bareStmt_of_ends {c d : Char} {r s : Text} (h : c :: s = r ++ [d]) (hc : ¬ isSpace c)
    (hd : ¬ isSpace d) (hne : d ≠ ';') : bareStmt (c :: s ++ [';']) = c :: s := by
  rw [bareStmt, rstripChar_strip_of_ends h hc hne, strip_of_ends h hc hd]

theorem Trimmed.strip_eq {s : Text} (h : Trimmed s) : strip s = s := by
  obtain ⟨⟨c, t, rfl, hc⟩, r, d, hlast, hd⟩ := h
  exact strip_of_ends hlast hc hd

theorem Trimmed.append {s t : Text} (hs : Trimmed s) (ht : Trimmed t) (u : Text) :
    Trimmed (s ++ u ++ t) := by
  obtain ⟨c, s, rfl, hc⟩ := hs.head
  obtain ⟨r, d, rfl, hd⟩ := ht.last
  exact ⟨⟨c, s ++ u ++ (r ++ [d]), rfl, hc⟩, c :: s ++ u ++ r, d, (List.append_assoc _ _ _).symm, hd⟩

/-- Blanks before a trimmed text are trimmed. -/
theorem Trimmed.strip_cons {s : Text} (h : Trimmed s) : strip (' ' :: s) = s := by
  have hself := h.strip_eq
  obtain ⟨c, t, rfl, hc⟩ := h.head
  rw [strip, lstrip_cons hc] at hself
  exact (congrArg rstrip (lstrip_append_cons (List.forall_mem_singleton.mpr blank_space) hc t)).trans
    hself

theorem trimmed_of_isInk {s : Text} (hne : s ≠ []) (h : ∀ c ∈ s, isInk c = true) : Trimmed s := by
  obtain ⟨c, t, hcons⟩ := List.exists_cons_of_ne_nil hne
  exact ⟨⟨c, t, hcons, not_isSpace_of_isInk (h c (hcons ▸ List.mem_cons_self))⟩, _, _,
    (List.dropLast_append_getLast hne).symm, not_isSpace_of_isInk (h _ (List.getLast_mem hne))⟩

theorem trimmed_identifier {w : Text} (hw : isIdentifier w = true) : Trimmed w := by
  obtain ⟨c, v, hcons, -⟩ := exists_cons_of_isIdentifier hw
  exact trimmed_of_isInk (by simp [hcons]) (isInk_of_mem_identifier hw)

/-- Behind the first word, the stars and the blanks are dropped. -/
theorem afterType_append (w : Text) (k : ℕ) {s : Text} (hs : Trimmed s)
    (hstar : ∀ c ∈ s.head?, c ≠ '*') :
    afterType (w ++ ' ' :: (List.replicate k '*' ++ s)) w = s := by
  have hstars : Trimmed (List.replicate k '*' ++ s) := by
    cases k with
    | zero => exact hs
    | succ k =>
      obtain ⟨r, d, hlast, hd⟩ := hs.last
      exact ⟨⟨'*', _, rfl, by decide⟩, List.replicate (k + 1) '*' ++ r, d,
        by rw [hlast, List.append_assoc], hd⟩
  have hdrop : lstripChar '*' (List.replicate k '*' ++ s) = s := by
    obtain ⟨c, t, rfl, -⟩ := hs.head
    rw [lstripChar, List.dropWhile_append_of_pos (by simp),
      List.dropWhile_cons_of_neg (by simpa using hstar c rfl)]
  rw [afterType, List.drop_left, hstars.strip_cons, hdrop, hs.strip_eq]

theorem head?_identifier_append {w : Text} (hw : isIdentifier w = true) (rest : Text) :
    ∀ c ∈ (w ++ rest).head?, c ≠ '*' := by
  obtain ⟨c, v, rfl, -⟩ := exists_cons_of_isIdentifier hw
  rintro d hd rfl
  obtain rfl : c = '*' := by simpa using hd
  exact ne_of_mem_identifier hw (by decide) (by decide) List.mem_cons_self

end Csc512
