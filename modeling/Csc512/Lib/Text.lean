import Mathlib.Data.List.Infix
import Mathlib.Data.List.DropRight

/-!
# Texts

Texts as lists of glyphs, and the string operations of a scripting language on them: white space,
lines, words, trimming, and search for a pattern.

A glyph is anything that shows a character. The operations that only cut a text into pieces are
defined for every type of glyphs, so the same definition runs on plain characters and on
characters that carry their place in a source file. `text` forgets everything but the characters.
-/

namespace Csc512

/-- Plain texts. -/
abbrev Text := List Char

/-- A constant, which the definitions on texts refer to. -/
instance lawfulBEqText : LawfulBEq Text := inferInstance

/-- A symbol that shows a character; `ofChar` is one that shows a given character. -/
class Glyph (α : Type*) where
  char : α → Char
  ofChar : Char → α
  char_ofChar : ∀ c, char (ofChar c) = c

instance : Glyph Char := ⟨id, id, fun _ => rfl⟩

@[simp] theorem Glyph.char_self (c : Char) : Glyph.char c = c := rfl

@[simp] theorem Glyph.ofChar_self (c : Char) : (Glyph.ofChar c : Char) = c := rfl

/-- The characters of a list of glyphs. -/
def text {α : Type*} [Glyph α] (s : List α) : Text := s.map Glyph.char

@[simp] theorem text_self (s : Text) : text s = s := List.map_id s

/-- The literal text `s`. -/
abbrev lit (s : String) : Text := s.toList

/-- A bounded quantifier over characters is decided on the list, not on all characters. -/
instance decidableForallMemText (s : Text) (P : Char → Prop) [DecidablePred P] :
    Decidable (∀ c ∈ s, P c) :=
  List.decidableBAll P s

instance decidableForallMemOption (o : Option Char) (P : Char → Prop) [DecidablePred P] :
    Decidable (∀ c ∈ o, P c) :=
  Option.decidableForallMem o

/-! ### White space -/

/-- The characters that separate words. -/
def isSpace (c : Char) : Bool :=
  let n := c.toNat
  (9 ≤ n && n ≤ 13) || (28 ≤ n && n ≤ 32) || n == 133 || n == 160 || n == 5760 ||
    (8192 ≤ n && n ≤ 8202) || n == 8232 || n == 8233 || n == 8239 || n == 8287 || n == 12288

/-- The characters that end a line. -/
def isLineBreak (c : Char) : Bool :=
  let n := c.toNat
  (10 ≤ n && n ≤ 13) || (28 ≤ n && n ≤ 30) || n == 133 || n == 8232 || n == 8233

section Glyphs

variable {α : Type*} [Glyph α]

/-- Trim white space on the left. -/
def lstrip (s : List α) : List α := s.dropWhile fun c => isSpace (Glyph.char c)

/-- Trim white space on the right. -/
def rstrip (s : List α) : List α := s.rdropWhile fun c => isSpace (Glyph.char c)

/-- Trim white space on both sides. -/
def strip (s : List α) : List α := rstrip (lstrip s)

/-- Trim the character `x` on the right. -/
def rstripChar (x : Char) (s : List α) : List α := s.rdropWhile fun c => Glyph.char c = x

/-- Does `s` begin with the text `pat`? -/
def startsWith (s : List α) (pat : Text) : Bool := pat.isPrefixOf (text s)

/-- The maximal pieces without white space. -/
def words (s : List α) : List (List α) :=
  (s.splitOnP fun c => isSpace (Glyph.char c)).filter fun w => !w.isEmpty

/-- `splitLines` with the glyphs of the current line. A carriage return followed by a line feed
is one break, and a final break opens no further line. -/
def splitLinesFrom (current : List α) : List α → List (List α)
  | [] => if current.isEmpty then [] else [current]
  | [c] => [if isLineBreak (Glyph.char c) then current else current ++ [c]]
  | c :: d :: s =>
    if Glyph.char c = '\r' ∧ Glyph.char d = '\n' then current :: splitLinesFrom [] s
    else if isLineBreak (Glyph.char c) then current :: splitLinesFrom [] (d :: s)
    else splitLinesFrom (current ++ [c]) (d :: s)

/-- The lines of a text, without their breaks. -/
def splitLines (s : List α) : List (List α) := splitLinesFrom [] s

end Glyphs

/-- Trim the character `x` on the left. -/
def lstripChar (x : Char) (s : Text) : Text := s.dropWhile (· = x)

/-- Trim the characters of `xs` on both sides. -/
def stripChars (xs : List Char) (s : Text) : Text :=
  (s.dropWhile (· ∈ xs)).rdropWhile (· ∈ xs)

/-! ### Trimming -/

theorem lstrip_cons {c : Char} (hc : ¬ isSpace c) (s : Text) : lstrip (c :: s) = c :: s :=
  List.dropWhile_cons_of_neg hc

theorem lstrip_append_cons {blanks : Text} (h : ∀ b ∈ blanks, isSpace b) {c : Char}
    (hc : ¬ isSpace c) (s : Text) : lstrip (blanks ++ c :: s) = c :: s := by
  induction blanks with
  | nil => exact lstrip_cons hc s
  | cons b blanks ih =>
    have hb : isSpace (Glyph.char b) := h b List.mem_cons_self
    rw [lstrip, List.cons_append, List.dropWhile_cons, if_pos hb]
    exact ih fun b hb => h b (List.mem_cons_of_mem _ hb)

theorem rstrip_append_singleton (s : Text) {c : Char} (hc : ¬ isSpace c) :
    rstrip (s ++ [c]) = s ++ [c] :=
  List.rdropWhile_concat_neg _ _ _ hc

theorem rstrip_append_space (s : Text) {c : Char} (hc : isSpace c) :
    rstrip (s ++ [c]) = rstrip s :=
  List.rdropWhile_concat_pos _ _ _ hc

theorem rstrip_append_cons {c : Char} (hc : ¬ isSpace c) (r s : Text) :
    rstrip (r ++ c :: s) = r ++ c :: rstrip s := by
  induction s using List.reverseRecOn with
  | nil => exact rstrip_append_singleton r hc
  | append_singleton s d ih =>
    by_cases hd : isSpace d
    · rw [rstrip_append_space s hd, ← List.cons_append, ← List.append_assoc,
        rstrip_append_space _ hd]
      exact ih
    · rw [rstrip_append_singleton s hd, ← List.cons_append, ← List.append_assoc,
        rstrip_append_singleton _ hd]

theorem rstrip_cons {c : Char} (hc : ¬ isSpace c) (s : Text) : rstrip (c :: s) = c :: rstrip s :=
  rstrip_append_cons hc [] s

/-- Trimming a text whose first visible character is `c`. -/
theorem strip_append_cons {blanks : Text} (h : ∀ b ∈ blanks, isSpace b) {c : Char}
    (hc : ¬ isSpace c) (s : Text) : strip (blanks ++ c :: s) = c :: rstrip s := by
  rw [strip, lstrip_append_cons h hc, rstrip_cons hc]

theorem strip_blanks {blanks : Text} (h : ∀ b ∈ blanks, isSpace b) : strip blanks = [] := by
  have hdrop : lstrip blanks = [] := List.dropWhile_eq_nil_iff.mpr h
  rw [strip, hdrop]
  rfl

theorem rstrip_isPrefix (s : Text) : rstrip s <+: s :=
  List.rdropWhile_prefix _ s

/-- Trimming a text whose last character is visible leaves the end in place. -/
theorem strip_append_singleton (s : Text) {c : Char} (hc : ¬ isSpace c) :
    strip (s ++ [c]) = lstrip s ++ [c] := by
  have hnot : lstrip (s ++ [c]) = lstrip s ++ [c] := by
    induction s with
    | nil => exact lstrip_cons hc []
    | cons d s ih =>
      by_cases hd : isSpace (Glyph.char d)
      · rw [lstrip, lstrip, List.cons_append, List.dropWhile_cons, if_pos hd,
          List.dropWhile_cons, if_pos hd]
        exact ih
      · rw [lstrip, lstrip, List.cons_append, List.dropWhile_cons, if_neg hd,
          List.dropWhile_cons, if_neg hd, List.cons_append]
  rw [strip, hnot, rstrip_append_singleton _ hc]

/-- The pieces between separators have no separator in them. -/
theorem not_of_mem_splitOnP {α : Type*} {p : α → Bool} (s : List α) :
    ∀ w ∈ s.splitOnP p, ∀ c ∈ w, ¬ p c := by
  induction s with
  | nil => simp
  | cons d s ih =>
    rw [List.splitOnP_cons_eq_if_modifyHead]
    split
    · rw [List.forall_mem_cons]
      exact ⟨by simp, ih⟩
    · cases hs : s.splitOnP p with
      | nil => simp
      | cons v vs =>
        rw [hs, List.forall_mem_cons] at ih
        rw [List.modifyHead_cons, List.forall_mem_cons, List.forall_mem_cons]
        exact ⟨⟨‹_›, ih.1⟩, ih.2⟩

theorem not_isSpace_of_mem_words {s w : Text} (hw : w ∈ words s) : ∀ c ∈ w, ¬ isSpace c :=
  not_of_mem_splitOnP s w (List.mem_filter.mp hw).1

theorem notMem_of_mem_splitOn {s w : Text} {x : Char} (hw : w ∈ s.splitOn x) : x ∉ w := by
  rw [List.splitOn_eq_splitOnP] at hw
  exact fun hx => not_of_mem_splitOnP s w hw x hx (beq_self_eq_true x)

/-! ### Cutting a text at a letter -/

/-- A list falls apart in one way at the first element without a property. -/
theorem eq_of_append_cons {α : Type*} {p : α → Prop} {a b s t : List α} {x y : α}
    (ha : ∀ c ∈ a, p c) (hb : ∀ c ∈ b, p c) (hx : ¬ p x) (hy : ¬ p y)
    (h : a ++ x :: s = b ++ y :: t) : a = b ∧ x = y ∧ s = t := by
  induction a generalizing b with
  | nil =>
    cases b with
    | nil => exact ⟨rfl, List.cons.inj h⟩
    | cons d b =>
      obtain ⟨rfl, -⟩ := List.cons.inj h
      exact absurd (hb x List.mem_cons_self) hx
  | cons c a ih =>
    cases b with
    | nil =>
      obtain ⟨rfl, -⟩ := List.cons.inj h
      exact absurd (ha c List.mem_cons_self) hy
    | cons d b =>
      obtain ⟨rfl, htail⟩ := List.cons.inj h
      obtain ⟨rfl, hrest⟩ := ih (fun e he => ha e (List.mem_cons_of_mem _ he))
        (fun e he => hb e (List.mem_cons_of_mem _ he)) htail
      exact ⟨rfl, hrest⟩

theorem append_cons_inj {α : Type*} {a b s t : List α} {x : α} (ha : x ∉ a) (hb : x ∉ b)
    (h : a ++ x :: s = b ++ x :: t) : a = b ∧ s = t := by
  obtain ⟨hfront, -, hrest⟩ := eq_of_append_cons (p := (· ≠ x)) (fun c hc heq => ha (heq ▸ hc))
    (fun c hc heq => hb (heq ▸ hc)) (not_not_intro rfl) (not_not_intro rfl) h
  exact ⟨hfront, hrest⟩

/-! ### Patterns -/

section Patterns

variable {α : Type*} [DecidableEq α]

/-- The text before and after the first occurrence of `pat`. -/
def cut (pat : List α) : List α → Option (List α × List α)
  | [] => if pat = [] then some ([], []) else none
  | c :: s =>
    if pat.isPrefixOf (c :: s) then some ([], (c :: s).drop pat.length)
    else (cut pat s).map fun r => (c :: r.1, r.2)

/-- Does `pat` occur? -/
def contains (pat s : List α) : Bool := (cut pat s).isSome

/-- Replace the first occurrence of `pat` by `rep`. -/
def replaceFirst (pat rep s : List α) : List α :=
  match cut pat s with
  | none => s
  | some (before, after) => before ++ rep ++ after

/-- The text before and after the first occurrence of a pattern that occurs, put together again
around the pattern, is the text. -/
theorem eq_of_cut {pat s before after : List α} (h : cut pat s = some (before, after)) :
    s = before ++ pat ++ after := by
  induction s generalizing before with
  | nil =>
    by_cases hp : pat = []
    · simp only [cut, if_pos hp, Option.some.injEq, Prod.mk.injEq] at h
      obtain ⟨rfl, rfl⟩ := h
      simp [hp]
    · simp [cut, hp] at h
  | cons c s ih =>
    by_cases hp : pat.isPrefixOf (c :: s)
    · simp only [cut, if_pos hp, Option.some.injEq, Prod.mk.injEq] at h
      obtain ⟨rfl, rfl⟩ := h
      obtain ⟨t, ht⟩ := List.isPrefixOf_iff_prefix.mp hp
      rw [List.nil_append, ← ht, List.drop_left]
    · simp only [cut, if_neg hp, Option.map_eq_some_iff, Prod.mk.injEq] at h
      obtain ⟨⟨b, a⟩, hcut, rfl, rfl⟩ := h
      rw [List.cons_append, List.cons_append, ← ih hcut]

/-- **A text holds a pattern** if the pattern is a part of it. -/
theorem contains_iff_part {pat s : List α} : contains pat s ↔ pat <:+: s := by
  constructor
  · intro h
    obtain ⟨⟨before, after⟩, hcut⟩ := Option.isSome_iff_exists.mp h
    exact ⟨before, after, (eq_of_cut hcut).symm⟩
  · rintro ⟨before, after, rfl⟩
    induction before with
    | nil =>
      cases pat with
      | nil => cases after <;> simp [contains, cut]
      | cons c pat =>
        rw [contains, List.nil_append, List.cons_append, cut, if_pos]
        · rfl
        · exact List.isPrefixOf_iff_prefix.mpr (List.prefix_append (c :: pat) after)
    | cons c before ih =>
      rw [contains, List.cons_append, List.cons_append, cut]
      split
      · rfl
      · rw [Option.isSome_map]
        exact ih

/-- A pattern whose last letter is not before it is found where it stands. -/
theorem cut_of_last {before pat : List α} {x : α} (hbefore : x ∉ before) (hpat : x ∉ pat)
    (after : List α) :
    cut (pat ++ [x]) (before ++ (pat ++ x :: after)) = some (before, after) := by
  induction before with
  | nil =>
    have hprefix : (pat ++ [x]).isPrefixOf (pat ++ x :: after) :=
      List.isPrefixOf_iff_prefix.mpr ⟨after, by rw [List.append_assoc]; rfl⟩
    have hdrop : (pat ++ x :: after).drop (pat ++ [x]).length = after := by
      rw [List.append_cons pat x after, List.drop_left]
    rw [List.nil_append]
    cases hcons : pat ++ x :: after with
    | nil => simp at hcons
    | cons c s =>
      rw [hcons] at hprefix hdrop
      rw [cut, if_pos hprefix, hdrop]
  | cons c before ih =>
    have hnot : ¬ (pat ++ [x]).isPrefixOf (c :: before ++ (pat ++ x :: after)) := by
      intro h
      obtain ⟨t, ht⟩ := List.isPrefixOf_iff_prefix.mp h
      rw [List.append_assoc, List.singleton_append, ← List.append_assoc] at ht
      have hfront : x ∉ c :: before ++ pat := List.not_mem_append hbefore hpat
      obtain ⟨heq, -⟩ := append_cons_inj hpat hfront ht
      have hlength := congrArg List.length heq
      rw [List.length_append, List.length_cons] at hlength
      omega
    rw [List.cons_append] at hnot ⊢
    rw [cut, if_neg hnot, ih (List.not_mem_of_not_mem_cons hbefore)]
    rfl

theorem cut_singleton {c : Char} {s : Text} (h : c ∉ s) (rest : Text) :
    cut [c] (s ++ c :: rest) = some (s, rest) := by
  induction s with
  | nil => simp [cut]
  | cons d s ih =>
    obtain ⟨hd, hs⟩ := not_or.mp (mt List.mem_cons.mpr h)
    rw [List.cons_append, cut, if_neg (by simp [hd]), ih hs]
    rfl

/-- A pattern does not occur in a text without one of its letters. -/
theorem cut_eq_none_of_notMem {pat s : List α} {c : α} (hc : c ∈ pat) (hs : c ∉ s) :
    cut pat s = none := by
  by_contra hne
  obtain ⟨⟨before, after⟩, hcut⟩ := Option.ne_none_iff_exists'.mp hne
  refine hs ?_
  rw [eq_of_cut hcut]
  exact List.mem_append_left _ (List.mem_append_right _ hc)

theorem cut_eq_none {c : Char} {s : Text} (h : c ∉ s) : cut [c] s = none :=
  cut_eq_none_of_notMem List.mem_cons_self h

/-- No occurrence of a pattern reaches over a letter that is not in it. -/
theorem isPrefixOf_append_stop {pat : Text} {c : Char} (hc : c ∉ pat) (p s : Text) :
    pat.isPrefixOf (p ++ c :: s) = pat.isPrefixOf p := by
  induction pat generalizing p with
  | nil => rw [List.isPrefixOf, List.isPrefixOf]
  | cons d pat ih =>
    obtain ⟨hd, hpat⟩ := not_or.mp (mt List.mem_cons.mpr hc)
    cases p with
    | nil => simp [List.isPrefixOf, Ne.symm hd]
    | cons e p => rw [List.cons_append, List.isPrefixOf, List.isPrefixOf, ih hpat]

theorem cut_append_stop {pat : Text} {c : Char} (hc : c ∉ pat) {p : Text}
    (hp : cut pat p = none) (s : Text) :
    cut pat (p ++ c :: s) = (cut pat s).map fun r => (p ++ c :: r.1, r.2) := by
  have hne : pat ≠ [] := by
    rintro rfl
    cases p with
    | nil => simp [cut] at hp
    | cons d p => simp [cut, List.isPrefixOf] at hp
  induction p with
  | nil =>
    have hfirst : ¬ pat.isPrefixOf (c :: s) := by
      have := isPrefixOf_append_stop hc [] s
      rw [List.nil_append] at this
      rw [this]
      cases pat with
      | nil => exact absurd rfl hne
      | cons d pat => simp [List.isPrefixOf]
    rw [List.nil_append, cut, if_neg hfirst]
    rfl
  | cons d p ih =>
    rw [cut] at hp
    split at hp
    · cases hp
    · rename_i hnot
      rw [List.cons_append, cut, ← List.cons_append, isPrefixOf_append_stop hc, if_neg hnot,
        ih (Option.map_eq_none_iff.mp hp), Option.map_map]
      rfl

end Patterns

/-! ### Character tables -/

/-- Marks at which the case of a letter cannot depend on what stands on the other side. -/
def caseStops : List Char := [' ', '{', '}']

/-- What the Unicode tables say about letters and digits. Of the tables only what is stated here
is ever used: they extend ASCII, and lower case leaves the marks of `caseStops` in place. -/
structure CharTable where
  isAlpha : Char → Bool
  isAlnum : Char → Bool
  isDigit : Char → Bool
  isDecimal : Char → Bool
  /-- The value of a decimal digit. -/
  decimalValue : Char → ℕ
  /-- Lower case of a whole text: one letter can depend on its neighbours. -/
  lower : Text → Text
  isAlpha_ascii : ∀ c : Char, c.toNat < 128 → isAlpha c = c.isAlpha
  isAlnum_ascii : ∀ c : Char, c.toNat < 128 → isAlnum c = c.isAlphanum
  isDigit_ascii : ∀ c : Char, c.toNat < 128 → isDigit c = c.isDigit
  isDecimal_ascii : ∀ c : Char, c.toNat < 128 → isDecimal c = c.isDigit
  decimalValue_ascii : ∀ c : Char, c.isDigit → decimalValue c = c.toNat - 48
  lower_ascii : ∀ s : Text, (∀ c ∈ s, c.toNat < 128) → lower s = s.map Char.toLower
  not_isUpper_of_mem_lower : ∀ s : Text, ∀ c ∈ lower s, ¬ c.isUpper
  lower_append : ∀ c ∈ caseStops, ∀ s t : Text, lower (s ++ c :: t) = lower s ++ c :: lower t
  mem_of_mem_lower : ∀ c ∈ caseStops, ∀ s : Text, c ∈ lower s → c ∈ s

theorem isUpper_iff {c : Char} : c.isUpper ↔ 65 ≤ c.toNat ∧ c.toNat ≤ 90 := by
  unfold Char.isUpper
  rw [decide_eq_true_iff, ge_iff_le, UInt32.le_iff_toNat_le, UInt32.le_iff_toNat_le]
  rfl

theorem isLower_iff {c : Char} : c.isLower ↔ 97 ≤ c.toNat ∧ c.toNat ≤ 122 := by
  unfold Char.isLower
  rw [Bool.and_eq_true, decide_eq_true_iff, decide_eq_true_iff, ge_iff_le, UInt32.le_iff_toNat_le,
    UInt32.le_iff_toNat_le]
  rfl

theorem isAlpha_iff {c : Char} : c.isAlpha ↔ c.isUpper ∨ c.isLower := by
  unfold Char.isAlpha
  rw [Bool.or_eq_true]

theorem toLower_of_not_isUpper {c : Char} (h : ¬ c.isUpper) : c.toLower = c :=
  dif_neg fun hupper => h (decide_eq_true hupper)

/-- The lower case of an upper case letter is neither upper case nor a mark. -/
theorem toLower_of_isUpper {c : Char} (h : c.isUpper) :
    c.toLower.isUpper = false ∧ c.toLower ∉ caseStops := by
  have hle : c.toNat < 128 := lt_of_le_of_lt (isUpper_iff.mp h).2 (by decide)
  have hall : ∀ n < 128, (Char.ofNat n).isUpper →
      (Char.ofNat n).toLower.isUpper = false ∧ (Char.ofNat n).toLower ∉ caseStops := by decide
  have hc := hall c.toNat hle
  rw [Char.ofNat_toNat] at hc
  exact hc h

/-- The table that knows ASCII only. -/
def CharTable.ascii : CharTable where
  isAlpha := Char.isAlpha
  isAlnum := Char.isAlphanum
  isDigit := Char.isDigit
  isDecimal := Char.isDigit
  decimalValue c := c.toNat - 48
  lower s := s.map Char.toLower
  isAlpha_ascii _ _ := rfl
  isAlnum_ascii _ _ := rfl
  isDigit_ascii _ _ := rfl
  isDecimal_ascii _ _ := rfl
  decimalValue_ascii _ _ := rfl
  lower_ascii _ _ := rfl
  not_isUpper_of_mem_lower s c hc hup := by
    obtain ⟨d, -, rfl⟩ := List.mem_map.mp hc
    by_cases hd : d.isUpper
    · simp [(toLower_of_isUpper hd).1] at hup
    · rw [toLower_of_not_isUpper hd] at hup
      exact hd hup
  lower_append c hc s t := by
    have hfix : c.toLower = c := by
      revert c
      decide
    rw [List.map_append, List.map_cons, hfix]
  mem_of_mem_lower c hc s h := by
    obtain ⟨d, hd, rfl⟩ := List.mem_map.mp h
    by_cases hup : d.isUpper
    · exact absurd hc (toLower_of_isUpper hup).2
    · rwa [toLower_of_not_isUpper hup]

/-! ### Numbers -/

/-- The decimal digits of a number. -/
def natText (n : ℕ) : Text := Nat.toDigits 10 n

theorem isDigit_of_mem_natText {n : ℕ} {c : Char} (h : c ∈ natText n) : c.isDigit :=
  Nat.isDigit_of_mem_toDigits (by decide) (by decide) h

theorem natText_ne_nil (n : ℕ) : natText n ≠ [] := by
  rw [natText]
  exact Nat.toDigits_ne_nil

/-- A printed number begins with a digit. -/
theorem exists_natText (n : ℕ) : ∃ c s, natText n = c :: s ∧ c.isDigit := by
  obtain ⟨c, s, h⟩ := List.exists_cons_of_ne_nil (natText_ne_nil n)
  exact ⟨c, s, h, isDigit_of_mem_natText (h ▸ List.mem_cons_self)⟩

/-- A number other than zero does not begin with a zero. -/
theorem head?_natText_ne {n : ℕ} (h : 0 < n) : (natText n).head? ≠ some '0' := by
  induction n using Nat.strongRecOn with
  | ind n ih =>
    rw [natText]
    by_cases hlt : n < 10
    · have hall : ∀ m < 10, 0 < m → [Nat.digitChar m].head? ≠ some '0' := by decide
      rw [Nat.toDigits_of_lt_base hlt]
      exact hall n hlt h
    · have hle : 10 ≤ n := Nat.le_of_not_lt hlt
      rw [Nat.toDigits_of_base_le (by decide) hle,
        List.head?_append_of_ne_nil _ Nat.toDigits_ne_nil]
      exact ih (n / 10) (Nat.div_lt_self h (by decide)) (Nat.div_pos hle (by decide))

theorem natText_injective : Function.Injective natText := by
  intro m n h
  rw [← Nat.ofDigitChars_toDigits (b := 10) (n := m) (by decide) (by decide),
    ← Nat.ofDigitChars_toDigits (b := 10) (n := n) (by decide) (by decide)]
  exact congrArg _ h

/-! ### Tests -/

example : words (lit " int  x\t= 1;\n") = [lit "int", lit "x", lit "=", lit "1;"] := by decide +kernel

example : splitLines (lit "a\r\nb\n\nc\n") = [lit "a", lit "b", lit "", lit "c"] := by decide +kernel

example : replaceFirst (lit "{}") (lit "<1>") (lit "if (x) {} else {}")
    = lit "if (x) <1> else {}" := by decide +kernel

end Csc512
