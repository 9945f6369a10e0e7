import Csc512.Cdup.Statements

/-!
# When splitting gives the statements back

The statements of a list, written one below the other and split again. In C a quote opens a literal
wherever it stands; the scanner only sees quotes outside parentheses. So a parenthesis in a literal
that is an argument changes the depth, and from there on the scanner is out of step.

`IsStatement` says what a statement is in C, by the lexical rules of C; `firstCut` follows what the
scanner sees and finds the place of its first cut in a text. The scanner gives the list back exactly
when in every statement it sees the first place to cut at the end of the statement; the last
statement may also contain no such place at all.

## Main results

* `run_of_firstCut_eq_some`, `run_of_firstCut_eq_none` — what the scanner does up to its first cut
* `parseStatements_join_iff` — the exact condition under which a list of statements comes back
* `parseStatements_join_ne` — a list that does not
-/

namespace Csc512

/-! ### Statements by the lexical rules of C -/

/-- Where a C lexer is: outside literals or in one, with the parentheses that are open. -/
inductive Lexing where
  | code (depth : ℕ)
  | literal (quote : Char) (depth : ℕ)
  | escape (quote : Char) (depth : ℕ)

/-- The rest of one statement: literals are closed, there are no comments, parentheses are balanced
outside literals, and outside literals and parentheses a simple statement has no other `;` than its
last character and a block header no `;` and no other placeholder than its last two. -/
def isStatementFrom (header : Bool) : Lexing → Text → Bool
  | .code depth, c :: s =>
    if c = '"' ∨ c = '\'' then isStatementFrom header (.literal c depth) s
    else if c = '/' ∧ (s.head? = some '/' ∨ s.head? = some '*') then false
    else if c = '(' then isStatementFrom header (.code (depth + 1)) s
    else if c = ')' then depth ≠ 0 && isStatementFrom header (.code (depth - 1)) s
    else if c = ';' ∧ depth = 0 then !header && s.isEmpty
    else if header ∧ c = '{' ∧ s.head? = some '}' ∧ depth = 0 then s.length = 1
    else isStatementFrom header (.code depth) s
  | .literal quote depth, c :: s =>
    if c = '\\' then isStatementFrom header (.escape quote depth) s
    else if c = quote then isStatementFrom header (.code depth) s
    else isStatementFrom header (.literal quote depth) s
  | .escape quote depth, _ :: s => isStatementFrom header (.literal quote depth) s
  | _, [] => false

/-- Does a text begin with the keyword `do`? -/
def startsDo (s : Text) : Bool :=
  s.take 2 = ['d', 'o'] ∧ ¬ (s.drop 2).head?.any fun c => c.isAlphanum || c = '_'

/-- A C statement as it stands on a line: a simple statement or a block header, that does not begin
with white space, `#` or the keyword `do`. -/
structure IsStatement (s : Text) : Prop where
  lexes : isStatementFrom true (.code 0) s ∨ isStatementFrom false (.code 0) s
  notSpace : ∀ c ∈ s.head?, ¬ isSpace c
  notHash : s.head? ≠ some '#'
  notDo : ¬ startsDo s

instance (s : Text) : Decidable (IsStatement s) :=
  decidable_of_iff ((isStatementFrom true (.code 0) s ∨ isStatementFrom false (.code 0) s) ∧
      (∀ c ∈ s.head?, ¬ isSpace c) ∧ s.head? ≠ some '#' ∧ ¬ startsDo s)
    ⟨fun h => ⟨h.1, h.2.1, h.2.2.1, h.2.2.2⟩, fun h => ⟨h.1, h.2, h.3, h.4⟩⟩

/-! ### What the scanner sees -/

/-- Is the scanner in a literal? -/
inductive Quote where
  | outside
  | inside (quote : Char)
  | escaped (quote : Char)

/-- The mode of the scanner. -/
def Quote.mode : Quote → Mode Char
  | .outside => .code
  | .inside quote => .literal quote
  | .escaped quote => .escape quote

/-- The text behind the first cut that the scanner sees: behind the first `;` or placeholder, or
from the first comment mark on, where it counts `depth` zero and has seen no quote open. -/
def firstCut : ℤ → Quote → Text → Option Text
  | depth, .outside, c :: s =>
    if (c = '"' ∨ c = '\'') ∧ depth = 0 then firstCut depth (.inside c) s
    else if c = '/' ∧ (s.head? = some '/' ∨ s.head? = some '*') ∧ depth = 0 then some (c :: s)
    else if c = '(' then firstCut (depth + 1) .outside s
    else if c = ')' then firstCut (depth - 1) .outside s
    else if c = '{' ∧ s.head? = some '}' ∧ depth = 0 then some s.tail
    else if c = ';' ∧ depth = 0 then some s
    else firstCut depth .outside s
  | depth, .inside quote, c :: s =>
    if c = '\\' then firstCut depth (.escaped quote) s
    else if c = quote then firstCut depth .outside s
    else firstCut depth (.inside quote) s
  | depth, .escaped quote, _ :: s => firstCut depth (.inside quote) s
  | _, _, [] => none

/-- The scanner cuts the statement at its end, and nowhere before. -/
def CutsAtEnd (s : Text) : Prop := firstCut 0 .outside s = some []

/-- The scanner cuts the statement nowhere before its end. -/
def NotCutBefore (s : Text) : Prop := ∀ rest ∈ firstCut 0 .outside s, rest = []

/-- The scanner cuts every statement at its end; it may miss the end of the last one. -/
def SplitsBack (L : List Text) : Prop :=
  (∀ s ∈ L.dropLast, CutsAtEnd s) ∧ ∀ s ∈ L.getLast?, NotCutBefore s

instance (s : Text) : Decidable (CutsAtEnd s) :=
  inferInstanceAs (Decidable (firstCut 0 .outside s = some []))

instance (s : Text) : Decidable (NotCutBefore s) :=
  inferInstanceAs (Decidable (∀ rest ∈ firstCut 0 .outside s, rest = []))

instance (L : List Text) : Decidable (SplitsBack L) :=
  inferInstanceAs (Decidable ((∀ s ∈ L.dropLast, CutsAtEnd s) ∧ ∀ s ∈ L.getLast?, NotCutBefore s))

/-! ### The first cut in a longer text -/

theorem firstCut_isSuffix {depth : ℤ} {q : Quote} {s rest : Text}
    (h : firstCut depth q s = some rest) : rest <:+ s := by
  fun_induction firstCut depth q s with
  | case2 => exact (Option.some.inj h) ▸ List.suffix_refl _
  | case5 depth c s => exact (Option.some.inj h) ▸ (List.tail_suffix s).trans (List.suffix_cons c s)
  | case6 depth c s => exact (Option.some.inj h) ▸ List.suffix_cons c s
  | case12 => cases h
  | case1 _ _ _ _ ih | case3 _ _ _ _ ih | case4 _ _ _ _ _ ih | case7 _ _ _ _ _ _ _ _ _ ih
  | case8 _ _ _ ih | case9 _ _ _ _ ih | case10 _ _ _ _ _ _ ih | case11 _ _ _ _ ih =>
    exact (ih h).trans (List.suffix_cons _ _)

/-- A text that begins with something other than a comment is not cut before its first
character. -/
theorem firstCut_cons_isSuffix {depth : ℤ} {q : Quote} {c : Char} {s rest : Text} (hc : c ≠ '/')
    (h : firstCut depth q (c :: s) = some rest) : rest <:+ s := by
  cases q with
  | outside =>
    rw [firstCut, if_neg (c := c = '/' ∧ _) (fun hn => hc hn.1)] at h
    split_ifs at h
    · exact firstCut_isSuffix h
    · exact firstCut_isSuffix h
    · exact firstCut_isSuffix h
    · exact (Option.some.inj h) ▸ List.tail_suffix s
    · exact (Option.some.inj h) ▸ List.suffix_refl s
    · exact firstCut_isSuffix h
  | inside quote =>
    rw [firstCut] at h
    split_ifs at h <;> exact firstCut_isSuffix h
  | escaped quote => exact firstCut_isSuffix (by rwa [firstCut] at h)

/-- The scanner looks one character ahead, and only from a `/` or a `{`. -/
theorem head?_append {c : Char} {s : Text} (hlast : ∀ d ∈ (c :: s).getLast?, d ≠ '/' ∧ d ≠ '{')
    (hc : c = '/' ∨ c = '{') (r : Text) : (s ++ r).head? = s.head? := by
  cases s with
  | nil =>
    have hd := hlast c rfl
    tauto
  | cons d s => rfl

/-- A text behind which nothing is looked at: what follows does not move its first cut, and without
one the scanner comes to what follows. -/
theorem firstCut_append {depth : ℤ} {q : Quote} {s : Text}
    (hlast : ∀ d ∈ s.getLast?, d ≠ '/' ∧ d ≠ '{') (r : Text) :
    (∀ rest, firstCut depth q s = some rest → firstCut depth q (s ++ r) = some (rest ++ r)) ∧
    (firstCut depth q s = none →
      ∃ depth' q', firstCut depth q (s ++ r) = firstCut depth' q' r) := by
  have htail : ∀ {c : Char} {s : Text}, (∀ d ∈ (c :: s).getLast?, d ≠ '/' ∧ d ≠ '{') →
      ∀ d ∈ s.getLast?, d ≠ '/' ∧ d ≠ '{' := by
    intro c s h d hd
    cases s with
    | nil => cases hd
    | cons e s => exact h d (by rwa [List.getLast?_cons_cons])
  induction s generalizing depth q with
  | nil => exact ⟨fun rest h => absurd h (by simp [firstCut]), fun _ => ⟨depth, q, rfl⟩⟩
  | cons c s ih =>
    have hahead := fun hc => head?_append hlast hc r
    have ih := fun {depth q} => @ih depth q (htail hlast)
    rw [List.cons_append]
    cases q with
    | outside =>
      have hcomment : (c = '/' ∧ ((s ++ r).head? = some '/' ∨ (s ++ r).head? = some '*') ∧
          depth = 0) ↔ (c = '/' ∧ (s.head? = some '/' ∨ s.head? = some '*') ∧ depth = 0) :=
        and_congr_right fun hc => by rw [hahead (Or.inl hc)]
      have hplace : (c = '{' ∧ (s ++ r).head? = some '}' ∧ depth = 0) ↔
          (c = '{' ∧ s.head? = some '}' ∧ depth = 0) :=
        and_congr_right fun hc => by rw [hahead (Or.inr hc)]
      rw [firstCut, firstCut]
      simp only [hcomment, hplace]
      split_ifs with hquote hc hopen hclose hp hend
      · exact ih
      · exact ⟨fun rest h => by rw [← Option.some.inj h]; rfl, fun h => by simp at h⟩
      · exact ih
      · exact ih
      · refine ⟨fun rest h => ?_, fun h => by simp at h⟩
        obtain ⟨d, s', rfl⟩ : ∃ d s', s = d :: s' := by
          cases s with
          | nil => simp at hp
          | cons d s' => exact ⟨d, s', rfl⟩
        rw [← Option.some.inj h]
        rfl
      · exact ⟨fun rest h => by rw [← Option.some.inj h], fun h => by simp at h⟩
      · exact ih
    | inside quote =>
      rw [firstCut, firstCut]
      split_ifs <;> exact ih
    | escaped quote => exact ih

/-! ### Statements and what follows them -/

/-- A text that the scanner reads without meeting a preprocessor line or a `do` loop: it begins
with something visible, other than `#` and the keyword `do`. -/
structure Begins (u : Text) : Prop where
  visible : ∃ c s, u = c :: s ∧ ¬ isSpace c ∧ c ≠ '#'
  notDo : ¬ startsDo u

theorem exists_cons {c : Char} {s ends : Text} (h : ∃ t, s = t ++ ends) :
    ∃ t, c :: s = t ++ ends := by
  obtain ⟨t, rfl⟩ := h
  exact ⟨c :: t, rfl⟩

/-- A statement ends in a `;` or in a placeholder. -/
theorem isStatementFrom_ends {header : Bool} {m : Lexing} {s : Text}
    (h : isStatementFrom header m s) : (∃ t, s = t ++ [';']) ∨ ∃ t, s = t ++ ['{', '}'] := by
  fun_induction isStatementFrom header m s with
  | case4 depth s _ _ _ ih =>
    rw [Bool.and_eq_true] at h
    exact (ih h.2).imp exists_cons exists_cons
  | case5 depth c s _ _ _ _ hc =>
    rw [Bool.and_eq_true, List.isEmpty_iff] at h
    exact Or.inl ⟨[], by rw [hc.1, h.2]; rfl⟩
  | case6 depth c s _ _ _ _ _ hc =>
    obtain ⟨d, rfl⟩ := List.length_eq_one_iff.mp (of_decide_eq_true h)
    have hd : d = '}' := by simpa using hc.2.2.1
    exact Or.inr ⟨[], by rw [hc.2.1, hd]; rfl⟩
  | case2 => exact absurd h (by simp)
  | case12 => exact absurd h (by simp)
  | case1 _ _ _ _ ih | case3 _ _ _ _ ih | case7 _ _ _ _ _ _ _ _ _ ih | case8 _ _ _ ih
  | case9 _ _ _ _ ih | case10 _ _ _ _ _ _ ih | case11 _ _ _ _ ih =>
    exact (ih h).imp exists_cons exists_cons

namespace IsStatement

variable {s : Text}

/-- A statement ends in a visible character that opens neither a comment nor a placeholder. -/
theorem exists_last (h : IsStatement s) :
    ∃ t c, s = t ++ [c] ∧ ¬ isSpace c ∧ c ≠ '/' ∧ c ≠ '{' := by
  obtain ⟨t, rfl⟩ | ⟨t, rfl⟩ := h.lexes.elim isStatementFrom_ends isStatementFrom_ends
  · exact ⟨t, ';', rfl, by decide⟩
  · exact ⟨t ++ ['{'], '}', by simp, by decide⟩

theorem last_ne (h : IsStatement s) : ∀ d ∈ s.getLast?, d ≠ '/' ∧ d ≠ '{' := by
  obtain ⟨t, c, rfl, -, hc⟩ := h.exists_last
  simpa using hc

theorem exists_first (h : IsStatement s) : ∃ c u, s = c :: u ∧ ¬ isSpace c ∧ c ≠ '#' := by
  obtain ⟨c, u, rfl⟩ : ∃ c u, s = c :: u := by
    obtain ⟨t, c, rfl, -⟩ := h.exists_last
    exact List.exists_cons_of_ne_nil (by simp)
  refine ⟨c, u, rfl, h.notSpace c rfl, ?_⟩
  intro heq
  exact h.notHash (by rw [heq]; rfl)

/-- Trimming takes nothing off a statement. -/
theorem strip_append (h : IsStatement s) {blanks : Text} (hblanks : ∀ b ∈ blanks, isSpace b) :
    strip (blanks ++ s) = s := by
  obtain ⟨t, e, ht, he, -⟩ := h.exists_last
  obtain ⟨c, u, rfl, hc, -⟩ := h.exists_first
  rw [strip_append_cons hblanks hc, ← rstrip_cons hc, ht, rstrip_append_singleton t he]

/-- A statement is no comment. -/
theorem not_comment (h : IsStatement s) {u : Text} (hs : s = '/' :: u) :
    u.head? ≠ some '/' ∧ u.head? ≠ some '*' := by
  subst hs
  rcases h.lexes with hl | hl <;>
  · rw [isStatementFrom, if_neg (by decide)] at hl
    split at hl
    · cases hl
    · rename_i hn
      constructor <;> intro heq <;> exact hn ⟨rfl, by simp [heq]⟩

/-- Whatever follows a statement, the text begins as the statement does. -/
theorem begins (h : IsStatement s) (r : Text) : Begins (s ++ r) := by
  obtain ⟨c, u, rfl, hc⟩ := h.exists_first
  refine ⟨⟨c, u ++ r, rfl, hc⟩, ?_⟩
  intro hdo
  -- the keyword and the character behind it stand in the statement
  rcases u with _ | ⟨o, _ | ⟨x, u⟩⟩
  · obtain ⟨rfl, -⟩ : c = 'd' ∧ r.take 1 = ['o'] := by
      simpa [startsDo] using (of_decide_eq_true hdo).1
    exact absurd h.lexes (by decide)
  · obtain ⟨rfl, rfl⟩ : c = 'd' ∧ o = 'o' := by
      simpa [startsDo] using (of_decide_eq_true hdo).1
    exact absurd h.lexes (by decide)
  · exact h.notDo hdo

end IsStatement

/-! ### Statements are only added -/

section Grows

open Splitter

variable {α : Type*} [Glyph α] (opts : Includes) (S : Splitter α)

theorem addStatement_grows (stmt : List α) :
    S.statements <+: (S.addStatement opts stmt).statements := by
  unfold addStatement
  dsimp only
  split_ifs <;> simp

theorem addComment_grows (comment : List α) :
    S.statements <+: (S.addComment opts comment).statements := by
  unfold addComment
  split_ifs <;> simp

theorem flush_grows : S.statements <+: (S.flush opts).statements :=
  addStatement_grows opts S _

theorem addDo_grows (pendingDo tail : List α) :
    S.statements <+: (S.addDo opts pendingDo tail).statements := by
  unfold addDo
  split_ifs
  · exact addStatement_grows opts S _
  · exact (addStatement_grows opts S _).trans (addStatement_grows opts _ _)

theorem readCode_grows (c : α) (next : Option α) :
    S.statements <+: (S.readCode opts c next).statements := by
  have hflush : ∀ current, S.statements <+:
      ({ S with current := current }.flush opts).statements := fun current =>
    flush_grows opts { S with current := current }
  refine readCode_cases opts S c next ?literal ?lineComment ?blockComment ?opening ?closing ?doBlock
    ?block ?semicolon ?directive ?other
  case literal => exact fun _ _ _ _ => List.prefix_refl _
  case lineComment => exact fun _ _ _ => flush_grows opts S
  case blockComment => exact fun _ _ _ => flush_grows opts S
  case opening => exact fun _ => List.prefix_refl _
  case closing => exact fun _ => List.prefix_refl _
  case doBlock => exact fun _ _ _ _ => List.prefix_refl _
  case block => exact fun _ _ _ _ => hflush _
  case semicolon => exact fun _ _ => hflush _
  case directive => exact fun _ => flush_grows opts S
  case other => exact fun _ _ _ => List.prefix_refl _

theorem read_grows (c : α) (next : Option α) :
    S.statements <+: (S.read opts c next).statements := by
  unfold Splitter.read
  cases S.mode with
  | code => exact readCode_grows opts S c next
  | literal quote =>
    dsimp only
    split_ifs <;> exact List.prefix_refl _
  | escape quote => exact List.prefix_refl _
  | lineComment comment =>
    dsimp only
    split_ifs
    · exact (addComment_grows opts S comment).trans
        (readCode_grows opts { S.addComment opts comment with mode := .code } c next)
    · exact List.prefix_refl _
  | blockComment comment =>
    dsimp only
    split_ifs
    · exact addComment_grows opts S (comment ++ c :: next.toList)
    · exact List.prefix_refl _
  | doTail pendingDo tail =>
    dsimp only
    split_ifs
    · exact List.prefix_refl _
    · exact List.prefix_refl _
    · exact addDo_grows opts S pendingDo (tail ++ [c])
    · exact List.prefix_refl _
  | skip next => exact List.prefix_refl _

theorem run_grows (s : List α) : S.statements <+: (S.run opts s).statements := by
  induction s generalizing S with
  | nil => exact List.prefix_refl _
  | cons c s ih => exact (read_grows opts S c s.head?).trans (ih _)

theorem finish_grows : S.statements <+: S.finish opts := by
  unfold finish
  cases S.mode with
  | lineComment comment => exact (addComment_grows opts S comment).trans (flush_grows opts _)
  | blockComment comment => exact (addComment_grows opts S comment).trans (flush_grows opts _)
  | doTail pendingDo tail => exact (addDo_grows opts S pendingDo tail).trans (flush_grows opts _)
  | _ => exact flush_grows opts S

/-- The statements that are there stay in front. -/
theorem finish_run_grows (s : List α) : S.statements <+: (S.run opts s).finish opts :=
  (run_grows opts S s).trans (finish_grows opts _)

end Grows

/-! ### The scanner before and at its first cut -/

/-- The text that is being collected: blanks and the beginning of `u`. -/
def Collects (current rest : Text) : Prop :=
  ∃ blanks u, current ++ rest = blanks ++ u ∧ (∀ b ∈ blanks, isSpace b) ∧ Begins u

/-- What has been collected is blank, or blanks and then the beginning of the text. -/
theorem Collects.strip_current {current rest : Text} (h : Collects current rest) :
    strip current = [] ∨ ∃ blanks c s, current = blanks ++ c :: s ∧
      strip current = c :: rstrip s ∧ c ≠ '#' ∧ ¬ startsDo (c :: s ++ rest) := by
  obtain ⟨blanks, u, heq, hblanks, ⟨c, s, rfl, hc, hhash⟩, hdo⟩ := h
  rcases List.append_eq_append_iff.mp heq with ⟨w, rfl, -⟩ | ⟨w, rfl, hw⟩
  · exact Or.inl (strip_blanks fun b hb => hblanks b (List.mem_append_left _ hb))
  · cases w with
    | nil =>
      rw [List.append_nil]
      exact Or.inl (strip_blanks hblanks)
    | cons d w =>
      obtain ⟨rfl, rfl⟩ : c = d ∧ s = w ++ rest := by simpa using hw
      exact Or.inr ⟨blanks, c, w, rfl, strip_append_cons hblanks hc w, hhash, hdo⟩

/-- What has been collected is no preprocessor line. -/
theorem Collects.notHash {current rest : Text} (h : Collects current rest) :
    ¬ startsWith (strip current) (lit "#") := by
  obtain hs | ⟨-, c, s, -, hs, hhash, -⟩ := h.strip_current
  · rw [hs]
    decide
  · rw [hs, startsWith, text_self]
    show ¬ (['#'].isPrefixOf _) = true
    simpa using hhash.symm

/-- A text that the scanner takes for the beginning of a `do` loop begins with `do`. -/
theorem startsDo_of_isDo {current : Text} (hdo : Splitter.isDo current) (rest : Text)
    (hlast : strip current ≠ ['d', 'o']) : startsDo (strip current ++ rest) := by
  have hpre : ∀ x ∈ [' ', '{', '\n'], ['d', 'o', x].isPrefixOf (strip current) →
      startsDo (strip current ++ rest) := by
    intro x hx hpre
    obtain ⟨t, ht⟩ := List.isPrefixOf_iff_prefix.mp hpre
    rw [← ht]
    simp only [List.mem_cons, List.not_mem_nil, or_false] at hx
    rcases hx with rfl | rfl | rfl <;> rfl
  simp only [Splitter.isDo, startsWith, text_self, Bool.or_eq_true, decide_eq_true_eq] at hdo
  rcases hdo with ((hdo | hdo) | hdo) | hdo
  · exact absurd hdo hlast
  · exact hpre ' ' (by simp) hdo
  · exact hpre '{' (by simp) hdo
  · exact hpre '\n' (by simp) hdo

/-- What has been collected up to the end of a placeholder is no beginning of a `do` loop. -/
theorem Collects.notDo {current rest : Text} (h : Collects (current ++ ['}']) rest) :
    ¬ Splitter.isDo (current ++ ['}']) := by
  have hend : strip (current ++ ['}']) = lstrip current ++ ['}'] :=
    strip_append_singleton current (by decide)
  intro hisDo
  have hlast : strip (current ++ ['}']) ≠ ['d', 'o'] := by
    rw [hend]
    intro heq
    simpa using congrArg List.getLast? heq
  obtain hs | ⟨blanks, c, s, hcurrent, hs, -, hdo⟩ := h.strip_current
  · rw [hend] at hs
    simp at hs
  · have hs' : rstrip s = s := by
      rcases List.eq_nil_or_concat' s with rfl | ⟨s, e, rfl⟩
      · rfl
      · obtain rfl : '}' = e := by
          rw [← List.cons_append, ← List.append_assoc] at hcurrent
          simpa using (List.append_inj' hcurrent rfl).2
        exact rstrip_append_singleton s (by decide)
    rw [hs'] at hs
    apply hdo
    rw [← hs]
    exact startsDo_of_isDo hisDo rest hlast

section FirstCut

variable (opts : Includes)

/-- Ending a statement that is not a preprocessor line. -/
theorem flush_eq {S : Splitter Char} (hhash : ¬ startsWith (strip S.current) (lit "#"))
    (hne : strip S.current ≠ []) :
    S.flush opts = { S with statements := S.statements ++ [strip S.current], current := [] } := by
  simp [Splitter.flush, Splitter.addStatement, hhash, hne]

/-- What reading one character does to a statement: the character is collected, or it ends the
statement, or it is the first of the two that do, or it opens a comment. -/
theorem read_cases (ss : List Text) {current s : Text} {c : Char} (depth : ℤ) (q : Quote)
    (hcol : Collects current (c :: s)) :
    let S : Splitter Char := ⟨ss, current, depth, q.mode⟩
    (∃ depth' q', firstCut depth q (c :: s) = firstCut depth' q' s ∧
      S.read opts c s.head? = ⟨ss, current ++ [c], depth', Quote.mode q'⟩) ∨
    (c = ';' ∧ firstCut depth q (c :: s) = some s ∧
      S.read opts c s.head? = ⟨ss ++ [strip (current ++ [';'])], [], 0, .code⟩) ∨
    (c = '{' ∧ ∃ s', s = '}' :: s' ∧ firstCut depth q (c :: s) = some s' ∧
      S.read opts c s.head? = ⟨ss ++ [strip (current ++ ['{', '}'])], [], 0, .skip .code⟩) ∨
    (c = '/' ∧ (s.head? = some '/' ∨ s.head? = some '*') ∧
      firstCut depth q (c :: s) = some (c :: s) ∧
      ∃ m, S.read opts c s.head? = { S.flush opts with mode := m }) := by
  intro S
  cases q with
  | outside =>
    have hread : S.read opts c s.head? = S.readCode opts c s.head? := rfl
    have hmap : s.head?.map Glyph.char = s.head? := congrFun Option.map_id _
    rw [hread]
    refine Splitter.readCode_cases opts S c s.head? ?literal ?lineComment ?blockComment ?opening
      ?closing ?doBlock ?block ?semicolon ?directive ?other
    case literal =>
      rintro quote hquote rfl hdepth
      exact .inl ⟨depth, .inside c, by rw [firstCut, if_pos ⟨by simpa using hquote, hdepth⟩], rfl⟩
    case lineComment =>
      rintro rfl hnext hdepth
      rw [hmap] at hnext
      refine .inr (.inr (.inr ⟨rfl, .inl hnext, ?_, _, rfl⟩))
      rw [firstCut, if_neg (by simp), if_pos ⟨rfl, .inl hnext, hdepth⟩]
    case blockComment =>
      rintro rfl hnext hdepth
      rw [hmap] at hnext
      refine .inr (.inr (.inr ⟨rfl, .inr hnext, ?_, _, rfl⟩))
      rw [firstCut, if_neg (by simp), if_pos ⟨rfl, .inr hnext, hdepth⟩]
    case opening =>
      rintro rfl
      exact .inl ⟨depth + 1, .outside, by simp [firstCut], rfl⟩
    case closing =>
      rintro rfl
      exact .inl ⟨depth - 1, .outside, by simp [firstCut], rfl⟩
    case doBlock =>
      rintro rfl hnext - hdo
      obtain ⟨s', rfl⟩ := List.head?_eq_some_iff.mp (hmap ▸ hnext)
      have hcol' : Collects (current ++ ['{'] ++ ['}']) s' := by simpa [Collects] using hcol
      exact absurd hdo (by simpa using hcol'.notDo)
    case block =>
      rintro rfl hnext hdepth -
      rw [hmap] at hnext
      obtain ⟨s', rfl⟩ := List.head?_eq_some_iff.mp hnext
      have hcol' : Collects (current ++ ['{', '}']) s' := by simpa [Collects] using hcol
      have hne : strip (current ++ ['{', '}']) ≠ [] := by
        have hend := strip_append_singleton (current ++ ['{']) (c := '}') (by decide)
        intro heq
        simp [heq] at hend
      refine .inr (.inr (.inl ⟨rfl, s', rfl, ?_, ?_⟩))
      · rw [firstCut, if_neg (by simp), if_neg (by simp), if_neg (by simp), if_neg (by simp),
          if_pos ⟨rfl, rfl, hdepth⟩]
        rfl
      · obtain rfl : depth = 0 := hdepth
        rw [flush_eq opts hcol'.notHash hne]
        rfl
    case semicolon =>
      rintro rfl hdepth
      obtain rfl : depth = 0 := hdepth
      have hcol' : Collects (current ++ [';']) s := by simpa [Collects] using hcol
      have hne : strip (current ++ [';']) ≠ [] := by
        rw [strip_append_singleton current (by decide)]
        simp
      refine .inr (.inl ⟨rfl, by simp [firstCut], ?_⟩)
      rw [flush_eq opts hcol'.notHash hne]
      rfl
    case directive => exact fun hhash => absurd hhash hcol.notHash
    case other =>
      intro (hopen : c ≠ '(') (hclose : c ≠ ')') hplain
      rw [hmap] at hplain
      have hquote : ¬ ((c = '"' ∨ c = '\'') ∧ depth = 0) := by
        rintro ⟨rfl | rfl, hdepth⟩
        · exact (hplain hdepth).1 (by simp)
        · exact (hplain hdepth).1 (by simp)
      have hcomment : ¬ (c = '/' ∧ (s.head? = some '/' ∨ s.head? = some '*') ∧ depth = 0) :=
        fun ⟨hc, hnext, hdepth⟩ => (hplain hdepth).2.1 hc (by simpa using hnext)
      have hplace : ¬ (c = '{' ∧ s.head? = some '}' ∧ depth = 0) :=
        fun ⟨hc, hnext, hdepth⟩ => (hplain hdepth).2.2 hc hnext
      have hend : ¬ (c = ';' ∧ depth = 0) := by
        rintro ⟨rfl, hdepth⟩
        exact (hplain hdepth).1 (by simp)
      refine .inl ⟨depth, .outside, ?_, rfl⟩
      rw [firstCut, if_neg hquote, if_neg hcomment, if_neg hopen, if_neg hclose, if_neg hplace,
        if_neg hend]
  | inside quote =>
    left
    rw [firstCut]
    by_cases hesc : c = '\\'
    · exact ⟨depth, .escaped quote, if_pos hesc, by simp [S, Splitter.read, Quote.mode, hesc]⟩
    by_cases hquote : c = quote
    · refine ⟨depth, .outside, by rw [if_neg hesc, if_pos hquote], ?_⟩
      subst hquote
      simp [S, Splitter.read, Quote.mode, hesc]
    · refine ⟨depth, .inside quote, by rw [if_neg hesc, if_neg hquote], ?_⟩
      simp [S, Splitter.read, Quote.mode, hesc, hquote]
  | escaped quote => exact Or.inl ⟨depth, .inside quote, by rw [firstCut], rfl⟩

theorem finish_mode {ss : List Text} {current : Text} {depth : ℤ} {q : Quote} :
    (⟨ss, current, depth, q.mode⟩ : Splitter Char).finish opts
      = ((⟨ss, current, depth, q.mode⟩ : Splitter Char).flush opts).statements := by
  cases q <;> rfl

/-- A text in which the scanner finds no place to cut is collected as it stands. -/
theorem run_of_firstCut_eq_none (ss : List Text) {current t : Text} {depth : ℤ} {q : Quote}
    (hcut : firstCut depth q t = none) (hcol : Collects current t) :
    ∃ depth' q', (⟨ss, current, depth, q.mode⟩ : Splitter Char).run opts t
      = ⟨ss, current ++ t, depth', Quote.mode q'⟩ := by
  induction t generalizing current depth q with
  | nil => exact ⟨depth, q, by rw [List.append_nil]; rfl⟩
  | cons c s ih =>
    rw [Splitter.run]
    rcases read_cases opts ss depth q hcol with
      ⟨depth', q', hfirst, hread⟩ | ⟨-, hfirst, -⟩ | ⟨-, s', -, hfirst, -⟩ | ⟨-, -, hfirst, -⟩
    · have hcol' : Collects (current ++ [c]) s := by simpa [Collects] using hcol
      rw [hfirst] at hcut
      obtain ⟨depth'', q'', hrun⟩ := ih hcut hcol'
      exact ⟨depth'', q'', by rw [hread, hrun, List.append_assoc]; rfl⟩
    all_goals
      rw [hfirst] at hcut
      cases hcut

/-- Up to the first place to cut the text is collected, and then it becomes a statement. Behind a
`;` or a placeholder the scanner goes on as at the beginning. -/
theorem run_of_firstCut_eq_some (ss : List Text) {current t rest : Text} {depth : ℤ} {q : Quote}
    (hcut : firstCut depth q t = some rest) (hcol : Collects current t) :
    let S : Splitter Char := ⟨ss, current, depth, q.mode⟩
    ∃ p, t = p ++ rest ∧
      (strip (current ++ p) ≠ [] →
        ss ++ [strip (current ++ p)] <+: (S.run opts t).finish opts) ∧
      (((∃ p' c, p = p' ++ [c] ∧ ¬ isSpace c) ∧ S.run opts t
          = (⟨ss ++ [strip (current ++ p)], [], 0, .code⟩ : Splitter Char).run opts rest) ∨
        ∃ s, rest = '/' :: s ∧ (s.head? = some '/' ∨ s.head? = some '*')) := by
  intro S
  induction t generalizing current depth q with
  | nil => exact absurd hcut (by simp [firstCut])
  | cons c s ih =>
    have hrun : S.run opts (c :: s) = (S.read opts c s.head?).run opts s := rfl
    rw [hrun]
    rcases read_cases opts ss depth q hcol with
      ⟨depth', q', hfirst, hread⟩ | ⟨rfl, hfirst, hread⟩ | ⟨rfl, s', rfl, hfirst, hread⟩ |
        ⟨rfl, hhead, hfirst, m, hread⟩
    · have hcol' : Collects (current ++ [c]) s := by simpa [Collects] using hcol
      rw [hfirst] at hcut
      obtain ⟨p, rfl, hgrow, hend⟩ := ih hcut hcol'
      rw [hread]
      refine ⟨c :: p, rfl, ?_⟩
      rw [List.append_assoc] at hgrow hend
      refine ⟨hgrow, hend.imp_left ?_⟩
      rintro ⟨⟨p', d, rfl, hd⟩, heq⟩
      exact ⟨⟨c :: p', d, rfl, hd⟩, heq⟩
    · obtain rfl : s = rest := by simpa [hfirst] using hcut
      rw [hread]
      exact ⟨[';'], rfl, fun _ => finish_run_grows opts ⟨_, _, _, _⟩ s,
        Or.inl ⟨⟨[], ';', rfl, by decide⟩, rfl⟩⟩
    · obtain rfl : s' = rest := by simpa [hfirst] using hcut
      rw [hread]
      exact ⟨['{', '}'], rfl, fun _ => finish_run_grows opts ⟨_, _, _, _⟩ ('}' :: s'),
        Or.inl ⟨⟨['{'], '}', rfl, by decide⟩, rfl⟩⟩
    · obtain rfl : '/' :: s = rest := by simpa [hfirst] using hcut
      refine ⟨[], rfl, ?_, Or.inr ⟨s, rfl, hhead⟩⟩
      intro hne
      rw [List.append_nil] at hne ⊢
      rw [hread, flush_eq opts hcol.notHash hne]
      exact finish_run_grows opts ⟨_, _, _, _⟩ s

variable {blanks s s₂ : Text} (ss L : List Text) (r : Text)

theorem IsStatement.collects (h : IsStatement s) (hblanks : ∀ b ∈ blanks, isSpace b) :
    Collects blanks (s ++ r) :=
  ⟨blanks, s ++ r, rfl, hblanks, h.begins r⟩

/-- A statement is not cut before its first character. -/
theorem IsStatement.not_comment_append (h : IsStatement s) {r u : Text} (hs : s ++ r = '/' :: u) :
    ¬ (u.head? = some '/' ∨ u.head? = some '*') := by
  obtain ⟨c, v, rfl, -⟩ := h.exists_first
  obtain ⟨rfl, rfl⟩ : c = '/' ∧ v ++ r = u := by simpa using hs
  obtain ⟨h₁, h₂⟩ := h.not_comment rfl
  rw [head?_append h.last_ne (Or.inl rfl) r]
  tauto

theorem eq_of_isPrefix {ss L : List Text} {x : Text} (h : ss ++ [x] <+: ss ++ s :: L) : x = s :=
  (List.cons_prefix_cons.mp ((List.prefix_append_right_inj ss).mp h)).1

/-- A statement that is cut early does not come back. -/
theorem finish_run_ne_of_cut (hs : IsStatement s) (hblanks : ∀ b ∈ blanks, isSpace b)
    {rest : Text} (hcut : firstCut 0 .outside s = some rest) (hrest : rest ≠ []) :
    ((⟨ss, blanks, 0, .code⟩ : Splitter Char).run opts (s ++ r)).finish opts ≠ ss ++ s :: L := by
  obtain ⟨p, hp, hgrow, hend⟩ := run_of_firstCut_eq_some opts ss
    ((firstCut_append hs.last_ne r).1 rest hcut) (hs.collects r hblanks)
  obtain rfl : s = p ++ rest := List.append_cancel_right (by rw [hp, List.append_assoc])
  intro heq
  cases p with
  | nil =>
    obtain ⟨⟨p', c, hnil, -⟩, -⟩ | ⟨u, hu, hhead⟩ := hend
    · simp at hnil
    · exact hs.not_comment_append hu hhead
  | cons c p =>
    have hc : ¬ isSpace c := hs.notSpace c rfl
    rw [strip_append_cons hblanks hc p] at hgrow
    have hlen := congrArg List.length (eq_of_isPrefix (heq ▸ hgrow (by simp)))
    have hle := (rstrip_isPrefix p).length_le
    have hpos := List.length_pos_of_ne_nil hrest
    simp only [List.cons_append, List.length_cons, List.length_append] at hlen
    omega

/-- A statement that is not cut and is followed by another does not come back. -/
theorem finish_run_ne_of_no_cut (hs : IsStatement s) (hs₂ : IsStatement s₂)
    (hblanks : ∀ b ∈ blanks, isSpace b) (hcut : firstCut 0 .outside s = none) :
    ((⟨ss, blanks, 0, .code⟩ : Splitter Char).run opts (s ++ '\n' :: (s₂ ++ r))).finish opts
      ≠ ss ++ s :: s₂ :: L := by
  obtain ⟨depth', q', happend⟩ := (firstCut_append hs.last_ne ('\n' :: (s₂ ++ r))).2 hcut
  have hcol := hs.collects ('\n' :: (s₂ ++ r)) hblanks
  intro heq
  cases hfirst : firstCut 0 .outside (s ++ '\n' :: (s₂ ++ r)) with
  | none =>
    -- everything becomes one statement
    obtain ⟨depth'', q'', hrun⟩ := run_of_firstCut_eq_none opts ss hfirst hcol
    have hcol' : Collects (blanks ++ (s ++ '\n' :: (s₂ ++ r))) [] := by
      simpa [Collects] using hcol
    have hne : strip (blanks ++ (s ++ '\n' :: (s₂ ++ r))) ≠ [] := by
      obtain ⟨c, u, rfl, hc, -⟩ := hs.exists_first
      rw [List.cons_append, strip_append_cons hblanks hc]
      simp
    have hmode : (⟨ss, blanks, 0, .code⟩ : Splitter Char) = ⟨ss, blanks, 0, Quote.outside.mode⟩ :=
      rfl
    rw [hmode, hrun, finish_mode, flush_eq opts hcol'.notHash hne] at heq
    simpa using congrArg List.length heq
  | some rest =>
    obtain ⟨p, hp, hgrow, hend⟩ := run_of_firstCut_eq_some opts ss hfirst hcol
    obtain ⟨p', hp'⟩ := firstCut_cons_isSuffix (by decide) (happend ▸ hfirst)
    obtain rfl : p = s ++ '\n' :: p' := by
      rw [← hp', ← List.cons_append, ← List.append_assoc] at hp
      exact (List.append_cancel_right hp).symm
    -- the line break and something visible behind it belong to the first statement
    obtain ⟨a, d, b, rfl, hd⟩ : ∃ a d b, p' = a ++ d :: b ∧ ¬ isSpace d := by
      obtain ⟨⟨p'', c, hc, hspace⟩, -⟩ | ⟨u, rfl, hhead⟩ := hend
      · rcases List.eq_nil_or_concat' p' with rfl | ⟨a, d, rfl⟩
        · obtain rfl : '\n' = c := by simpa using (List.append_inj' hc rfl).2
          exact absurd (by decide) hspace
        · have hcd : s ++ '\n' :: a ++ [d] = p'' ++ [c] := by simpa using hc
          obtain rfl : d = c := by simpa using (List.append_inj' hcd rfl).2
          exact ⟨a, d, [], rfl, hspace⟩
      · cases p' with
        | nil => exact absurd hhead (hs₂.not_comment_append hp'.symm)
        | cons d b =>
          obtain ⟨c, v, rfl, hc, -⟩ := hs₂.exists_first
          obtain ⟨rfl, -⟩ : d = c ∧ _ := by simpa only [List.cons_append, List.cons.injEq] using hp'
          exact ⟨[], d, b, rfl, hc⟩
    obtain ⟨c, u, rfl, hc, -⟩ := hs.exists_first
    have hstrip : strip (blanks ++ (c :: u ++ '\n' :: (a ++ d :: b)))
        = c :: (u ++ '\n' :: a ++ d :: rstrip b) := by
      rw [List.cons_append, strip_append_cons hblanks hc, ← rstrip_append_cons hd,
        List.append_assoc, List.cons_append]
    rw [hstrip] at hgrow
    have hlen := congrArg List.length (eq_of_isPrefix (heq ▸ hgrow (by simp)))
    simp only [List.length_append, List.length_cons] at hlen
    omega

/-- A statement that is cut at its end comes back, and the scanner goes on behind it. -/
theorem run_of_cutsAtEnd (hs : IsStatement s) (hblanks : ∀ b ∈ blanks, isSpace b)
    (hcut : CutsAtEnd s) (hr : r.head? ≠ some '/') :
    (⟨ss, blanks, 0, .code⟩ : Splitter Char).run opts (s ++ r)
      = (⟨ss ++ [s], [], 0, .code⟩ : Splitter Char).run opts r := by
  obtain ⟨p, hp, -, ⟨-, hrun⟩ | ⟨u, rfl, -⟩⟩ := run_of_firstCut_eq_some opts ss
    ((firstCut_append hs.last_ne r).1 [] hcut) (hs.collects r hblanks)
  · obtain rfl : s = p := List.append_cancel_right hp
    rw [hs.strip_append hblanks] at hrun
    exact hrun
  · simp at hr

/-- The last statement comes back unless it is cut early. -/
theorem finish_run_last_iff (hs : IsStatement s) (hblanks : ∀ b ∈ blanks, isSpace b) :
    ((⟨ss, blanks, 0, .code⟩ : Splitter Char).run opts s).finish opts = ss ++ [s] ↔
      NotCutBefore s := by
  have hcol := hs.collects [] hblanks
  rw [List.append_nil] at hcol
  have hstrip := hs.strip_append hblanks
  have hne : strip (blanks ++ s) ≠ [] := by
    obtain ⟨c, u, rfl, -⟩ := hs.exists_first
    rw [hstrip]
    simp
  cases hcut : firstCut 0 .outside s with
  | none =>
    refine iff_of_true ?_ (fun rest h => by rw [hcut] at h; cases h)
    obtain ⟨depth', q', hrun⟩ := run_of_firstCut_eq_none opts ss hcut hcol
    have hcol' : Collects (blanks ++ s) [] := by simpa [Collects] using hcol
    have hmode : (⟨ss, blanks, 0, .code⟩ : Splitter Char) = ⟨ss, blanks, 0, Quote.outside.mode⟩ :=
      rfl
    rw [hmode, hrun, finish_mode, flush_eq opts hcol'.notHash hne, ← hstrip]
    simp [hstrip]
  | some rest =>
    by_cases hrest : rest = []
    · subst hrest
      have hrun := run_of_cutsAtEnd opts ss [] hs hblanks hcut (by simp)
      rw [List.append_nil] at hrun
      refine iff_of_true (by rw [hrun]; rfl) ?_
      intro rest hrest
      rw [hcut] at hrest
      exact (Option.some.inj hrest).symm
    · have hrun := finish_run_ne_of_cut opts ss [] [] hs hblanks hcut hrest
      rw [List.append_nil] at hrun
      exact iff_of_false hrun (fun h => hrest (h rest hcut))

/-- The induction behind `parseStatements_join_iff`: `blanks` is the line break before the first
statement. -/
theorem finish_run_join_iff (hL : ∀ s ∈ L, IsStatement s) (hblanks : ∀ b ∈ blanks, isSpace b) :
    ((⟨ss, blanks, 0, .code⟩ : Splitter Char).run opts (['\n'].intercalate L)).finish opts
      = ss ++ L ↔ SplitsBack L := by
  induction L generalizing ss blanks with
  | nil =>
    refine iff_of_true ?_ ⟨by simp, by simp⟩
    show ((⟨ss, blanks, 0, .code⟩ : Splitter Char).flush opts).statements = ss ++ []
    simp [Splitter.flush, Splitter.addStatement, strip_blanks hblanks]
  | cons s L ih =>
    have hs := hL s List.mem_cons_self
    cases L with
    | nil =>
      rw [List.intercalate_singleton, finish_run_last_iff opts ss hs hblanks]
      simp [SplitsBack]
    | cons s₂ L =>
      have hs₂ := hL s₂ (by simp)
      obtain ⟨r, hr⟩ : ∃ r, ['\n'].intercalate (s₂ :: L) = s₂ ++ r := by
        cases L with
        | nil => exact ⟨[], by simp⟩
        | cons s₃ L => exact ⟨_, by rw [List.intercalate_cons_cons, List.append_assoc]⟩
      have hjoin : ['\n'].intercalate (s :: s₂ :: L) = s ++ '\n' :: (s₂ ++ r) := by
        rw [List.intercalate_cons_cons, hr, List.append_assoc]
        rfl
      have hiff : SplitsBack (s :: s₂ :: L) ↔ CutsAtEnd s ∧ SplitsBack (s₂ :: L) := by
        simp [SplitsBack, and_assoc]
      rw [hjoin, hiff]
      cases hcut : firstCut 0 .outside s with
      | none =>
        exact iff_of_false (finish_run_ne_of_no_cut opts ss L r hs hs₂ hblanks hcut)
          (fun h => by simp [CutsAtEnd, hcut] at h)
      | some rest =>
        by_cases hrest : rest = []
        · subst hrest
          -- the line break is a blank before the next statement
          have hbreak : (⟨ss ++ [s], [], 0, .code⟩ : Splitter Char).run opts ('\n' :: (s₂ ++ r))
              = (⟨ss ++ [s], ['\n'], 0, .code⟩ : Splitter Char).run opts (s₂ ++ r) := rfl
          have hblank : ∀ b ∈ ['\n'], isSpace b := by decide
          have hrest := ih (ss ++ [s]) (fun s hs => hL s (List.mem_cons_of_mem _ hs)) hblank
          rw [run_of_cutsAtEnd opts ss _ hs hblanks hcut (by simp), hbreak, ← hr,
            List.append_cons ss s (s₂ :: L), hrest]
          exact (and_iff_right hcut).symm
        · exact iff_of_false (finish_run_ne_of_cut opts ss _ _ hs hblanks hcut hrest)
            (fun h => hrest (Option.some.inj (hcut.symm.trans h.1)))

end FirstCut

/-- **The exact condition under which a list of statements comes back**: in every statement the
first place that the scanner takes for an end is the end of the statement; in the last statement it
may also see no such place. -/
theorem parseStatements_join_iff (opts : Includes) (L : List Text) (hL : ∀ s ∈ L, IsStatement s) :
    parseStatements opts (['\n'].intercalate L) = L ↔ SplitsBack L :=
  finish_run_join_iff opts [] L hL (List.forall_mem_nil _)

/-- A placeholder in a literal and a literal in the parentheses of a header do no harm. -/
theorem parseStatements_join_iff_loop :
    parseStatements {} (['\n'].intercalate
        [lit "s = \";{}\";", lit "while (f(\"a\")) {}", lit "x++;"])
      = [lit "s = \";{}\";", lit "while (f(\"a\")) {}", lit "x++;"] :=
  (parseStatements_join_iff {} _ (by decide +kernel)).mpr (by decide +kernel)

/-- A parenthesis in a literal that is an argument keeps its statement open. -/
theorem parseStatements_join_ne :
    ¬ ∀ (opts : Includes) (L : List Text), (∀ s ∈ L, IsStatement s) →
      parseStatements opts (['\n'].intercalate L) = L := by
  intro h
  have hL : ∀ s ∈ [lit "printf(\"(\");", lit "x++;"], IsStatement s := by decide +kernel
  have hne : parseStatements {} (['\n'].intercalate [lit "printf(\"(\");", lit "x++;"])
      ≠ [lit "printf(\"(\");", lit "x++;"] := by decide +kernel
  exact hne (h {} _ hL)

end Csc512
