import Csc512.Cdup.CleanText
import Csc512.Cdup.SourcePlaces

/-!
# Comments and the splitter

The splitter ends the current statement at every comment outside parentheses. So a comment changes
nothing at a place of a segment at which a statement ends anyway: a cut. Elsewhere it cuts a
statement in two, and inside parentheses it becomes a part of the statement.

The splitter reads the cleaned text of a segment, so a place of the segment has to be followed
through the cleaning. A comment of the language can also look different to the splitter than to the
scanner of braces: a block comment whose text begins with a slash ends there, and every line break
of the cleaning ends a line comment.

## Main results

* `Splitter.Quiet.comment` — reading a comment is ending the current statement
* `IsCut.parseStatements` — the statements of a segment with a cut
* `parseStatements_comment` — a comment at a cut leaves the statements alone
-/

namespace Csc512

namespace Splitter

variable (opts : Includes)

/-! ### Reading up to a place -/

/-- Read a text with the character `next` behind it. -/
def runTo (S : Splitter Char) : Text → Option Char → Splitter Char
  | [], _ => S
  | c :: s, next => runTo (S.read opts c (s.head?.or next)) s next

variable (S : Splitter Char)

theorem run_append (s t : Text) : S.run opts (s ++ t) = (S.runTo opts s t.head?).run opts t := by
  induction s generalizing S with
  | nil => rfl
  | cons c s ih =>
    have hhead : (s ++ t).head? = s.head?.or t.head? := List.head?_append
    rw [List.cons_append, run, ih, hhead]
    rfl

theorem runTo_append (s t : Text) (next : Option Char) :
    S.runTo opts (s ++ t) next = (S.runTo opts s (t.head?.or next)).runTo opts t next := by
  induction s generalizing S with
  | nil => rfl
  | cons c s ih =>
    have hhead : (s ++ t).head?.or next = s.head?.or (t.head?.or next) := by
      rw [List.head?_append, Option.or_assoc]
    rw [List.cons_append, runTo, ih, hhead]
    rfl

theorem run_eq_runTo (s : Text) : S.run opts s = S.runTo opts s none := by
  have happend := run_append opts S s []
  rwa [List.append_nil] at happend

/-! ### Blanks at the beginning of a statement -/

/-- Two states that differ in the blanks at the beginning of the current statement. -/
structure Similar (S T : Splitter Char) : Prop where
  statements : S.statements = T.statements
  current : lstrip S.current = lstrip T.current
  depth : S.depth = T.depth
  mode : S.mode = T.mode

theorem Similar.refl : Similar S S := ⟨rfl, rfl, rfl, rfl⟩

theorem lstrip_append_congr {a b : Text} (h : lstrip a = lstrip b) (t : Text) :
    lstrip (a ++ t) = lstrip (b ++ t) := by
  have hdrop : a.dropWhile isSpace = b.dropWhile isSpace := h
  show (a ++ t).dropWhile isSpace = (b ++ t).dropWhile isSpace
  rw [List.dropWhile_append, List.dropWhile_append, hdrop]

theorem strip_congr {a b : Text} (h : lstrip a = lstrip b) : strip a = strip b :=
  congrArg rstrip h

/-- Only the trimmed statement is added. -/
theorem flush_congr (ss : List Text) {a b : Text} (h : strip a = strip b) (depth : ℤ)
    (mode : Mode Char) :
    (⟨ss, a, depth, mode⟩ : Splitter Char).flush opts
      = (⟨ss, b, depth, mode⟩ : Splitter Char).flush opts := by
  rw [flush, flush, h, addStatement, addStatement]
  dsimp only
  split_ifs <;> rfl

theorem isDo_congr {a b : Text} (h : strip a = strip b) : isDo a = isDo b := by
  rw [isDo, isDo, h]

theorem Similar.ite {p q : Prop} [Decidable p] [Decidable q] {S T S' T' : Splitter Char}
    (hpq : p ↔ q) (h : Similar S T) (h' : Similar S' T') :
    Similar (if p then S else S') (if q then T else T') := by
  by_cases hp : p
  · rwa [if_pos hp, if_pos (hpq.mp hp)]
  · rwa [if_neg hp, if_neg fun hq => hp (hpq.mpr hq)]

theorem Similar.readCode {S T : Splitter Char} (h : Similar S T) (c : Char) (next : Option Char) :
    Similar (S.readCode opts c next) (T.readCode opts c next) := by
  obtain ⟨ss, a, depth, mode⟩ := S
  obtain ⟨_, b, _, _⟩ := T
  obtain ⟨rfl, hcurrent, rfl, rfl⟩ := h
  have happend : ∀ t, lstrip (a ++ t) = lstrip (b ++ t) := lstrip_append_congr hcurrent
  have hflush : ∀ t, (⟨ss, a ++ t, depth, mode⟩ : Splitter Char).flush opts
      = (⟨ss, b ++ t, depth, mode⟩ : Splitter Char).flush opts :=
    fun t => flush_congr opts ss (strip_congr (happend t)) depth mode
  have hnow : (⟨ss, a, depth, mode⟩ : Splitter Char).flush opts
      = (⟨ss, b, depth, mode⟩ : Splitter Char).flush opts :=
    flush_congr opts ss (strip_congr hcurrent) depth mode
  rw [Splitter.readCode, Splitter.readCode]
  dsimp only
  refine Similar.ite Iff.rfl ⟨rfl, happend [c], rfl, rfl⟩ ?_
  refine Similar.ite Iff.rfl ⟨rfl, happend [c], rfl, rfl⟩ ?_
  refine Similar.ite Iff.rfl (by rw [hnow]; exact Similar.refl _) ?_
  refine Similar.ite Iff.rfl (by rw [hnow]; exact Similar.refl _) ?_
  refine Similar.ite Iff.rfl ⟨rfl, happend [c], rfl, rfl⟩ ?_
  refine Similar.ite Iff.rfl ⟨rfl, happend [c], rfl, rfl⟩ ?_
  refine Similar.ite Iff.rfl ?_ ?_
  · refine Similar.ite (by rw [isDo_congr (strip_congr (happend _))]) ?_ ?_
    · rw [strip_congr (happend _)]
      exact Similar.refl _
    · rw [hflush]
      exact Similar.refl _
  refine Similar.ite Iff.rfl (by rw [hflush]; exact Similar.refl _) ?_
  refine Similar.ite (by rw [strip_congr hcurrent]) (by rw [hnow]; exact Similar.refl _) ?_
  exact ⟨rfl, happend [c], rfl, rfl⟩

theorem Similar.addComment {S T : Splitter Char} (h : Similar S T) (comment : Text) :
    Similar (S.addComment opts comment) (T.addComment opts comment) := by
  obtain ⟨ss, a, depth, mode⟩ := S
  obtain ⟨_, b, _, _⟩ := T
  obtain ⟨rfl, hcurrent, rfl, rfl⟩ := h
  rw [Splitter.addComment, Splitter.addComment]
  exact Similar.ite Iff.rfl ⟨rfl, hcurrent, rfl, rfl⟩ ⟨rfl, hcurrent, rfl, rfl⟩

theorem Similar.addStatement {S T : Splitter Char} (h : Similar S T) (stmt : Text) :
    Similar (S.addStatement opts stmt) (T.addStatement opts stmt) := by
  obtain ⟨ss, a, depth, mode⟩ := S
  obtain ⟨_, b, _, _⟩ := T
  obtain ⟨rfl, hcurrent, rfl, rfl⟩ := h
  have hsame : Similar ⟨ss, a, depth, mode⟩ ⟨ss, b, depth, mode⟩ := ⟨rfl, hcurrent, rfl, rfl⟩
  have hadd : Similar ⟨ss ++ [stmt], a, depth, mode⟩ ⟨ss ++ [stmt], b, depth, mode⟩ :=
    ⟨rfl, hcurrent, rfl, rfl⟩
  rw [Splitter.addStatement, Splitter.addStatement]
  refine Similar.ite Iff.rfl hsame (Similar.ite Iff.rfl ?_ hadd)
  exact Similar.ite Iff.rfl hsame (Similar.ite Iff.rfl hsame hadd)

theorem Similar.addDo {S T : Splitter Char} (h : Similar S T) (pendingDo tail : Text) :
    Similar (S.addDo opts pendingDo tail) (T.addDo opts pendingDo tail) := by
  rw [Splitter.addDo, Splitter.addDo]
  exact Similar.ite Iff.rfl (h.addStatement opts _)
    ((h.addStatement opts _).addStatement opts _)

theorem Similar.withMode {S T : Splitter Char} (h : Similar S T) (mode : Mode Char) :
    Similar { S with mode } { T with mode } :=
  ⟨h.statements, h.current, h.depth, rfl⟩

theorem Similar.withDepth {S T : Splitter Char} (h : Similar S T) (d : ℤ) (mode : Mode Char) :
    Similar { S with depth := S.depth + d, mode } { T with depth := T.depth + d, mode } :=
  ⟨h.statements, h.current, congrArg (· + d) h.depth, rfl⟩

theorem Similar.read {S T : Splitter Char} (h : Similar S T) (c : Char) (next : Option Char) :
    Similar (S.read opts c next) (T.read opts c next) := by
  obtain ⟨ss, a, depth, mode⟩ := S
  obtain ⟨ss', b, depth', mode'⟩ := T
  have hmode : mode = mode' := h.mode
  have hdepth : depth = depth' := h.depth
  subst hmode hdepth
  have happend := lstrip_append_congr h.current [c]
  cases mode with
  | code => exact h.readCode opts c next
  | literal quote =>
    have hS : Similar ⟨ss, a ++ [c], depth, .literal quote⟩ ⟨ss', b ++ [c], depth, .literal quote⟩ :=
      ⟨h.statements, happend, rfl, rfl⟩
    exact Similar.ite Iff.rfl (hS.withMode _) (Similar.ite Iff.rfl (hS.withMode _) hS)
  | escape quote => exact ⟨h.statements, happend, rfl, rfl⟩
  | lineComment comment =>
    exact Similar.ite Iff.rfl (((h.addComment opts comment).withMode .code).readCode opts c next)
      (h.withMode _)
  | blockComment comment =>
    exact Similar.ite Iff.rfl ((h.addComment opts _).withMode _) (h.withMode _)
  | doTail pendingDo tail =>
    refine Similar.ite Iff.rfl (h.withDepth 1 _) ?_
    refine Similar.ite Iff.rfl (h.withDepth (-1) _) ?_
    exact Similar.ite Iff.rfl ((h.addDo opts _ _).withMode _) (h.withMode _)
  | skip next => exact h.withMode next

theorem Similar.run {S T : Splitter Char} (h : Similar S T) (s : Text) :
    Similar (S.run opts s) (T.run opts s) := by
  induction s generalizing S T with
  | nil => exact h
  | cons c s ih => exact ih (h.read opts c s.head?)

theorem Similar.flush {S T : Splitter Char} (h : Similar S T) : S.flush opts = T.flush opts := by
  obtain ⟨ss, a, depth, mode⟩ := S
  obtain ⟨_, b, _, _⟩ := T
  obtain ⟨rfl, hcurrent, rfl, rfl⟩ := h
  exact flush_congr opts ss (strip_congr hcurrent) depth mode

/-- The blanks at the beginning of a statement do not show. -/
theorem Similar.finish {S T : Splitter Char} (h : Similar S T) :
    S.finish opts = T.finish opts := by
  obtain ⟨ss, a, depth, mode⟩ := S
  obtain ⟨ss', b, depth', mode'⟩ := T
  have hmode : mode = mode' := h.mode
  subst hmode
  cases mode with
  | lineComment comment => exact congrArg Splitter.statements ((h.addComment opts comment).flush opts)
  | blockComment comment => exact congrArg Splitter.statements ((h.addComment opts comment).flush opts)
  | doTail pendingDo tail =>
    exact congrArg Splitter.statements ((h.addDo opts pendingDo tail).flush opts)
  | _ => exact congrArg Splitter.statements (h.flush opts)

/-! ### Blanks outside statements -/

/-- The splitter is outside literals, comments and parentheses. -/
def Quiet (S : Splitter Char) : Prop := S.mode = .code ∧ S.depth = 0

variable {S}

theorem Quiet.eq (h : S.Quiet) : S = ⟨S.statements, S.current, 0, .code⟩ := by
  obtain ⟨ss, a, depth, mode⟩ := S
  obtain ⟨rfl, rfl⟩ := h
  rfl

theorem addStatement_depth (S : Splitter Char) (stmt : Text) :
    (S.addStatement opts stmt).depth = S.depth := by
  rw [addStatement]
  dsimp only
  split_ifs <;> rfl

theorem addStatement_nil (S : Splitter Char) : S.addStatement opts [] = S := rfl

theorem Quiet.flush (h : S.Quiet) : (S.flush opts).Quiet :=
  ⟨(flush_mode opts S).trans h.1, (addStatement_depth opts S _).trans h.2⟩

theorem flush_flush (S : Splitter Char) : (S.flush opts).flush opts = S.flush opts := by
  show { (S.flush opts).addStatement opts [] with current := [] } = S.flush opts
  rw [addStatement_nil]
  rfl

/-- A white space is none of the marks. -/
theorem ne_of_isSpace {c d : Char} (hc : isSpace c) (hd : isSpace d = false) :
    Glyph.char c ≠ d := by
  rintro rfl
  rw [show isSpace (Glyph.char c) = true from hc] at hd
  cases hd

/-- A white space outside statements is kept, or it ends a preprocessor line. -/
theorem Quiet.read_space (h : S.Quiet) {c : Char} (hc : isSpace c) (next : Option Char) :
    S.read opts c next = { S with current := S.current ++ [c] } ∨
      c = '\n' ∧ S.read opts c next = S.flush opts := by
  obtain ⟨ss, a, depth, mode⟩ := S
  obtain ⟨rfl, rfl⟩ := h
  have hne : ∀ d, isSpace d = false → Glyph.char c ≠ d := fun d => ne_of_isSpace hc
  show Splitter.readCode opts _ c next = _ ∨ c = '\n' ∧ Splitter.readCode opts _ c next = _
  rw [Splitter.readCode]
  dsimp only
  rw [if_neg fun h => hne '"' rfl h.1, if_neg fun h => hne '\'' rfl h.1,
    if_neg fun h => hne '/' rfl h.1, if_neg fun h => hne '/' rfl h.1,
    if_neg (hne '(' rfl), if_neg (hne ')' rfl), if_neg fun h => hne '{' rfl h.1,
    if_neg fun h => hne ';' rfl h.1]
  split_ifs with hline
  · exact Or.inr ⟨hline.1, rfl⟩
  · exact Or.inl rfl

theorem Quiet.blank (h : S.Quiet) {c : Char} (hc : isSpace c) (next : Option Char) :
    (S.read opts c next).Quiet ∧ (S.read opts c next).flush opts = S.flush opts ∧
      (strip S.current = [] → strip (S.read opts c next).current = []) := by
  rcases h.read_space opts hc next with hread | ⟨-, hread⟩
  · rw [hread]
    refine ⟨h, ?_, fun hblank => ?_⟩
    · rw [h.eq]
      exact flush_congr opts _ (strip_append_space _ hc) _ _
    · exact (strip_append_space _ hc).trans hblank
  · rw [hread]
    exact ⟨h.flush opts, flush_flush opts S, fun _ => rfl⟩

/-- Blanks outside statements. -/
theorem Quiet.blanks (h : S.Quiet) {s : Text} (hs : ∀ c ∈ s, isSpace c) (next : Option Char) :
    (S.runTo opts s next).Quiet ∧ (S.runTo opts s next).flush opts = S.flush opts ∧
      (strip S.current = [] → strip (S.runTo opts s next).current = []) := by
  induction s generalizing S with
  | nil => exact ⟨h, rfl, fun hblank => hblank⟩
  | cons c s ih =>
    obtain ⟨hc, hs⟩ := List.forall_mem_cons.mp hs
    obtain ⟨hquiet, hflush, hblank⟩ := h.blank opts hc (s.head?.or next)
    obtain ⟨hquiet', hflush', hblank'⟩ := ih hquiet hs
    exact ⟨hquiet', hflush'.trans hflush, fun h => hblank' (hblank h)⟩

/-- With no statement begun, the cut does nothing but forget blanks. -/
theorem similar_flush (hblank : strip S.current = []) :
    Similar S (S.flush opts) := by
  have hflush : S.flush opts = { S with current := [] } := by
    rw [Splitter.flush, hblank, addStatement_nil]
  rw [hflush]
  exact ⟨rfl, lstrip_eq_nil hblank, rfl, rfl⟩

/-- A state outside statements is finished by a cut. -/
theorem Quiet.finish (h : S.Quiet) : S.finish opts = (S.flush opts).statements := by
  rw [Splitter.finish, h.1]

/-! ### Reading a comment -/

/-- Begin a comment outside statements: the current statement ends. -/
theorem Quiet.read_slash (h : S.Quiet) {d : Char} (hd : d = '/' ∨ d = '*') :
    S.read opts '/' (some d) = { S.flush opts with
      mode := if d = '/' then .lineComment ['/'] else .blockComment ['/'] } := by
  obtain ⟨ss, a, depth, mode⟩ := S
  obtain ⟨rfl, rfl⟩ := h
  show Splitter.readCode opts _ '/' (some d) = _
  rw [Splitter.readCode]
  rcases hd with rfl | rfl
  · rfl
  · rfl

theorem runTo_lineComment (S : Splitter Char) (comment : Text) {s : Text} (hs : ∀ c ∈ s, c ≠ '\n')
    (next : Option Char) :
    ∃ comment', ({ S with mode := .lineComment comment } : Splitter Char).runTo opts s next
      = { S with mode := .lineComment comment' } := by
  induction s generalizing comment with
  | nil => exact ⟨comment, rfl⟩
  | cons c s ih =>
    obtain ⟨hc, hs⟩ := List.forall_mem_cons.mp hs
    obtain ⟨comment', hrun⟩ := ih (comment ++ [c]) hs
    refine ⟨comment', Eq.trans ?_ hrun⟩
    rw [runTo]
    congr 1
    exact if_neg hc

theorem runTo_blockComment (S : Splitter Char) (comment : Text) {s : Text} {next : Char}
    (hs : ¬ ['*', '/'] <:+: s ++ [next]) :
    ∃ comment', ({ S with mode := .blockComment comment } : Splitter Char).runTo opts s (some next)
      = { S with mode := .blockComment comment' } := by
  induction s generalizing comment with
  | nil => exact ⟨comment, rfl⟩
  | cons c s ih =>
    have htail : ¬ ['*', '/'] <:+: s ++ [next] := fun h => hs (h.trans (List.suffix_cons c _).isInfix)
    obtain ⟨comment', hrun⟩ := ih (comment ++ [c]) htail
    refine ⟨comment', Eq.trans ?_ hrun⟩
    rw [runTo]
    congr 1
    refine if_neg fun h => hs ?_
    obtain ⟨hc, hnext⟩ := h
    obtain rfl : c = '*' := hc
    cases s with
    | nil =>
      obtain rfl : next = '/' := Option.some.inj hnext
      exact List.infix_rfl
    | cons d s =>
      obtain rfl : d = '/' := Option.some.inj hnext
      exact ⟨[], s ++ [next], rfl⟩

variable {opts} in
theorem addComment_eq (hopts : opts.comments = false) (S : Splitter Char) (comment : Text) :
    S.addComment opts comment = S := by
  rw [addComment, if_neg fun h => by simp [hopts] at h]

variable {opts} in
/-- A block comment outside statements ends the current statement and nothing else. -/
theorem Quiet.block (h : S.Quiet) (hopts : opts.comments = false) {s : Text}
    (hs : ¬ ['*', '/'] <:+: '*' :: s ++ ['*']) (next : Option Char) :
    S.runTo opts ('/' :: '*' :: s ++ ['*', '/']) next = S.flush opts := by
  have hread := h.read_slash opts (Or.inr rfl : '*' = '/' ∨ '*' = '*')
  obtain ⟨comment', hrun⟩ := runTo_blockComment opts (S.flush opts) ['/'] hs
  have hmode : (S.flush opts).mode = .code := (h.flush opts).1
  have hsplit : S.runTo opts ('/' :: '*' :: s ++ ['*', '/']) next
      = ((S.read opts '/' (some '*')).runTo opts ('*' :: s) (some '*')).runTo opts ['*', '/'] next :=
    runTo_append opts (S.read opts '/' (some '*')) ('*' :: s) ['*', '/'] next
  rw [hsplit, hread, if_neg (by decide), hrun]
  -- the star and the slash that end the comment
  show ({ ({ S.flush opts with mode := .blockComment comment' } : Splitter Char).addComment opts
    (comment' ++ ['*', '/']) with mode := .code } : Splitter Char) = S.flush opts
  rw [addComment_eq hopts, ← hmode]

/-- A line comment outside statements ends the current statement. -/
theorem Quiet.line (h : S.Quiet) {s : Text} (hs : ∀ c ∈ s, c ≠ '\n') (next : Option Char) :
    ∃ comment, S.runTo opts ('/' :: '/' :: s) next
      = { S.flush opts with mode := .lineComment comment } := by
  have hread := h.read_slash opts (Or.inl rfl : '/' = '/' ∨ '/' = '*')
  obtain ⟨comment', hrun⟩ := runTo_lineComment opts (S.flush opts) ['/']
    (List.forall_mem_cons.mpr ⟨by decide, hs⟩ : ∀ c ∈ '/' :: s, c ≠ '\n') next
  refine ⟨comment', Eq.trans ?_ hrun⟩
  show (S.read opts '/' (some '/')).runTo opts ('/' :: s) next = _
  rw [hread, if_pos rfl]

variable {opts} in
/-- The end of a line comment. -/
theorem Quiet.lineEnd (h : S.Quiet) (hopts : opts.comments = false) (comment : Text)
    (next : Option Char) :
    ({ S with mode := .lineComment comment } : Splitter Char).read opts '\n' next
      = S.read opts '\n' next := by
  have hcode : S = { S with mode := .code } := by
    rw [← h.1]
  show ({ ({ S with mode := .lineComment comment } : Splitter Char).addComment opts comment with
    mode := .code } : Splitter Char).readCode opts '\n' next = S.read opts '\n' next
  rw [addComment_eq hopts, hcode]
  rfl

end Splitter

/-! ### Comments -/

/-- A block comment around a text. -/
def blockComment (body : Text) : Text := '/' :: '*' :: body ++ ['*', '/']

/-- A line comment with a text, and its line break. -/
def lineComment (body : Text) : Text := '/' :: '/' :: body ++ ['\n']

/-- The comments of the language. -/
inductive IsComment : Text → Prop
  | block (body : Text) (h : ¬ ['*', '/'] <:+: body ++ ['*']) : IsComment (blockComment body)
  | line (body : Text) (h : ∀ c ∈ body, c ≠ '\n') : IsComment (lineComment body)

/-- The comments that both scanners see alike: the text of a block comment does not begin with a
slash, and that of a line comment has no line break of another kind. -/
inductive IsPlainComment : Text → Prop
  | block (body : Text) (h : ¬ ['*', '/'] <:+: '*' :: body ++ ['*']) :
    IsPlainComment (blockComment body)
  | line (body : Text) (h : ∀ c ∈ body, ¬ isLineBreak c) : IsPlainComment (lineComment body)

theorem cleanSegment_slash {c : Char} (hc : ¬ isSpace c) (s : Text) :
    ∃ t, cleanSegment ('/' :: c :: s) = '/' :: c :: t := by
  obtain ⟨t, ht⟩ := exists_cleanSegment_cons hc s
  refine ⟨t, ?_⟩
  rw [← ht]
  exact cleanSegment_append ['/'] hc s

/-- A cleaned block comment is a block comment. -/
theorem cleanSegment_blockComment {body : Text} (h : ¬ ['*', '/'] <:+: '*' :: body ++ ['*']) :
    ∃ s, ¬ ['*', '/'] <:+: '*' :: s ++ ['*'] ∧
      cleanSegment (blockComment body) = '/' :: '*' :: s ++ ['*', '/'] ∧
      cleanedSoFar (blockComment body) = cleanSegment (blockComment body) := by
  have hsplit : blockComment body = ('/' :: '*' :: body ++ ['*']) ++ ['/'] := by
    simp [blockComment]
  have hslash : ¬ isSpace '/' := by decide
  have hstar : ¬ isSpace '*' := by decide
  obtain ⟨hsame, hend⟩ := cleanedSoFar_concat ('/' :: '*' :: body ++ ['*']) hslash
  obtain ⟨hsame', hend'⟩ := cleanedSoFar_concat ('*' :: body) hstar
  obtain ⟨s, hs⟩ := exists_cleanSegment_cons hstar body
  have hbody : cleanedSoFar ('*' :: body) = '*' :: (s ++ (({} : Cleaner).run ('*' :: body)).gap) := by
    rw [cleanedSoFar_eq, hs, List.cons_append]
  have hinner : cleanedSoFar ('/' :: '*' :: body ++ ['*'])
      = '/' :: cleanSegment ('*' :: body ++ ['*']) := by
    rw [← hsame']
    exact cleanedSoFar_append ['/'] hstar (body ++ ['*'])
  refine ⟨s ++ (({} : Cleaner).run ('*' :: body)).gap, fun hadjacent => h ?_, ?_, ?_⟩
  · rw [← hbody, ← hend'] at hadjacent
    exact isInfix_of_cleanSegment hstar hslash hadjacent
  · rw [hsplit, hend, hinner, hend', hbody]
    simp
  · rw [hsplit, hsame]

/-- A cleaned line comment is one line. -/
theorem cleanSegment_lineComment {body : Text} (h : ∀ c ∈ body, ¬ isLineBreak c) :
    ∃ s, (∀ c ∈ s, c ≠ '\n') ∧ cleanSegment ('/' :: '/' :: body) = '/' :: '/' :: s := by
  obtain ⟨s, hs⟩ := cleanSegment_slash (by decide : ¬ isSpace '/') body
  have hline : ∀ c ∈ '/' :: '/' :: body, ¬ isLineBreak c :=
    List.forall_mem_cons.mpr ⟨by decide, List.forall_mem_cons.mpr ⟨by decide, h⟩⟩
  have hout := (Cleaner.run_of_inline hline).1
  rw [← cleanSegment_eq, hs] at hout
  exact ⟨s, fun c hc => hout c (by simp [hc]), hs⟩

namespace Splitter

variable {opts : Includes} {S : Splitter Char}

/-- **Reading a comment** outside statements is ending the current statement. -/
theorem Quiet.comment (h : S.Quiet) (hopts : opts.comments = false) {k : Text}
    (hk : IsPlainComment k) (rest : Text) :
    (S.run opts (cleanSegment (k ++ rest))).finish opts
      = ((S.flush opts).run opts (cleanSegment rest)).finish opts := by
  have hflush := h.flush opts
  have hagain : ∀ {T : Splitter Char}, T.Quiet → T.flush opts = S.flush opts →
      strip T.current = [] →
      ∀ s, (T.run opts s).finish opts = ((S.flush opts).run opts s).finish opts := by
    intro T hT hTflush hblank s
    rw [← hTflush]
    exact ((similar_flush opts hblank).run opts s).finish opts
  rcases blank_or_ink rest with hblanks | ⟨blanks, c, t, rfl, hblanks, hc⟩
  · -- nothing stands behind the comment
    have hrest : cleanSegment rest = [] := by
      have hclean := cleanSegment_append_blanks [] hblanks
      exact hclean
    rw [hrest, cleanSegment_append_blanks k hblanks]
    cases hk with
    | block body hbody =>
      obtain ⟨s, hs, hclean, -⟩ := cleanSegment_blockComment hbody
      rw [hclean, run_eq_runTo, h.block hopts hs]
      rfl
    | line body hbody =>
      obtain ⟨s, hs, hclean⟩ := cleanSegment_lineComment hbody
      have hbreak : ∀ c ∈ ['\n'], isSpace c := by decide
      rw [lineComment, cleanSegment_append_blanks _ hbreak, hclean, run_eq_runTo]
      obtain ⟨comment, hrun⟩ := h.line opts hs none
      rw [hrun]
      show ((({ S.flush opts with mode := .lineComment comment } : Splitter Char).addComment opts
        comment).flush opts).statements = (S.flush opts).finish opts
      rw [addComment_eq hopts, hflush.finish, flush_flush]
      rfl
  · have hrest : cleanSegment (blanks ++ c :: t) = cleanSegment (c :: t) := by
      rw [cleanSegment_append _ hc, cleanedSoFar_blanks hblanks, List.nil_append]
    have hsoFar := cleanedSoFar_eq (k ++ blanks)
    rw [cleanSegment_append_blanks k hblanks] at hsoFar
    rw [hrest, ← List.append_assoc, cleanSegment_append _ hc, run_append, hsoFar, runTo_append]
    have hgap := (Cleaner.keeps_run (k ++ blanks)).isSpace_gap
    cases hk with
    | block body hbody =>
      obtain ⟨s, hs, hclean, -⟩ := cleanSegment_blockComment hbody
      rw [hclean, h.block hopts hs]
      obtain ⟨hquiet, hsame, hblank⟩ := hflush.blanks opts hgap (cleanSegment (c :: t)).head?
      exact hagain hquiet (hsame.trans (flush_flush opts S)) (hblank rfl) _
    | line body hbody =>
      obtain ⟨s, hs, hclean⟩ := cleanSegment_lineComment hbody
      have hbreak : ∀ c ∈ ['\n'], isSpace c := by decide
      have hend : (({} : Cleaner).run (lineComment body ++ blanks)).gap = ['\n'] := by
        have hout : (({} : Cleaner).run ('/' :: '/' :: body)).out ≠ [] := by
          rw [← cleanSegment_eq, hclean]
          exact List.cons_ne_nil _ _
        have hread : ((({} : Cleaner).run ('/' :: '/' :: body)).read '\n').gap = ['\n'] := by
          rw [Cleaner.read, if_pos (by decide)]
          exact if_neg (by rwa [List.isEmpty_iff])
        rw [lineComment, Cleaner.run_append, Cleaner.run_append]
        exact Cleaner.gap_run_of_break (Cleaner.read_out_ne_nil hout _) hread hblanks
      rw [hend, lineComment, cleanSegment_append_blanks _ hbreak, hclean]
      obtain ⟨comment, hrun⟩ := h.line opts hs (['\n'].head?.or (cleanSegment (c :: t)).head?)
      rw [hrun]
      have hread := hflush.lineEnd hopts comment (cleanSegment (c :: t)).head?
      obtain ⟨hquiet, hsame, hblank⟩ := hflush.blank opts (by decide : isSpace '\n')
        (cleanSegment (c :: t)).head?
      rw [← hread] at hquiet hsame hblank
      exact hagain hquiet (hsame.trans (flush_flush opts S)) (hblank rfl) _

/-! ### What stands behind a character -/

/-- The marks inside a mode are visible, and only one character is ever skipped. -/
def IsProper : Mode Char → Prop
  | .literal quote => ¬ isSpace quote
  | .escape quote => ¬ isSpace quote
  | .skip next => next = .code ∨ ∃ pendingDo tail, next = .doTail pendingDo tail
  | _ => True

/-- What holds of the states that the splitter reaches. -/
structure Proper (S : Splitter Char) : Prop where
  mode : IsProper S.mode
  current : ∀ comment, S.mode = .lineComment comment → S.current = []

theorem proper_code {S : Splitter Char} (h : S.mode = .code) : S.Proper := by
  refine ⟨?_, fun comment hc => ?_⟩
  · rw [h]
    trivial
  · rw [h] at hc
    cases hc

theorem readCode_proper (hmode : S.mode = .code) (c : Char) (next : Option Char) :
    (S.readCode opts c next).Proper := by
  have hflush : ∀ current, ({ S with current := current }.flush opts).mode = .code :=
    fun current => (flush_mode opts _).trans hmode
  have hquotes : ∀ quote ∈ ['"', '\''], ¬ isSpace quote := by decide
  refine readCode_cases opts S c next ?literal ?lineComment ?blockComment ?opening ?closing ?doBlock
    ?block ?semicolon ?directive ?other
  case literal => exact fun quote hquote _ _ => ⟨hquotes quote hquote, nofun⟩
  case lineComment => exact fun _ _ _ => ⟨trivial, fun _ _ => rfl⟩
  case blockComment => exact fun _ _ _ => ⟨trivial, nofun⟩
  case opening => exact fun _ => proper_code hmode
  case closing => exact fun _ => proper_code hmode
  case doBlock => exact fun _ _ _ _ => ⟨Or.inr ⟨_, _, rfl⟩, nofun⟩
  case block => exact fun _ _ _ _ => ⟨Or.inl rfl, nofun⟩
  case semicolon => exact fun _ _ => proper_code (hflush _)
  case directive => exact fun _ => proper_code (hflush _)
  case other => exact fun _ _ _ => proper_code hmode

theorem Proper.read (h : S.Proper) (c : Char) (next : Option Char) :
    (S.read opts c next).Proper := by
  obtain ⟨ss, a, depth, mode⟩ := S
  cases mode with
  | code => exact readCode_proper rfl c next
  | literal quote =>
    have hquote : ¬ isSpace quote := h.mode
    exact iteInduction (fun _ => ⟨hquote, nofun⟩) fun _ =>
      iteInduction (fun _ => proper_code rfl) fun _ => ⟨hquote, nofun⟩
  | escape quote => exact ⟨h.mode, nofun⟩
  | lineComment comment =>
    exact iteInduction (fun _ => readCode_proper rfl c next)
      fun _ => ⟨trivial, fun _ _ => h.current comment rfl⟩
  | blockComment comment =>
    exact iteInduction (fun _ => ⟨Or.inl rfl, nofun⟩) fun _ => ⟨trivial, nofun⟩
  | doTail pendingDo tail =>
    refine iteInduction (fun _ => ⟨trivial, nofun⟩) fun _ => ?_
    refine iteInduction (fun _ => ⟨trivial, nofun⟩) fun _ => ?_
    exact iteInduction (fun _ => proper_code rfl) fun _ => ⟨trivial, nofun⟩
  | skip next' =>
    rcases h.mode with hnext | ⟨pendingDo, tail, hnext⟩
    · exact proper_code hnext
    · rw [show next' = _ from hnext]
      exact ⟨trivial, nofun⟩

theorem Proper.runTo (h : S.Proper) (s : Text) (next : Option Char) :
    (S.runTo opts s next).Proper := by
  induction s generalizing S with
  | nil => exact h
  | cons c s ih => exact ih (h.read c _)

/-- Do two characters agree about the marks that the splitter looks for behind another one? -/
def SameNext (next next' : Option Char) : Prop :=
  ∀ mark ∈ ['/', '*', '}'], next = some mark ↔ next' = some mark

theorem map_char (next : Option Char) : next.map Glyph.char = next := by
  cases next <;> rfl

theorem readCode_congr_next (S : Splitter Char) (c : Char) {next next' : Option Char}
    (h : SameNext next next') : S.readCode opts c next = S.readCode opts c next' := by
  have hslash := h '/' (by simp)
  have hstar := h '*' (by simp)
  have hbrace := h '}' (by simp)
  rw [readCode, readCode]
  simp only [map_char, hslash, hstar, hbrace]
  by_cases hnext : next' = some '}'
  · rw [hnext, hbrace.mpr hnext]
  · simp only [hnext, false_and, and_false, if_false]

theorem read_congr_next (S : Splitter Char) (c : Char) {next next' : Option Char}
    (h : SameNext next next') : S.read opts c next = S.read opts c next' := by
  obtain ⟨ss, a, depth, mode⟩ := S
  cases mode with
  | code => exact readCode_congr_next _ c h
  | lineComment comment =>
    rw [read, read]
    dsimp only
    rw [readCode_congr_next _ c h]
  | blockComment comment =>
    have hslash := h '/' (by simp)
    rw [read, read]
    simp only [map_char, hslash]
    by_cases hnext : next' = some '/'
    · rw [hnext, hslash.mpr hnext]
    · simp only [hnext, and_false, if_false]
  | _ => rfl

/-- Blanks and the end of the text agree about all marks. -/
theorem sameNext_of_blank {next next' : Option Char} (h : ∀ c ∈ next, isSpace c)
    (h' : ∀ c ∈ next', isSpace c) : SameNext next next' := by
  have hnot : ∀ o : Option Char, (∀ c ∈ o, isSpace c) → ∀ mark ∈ ['/', '*', '}'], o ≠ some mark := by
    rintro o ho mark hmark rfl
    have hmarks : ∀ mark ∈ ['/', '*', '}'], ¬ isSpace mark := by decide
    exact hmarks mark hmark (ho mark rfl)
  intro mark hmark
  exact ⟨fun heq => absurd heq (hnot next h mark hmark),
    fun heq => absurd heq (hnot next' h' mark hmark)⟩

/-- The splitter is not about to skip a character. -/
def Settled (S : Splitter Char) : Prop := ∀ m, S.mode ≠ .skip m

theorem settled_code {S : Splitter Char} (h : S.mode = .code) : S.Settled := by
  intro m hm
  rw [h] at hm
  cases hm

theorem readCode_settled (hmode : S.mode = .code) (c : Char) :
    (S.readCode opts c none).Settled := by
  have hflush : ∀ current, ({ S with current := current }.flush opts).mode = .code :=
    fun current => (flush_mode opts _).trans hmode
  refine readCode_cases opts S c none ?literal ?lineComment ?blockComment ?opening ?closing ?doBlock
    ?block ?semicolon ?directive ?other
  case literal => exact fun _ _ _ _ => nofun
  case lineComment => exact fun _ _ _ => nofun
  case blockComment => exact fun _ _ _ => nofun
  case opening => exact fun _ => settled_code hmode
  case closing => exact fun _ => settled_code hmode
  case doBlock => exact fun _ hnext => nomatch hnext
  case block => exact fun _ hnext => nomatch hnext
  case semicolon => exact fun _ _ => settled_code (hflush _)
  case directive => exact fun _ => settled_code (hflush _)
  case other => exact fun _ _ _ => settled_code hmode

/-- Before a white space, or the end, no mark of two characters begins. -/
theorem Proper.settled (h : S.Proper) (c : Char) {next : Option Char}
    (hnext : ∀ d ∈ next, isSpace d) : (S.read opts c next).Settled := by
  have hnone : SameNext next none := sameNext_of_blank hnext nofun
  rw [read_congr_next S c hnone]
  obtain ⟨ss, a, depth, mode⟩ := S
  cases mode with
  | code => exact readCode_settled rfl c
  | literal quote =>
    exact iteInduction (fun _ => nofun) fun _ => iteInduction (fun _ => nofun) fun _ => nofun
  | escape quote => exact nofun
  | lineComment comment => exact iteInduction (fun _ => readCode_settled rfl c) fun _ => nofun
  | blockComment comment => exact iteInduction (fun h => by cases h.2) fun _ => nofun
  | doTail pendingDo tail =>
    refine iteInduction (fun _ => nofun) fun _ => ?_
    refine iteInduction (fun _ => nofun) fun _ => ?_
    exact iteInduction (fun _ => nofun) fun _ => nofun
  | skip next' =>
    rcases h.mode with hnext | ⟨pendingDo, tail, hnext⟩
    · exact settled_code hnext
    · rw [show next' = _ from hnext]
      exact nofun

/-- What a white space does in a settled state that is not outside statements. -/
theorem Proper.read_space (h : S.Proper) (hsettled : S.Settled) (hquiet : ¬ S.Quiet) {c : Char}
    (hc : isSpace c) (hline : ∀ comment, S.mode = .lineComment comment → c ≠ '\n')
    (next : Option Char) :
    ¬ (S.read opts c next).Quiet ∧ (S.read opts c next).Settled := by
  obtain ⟨ss, a, depth, mode⟩ := S
  have hne : ∀ d, isSpace d = false → Glyph.char c ≠ d := fun d => ne_of_isSpace hc
  cases mode with
  | code =>
    have hdepth : depth ≠ 0 := fun hdepth => hquiet ⟨rfl, hdepth⟩
    have hread : Splitter.read opts ⟨ss, a, depth, .code⟩ c next = ⟨ss, a ++ [c], depth, .code⟩ := by
      show Splitter.readCode opts _ c next = _
      rw [Splitter.readCode]
      simp only [hdepth, and_false, false_and, if_false]
      rw [if_neg (hne '(' rfl), if_neg (hne ')' rfl)]
    rw [hread]
    exact ⟨fun hq => hdepth hq.2, settled_code rfl⟩
  | literal quote =>
    have hquote : Glyph.char c ≠ quote := by
      rintro rfl
      exact h.mode hc
    have hread : Splitter.read opts ⟨ss, a, depth, .literal quote⟩ c next
        = ⟨ss, a ++ [c], depth, .literal quote⟩ := by
      rw [Splitter.read]
      dsimp only
      rw [if_neg (hne '\\' rfl), if_neg hquote]
    rw [hread]
    exact ⟨fun hq => (by cases hq.1), fun m hm => (by cases hm)⟩
  | escape quote => exact ⟨fun hq => (by cases hq.1), fun m hm => (by cases hm)⟩
  | lineComment comment =>
    have hread : Splitter.read opts ⟨ss, a, depth, .lineComment comment⟩ c next
        = ⟨ss, a, depth, .lineComment (comment ++ [c])⟩ := if_neg (hline comment rfl)
    rw [hread]
    exact ⟨fun hq => (by cases hq.1), fun m hm => (by cases hm)⟩
  | blockComment comment =>
    have hread : Splitter.read opts ⟨ss, a, depth, .blockComment comment⟩ c next
        = ⟨ss, a, depth, .blockComment (comment ++ [c])⟩ := if_neg fun hstar => hne '*' rfl hstar.1
    rw [hread]
    exact ⟨fun hq => (by cases hq.1), fun m hm => (by cases hm)⟩
  | doTail pendingDo tail =>
    have hread : Splitter.read opts ⟨ss, a, depth, .doTail pendingDo tail⟩ c next
        = ⟨ss, a, depth, .doTail pendingDo (tail ++ [c])⟩ := by
      rw [Splitter.read]
      dsimp only
      rw [if_neg (hne '(' rfl), if_neg (hne ')' rfl), if_neg fun hend => hne ';' rfl hend.1]
    rw [hread]
    exact ⟨fun hq => (by cases hq.1), fun m hm => (by cases hm)⟩
  | skip next' => exact absurd rfl (hsettled next')

/-- Blanks of a line that leave the splitter outside statements found it there. -/
theorem Proper.quiet_of_inline (h : S.Proper) (hsettled : S.Settled) {gap : Text}
    (hgap : Cleaner.IsInline gap) {next : Option Char} (hquiet : (S.runTo opts gap next).Quiet) :
    S.Quiet := by
  induction gap generalizing S with
  | nil => exact hquiet
  | cons c gap ih =>
    obtain ⟨⟨hc, hbreak⟩, hgap⟩ := List.forall_mem_cons.mp hgap
    have hne : c ≠ '\n' := by
      rintro rfl
      exact hbreak rfl
    by_contra hnot
    obtain ⟨hnot', hsettled'⟩ := h.read_space hsettled hnot hc (fun _ _ => hne) (gap.head?.or next)
    exact hnot' (ih (h.read c _) hsettled' hgap hquiet)

/-- Outside statements, blanks of a line are kept. -/
theorem Quiet.runTo_inline (h : S.Quiet) {gap : Text} (hgap : Cleaner.IsInline gap)
    (next : Option Char) :
    S.runTo opts gap next = { S with current := S.current ++ gap } := by
  induction gap generalizing S with
  | nil => rw [List.append_nil, runTo]
  | cons c gap ih =>
    obtain ⟨⟨hc, hbreak⟩, hgap⟩ := List.forall_mem_cons.mp hgap
    have hread : S.read opts c (gap.head?.or next) = { S with current := S.current ++ [c] } := by
      rcases h.read_space opts hc (gap.head?.or next) with hread | ⟨rfl, -⟩
      · exact hread
      · exact absurd rfl hbreak
    have hquiet : Quiet { S with current := S.current ++ [c] } := ⟨h.1, h.2⟩
    rw [runTo, hread, ih hquiet hgap]
    show ({ S with current := S.current ++ [c] ++ gap } : Splitter Char) = _
    rw [List.append_assoc, List.singleton_append]

/-- A visible character before a comment reads the same before anything else, unless it is the
first half of a placeholder. -/
theorem read_before_slash (c : Char) (hc : ¬ isSpace c)
    (hquiet : (S.read opts c (some '/')).Quiet) (next : Option Char)
    (hbrace : next = some '}' → strip (S.read opts c (some '/')).current = []) :
    S.read opts c next = S.read opts c (some '/') := by
  obtain ⟨ss, a, depth, mode⟩ := S
  cases mode with
  | code =>
    have hslash : ¬ (Glyph.char c = '/' ∧ depth = 0) := by
      rintro ⟨hslash, rfl⟩
      obtain rfl : c = '/' := hslash
      have hread := Quiet.read_slash opts (S := ⟨ss, a, 0, .code⟩) ⟨rfl, rfl⟩
        (Or.inl rfl : '/' = '/' ∨ '/' = '*')
      rw [hread] at hquiet
      cases hquiet.1
    have hplace : ¬ (Glyph.char c = '{' ∧ next.map Glyph.char = some '}' ∧ depth = 0) := by
      rintro ⟨hopen, hnext, rfl⟩
      obtain rfl : c = '{' := hopen
      rw [map_char] at hnext
      have hcurrent : strip (a ++ ['{']) = [] := hbrace hnext
      rw [strip_append_singleton _ hc] at hcurrent
      simp at hcurrent
    have hslash' : ∀ p : Prop, ¬ (Glyph.char c = '/' ∧ p ∧ depth = 0) :=
      fun p h => hslash ⟨h.1, h.2.2⟩
    show Splitter.readCode opts _ c next = Splitter.readCode opts _ c (some '/')
    rw [Splitter.readCode, Splitter.readCode]
    dsimp only
    simp only [hslash', hplace, if_false, Option.map_some]
    have hplace' : ¬ (Glyph.char c = '{' ∧ some (Glyph.char '/') = some '}' ∧ depth = 0) := by
      rintro ⟨-, h, -⟩
      cases h
    simp only [hplace', if_false]
  | lineComment comment =>
    have hne : Glyph.char c ≠ '\n' := by
      rintro rfl
      exact hc rfl
    rw [read, read]
    dsimp only
    rw [if_neg hne, if_neg hne]
  | blockComment comment =>
    have hne : Glyph.char c ≠ '*' := by
      intro hstar
      have hread : Splitter.read opts ⟨ss, a, depth, .blockComment comment⟩ c (some '/')
          = { (⟨ss, a, depth, .blockComment comment⟩ : Splitter Char).addComment opts
              (comment ++ c :: (some '/').toList) with mode := .skip .code } :=
        if_pos ⟨hstar, rfl⟩
      rw [hread] at hquiet
      cases hquiet.1
    rw [read, read]
    dsimp only
    rw [if_neg fun h => hne h.1, if_neg fun h => hne h.1]
  | _ => rfl

/-- A line break that leaves the splitter outside statements ends no more than the end of the text
does. -/
theorem Proper.finish_of_break (h : S.Proper) (hsettled : S.Settled)
    (hopts : opts.comments = false) {next : Option Char}
    (hquiet : (S.read opts '\n' next).Quiet) :
    S.finish opts = ((S.read opts '\n' next).flush opts).statements := by
  have hspace : isSpace '\n' := by decide
  by_cases hS : S.Quiet
  · rw [hS.finish, (hS.blank opts hspace next).2.1]
  by_cases hline : ∃ comment, S.mode = .lineComment comment
  · obtain ⟨ss, a, depth, mode⟩ := S
    obtain ⟨comment, hmode⟩ := hline
    obtain rfl : mode = .lineComment comment := hmode
    obtain rfl : a = [] := h.current comment rfl
    have hread : Splitter.read opts ⟨ss, [], depth, .lineComment comment⟩ '\n' next
        = Splitter.read opts ⟨ss, [], depth, .code⟩ '\n' next := by
      show ({ (⟨ss, [], depth, .lineComment comment⟩ : Splitter Char).addComment opts comment with
        mode := .code } : Splitter Char).readCode opts '\n' next = _
      rw [addComment_eq hopts]
      rfl
    rw [hread] at hquiet ⊢
    have hcode : Quiet ⟨ss, [], depth, .code⟩ := by
      by_contra hnot
      exact ((proper_code rfl).read_space (settled_code rfl) hnot hspace nofun next).1 hquiet
    rw [(hcode.blank opts hspace next).2.1]
    show (((⟨ss, [], depth, .lineComment comment⟩ : Splitter Char).addComment opts comment).flush
      opts).statements = _
    rw [addComment_eq hopts]
    rfl
  · exact absurd hquiet
      (h.read_space hsettled hS hspace (fun comment hc => absurd ⟨comment, hc⟩ hline) next).1

/-! ### A place at which statements are cut -/

/-- Before the first character. -/
def start : Splitter Char := ⟨[], [], 0, .code⟩

end Splitter

/-- The splitter at a place of a segment, before a comment. -/
def splitterAt (opts : Includes) (before : Text) : Splitter Char :=
  Splitter.start.runTo opts (cleanedSoFar before) (some '/')

/-- Does a text begin with a comment? -/
def BeginsComment (s : Text) : Prop := ∃ d t, s = '/' :: d :: t ∧ (d = '/' ∨ d = '*')

/-- **A cut** is a place of a segment at which no statement is open: outside literals, comments and
parentheses, with nothing but blanks since the last statement, or nothing but blanks before the next
comment or the end of the segment. -/
structure IsCut (opts : Includes) (before after : Text) : Prop where
  quiet : (splitterAt opts before).Quiet
  cut : strip (splitterAt opts before).current = [] ∨ (∀ c ∈ after, isSpace c) ∨
    ∃ blanks rest, after = blanks ++ rest ∧ (∀ b ∈ blanks, isSpace b) ∧ BeginsComment rest

namespace Splitter

variable {opts : Includes} {S T : Splitter Char}

/-- Behind a cut the splitter goes on as if a statement had ended there. -/
theorem Quiet.finish_run (hT : T.Quiet) (hflush : T.flush opts = S.flush opts) {c : Char} {t : Text}
    (h : strip T.current = [] ∨ BeginsComment (c :: t)) :
    (T.run opts (cleanSegment (c :: t))).finish opts
      = ((S.flush opts).run opts (cleanSegment (c :: t))).finish opts := by
  rcases h with hblank | ⟨d, t', heq, hd⟩
  · rw [← hflush]
    exact ((similar_flush opts hblank).run opts _).finish opts
  · have hspace : ¬ isSpace d := by
      rcases hd with rfl | rfl
      · decide
      · decide
    obtain ⟨t'', hclean⟩ := cleanSegment_slash hspace t'
    have hread : T.read opts '/' (some d) = (S.flush opts).read opts '/' (some d) := by
      have hS : (S.flush opts).Quiet := hflush ▸ hT.flush opts
      rw [hT.read_slash opts hd, hS.read_slash opts hd, flush_flush, hflush]
    rw [heq, hclean]
    show ((T.read opts '/' (some d)).run opts (d :: t'')).finish opts = _
    rw [hread]
    rfl

/-- What stands behind a line break does not matter. -/
theorem read_break (S : Splitter Char) (next next' : Option Char) :
    S.read opts '\n' next = S.read opts '\n' next' := by
  have hcode : ∀ S : Splitter Char, S.readCode opts '\n' next = S.readCode opts '\n' next' := by
    intro S
    have hslash : ¬ Glyph.char '\n' = '/' := by decide
    have hbrace : ¬ Glyph.char '\n' = '{' := by decide
    rw [readCode, readCode]
    simp only [hslash, hbrace, false_and, if_false]
  obtain ⟨ss, a, depth, mode⟩ := S
  cases mode with
  | code => exact hcode _
  | lineComment comment =>
    rw [read, read]
    dsimp only
    rw [hcode]
  | blockComment comment =>
    have hstar : ¬ Glyph.char '\n' = '*' := by decide
    rw [read, read]
    simp only [hstar, false_and, if_false]
  | _ => rfl

theorem strip_append_blanks (s : Text) {blanks : Text} (h : ∀ c ∈ blanks, isSpace c) :
    strip (s ++ blanks) = strip s := by
  induction blanks using List.reverseRecOn with
  | nil => rw [List.append_nil]
  | append_singleton blanks c ih =>
    rw [← List.append_assoc, strip_append_space _ (h c (by simp)),
      ih fun d hd => h d (List.mem_append_left _ hd)]

/-- The end of the text at a place that is outside statements when a comment follows; `c` is the
last visible character before the place and `gap` what stands between. -/
theorem Proper.finish_of_quiet (hT : T.Proper) (hopts : opts.comments = false) {c : Char}
    (hc : ¬ isSpace c) {gap : Text} (hgap : Cleaner.IsInline gap ∨ gap = ['\n'])
    (hquiet : ((T.read opts c (gap.head?.or (some '/'))).runTo opts gap (some '/')).Quiet) :
    (T.read opts c none).finish opts
      = (((T.read opts c (gap.head?.or (some '/'))).runTo opts gap (some '/')).flush
          opts).statements := by
  have hnone : ∀ g, isSpace g → T.read opts c (some g) = T.read opts c none := by
    intro g hg
    exact read_congr_next T c (sameNext_of_blank (fun d hd => Option.some.inj hd ▸ hg) nofun)
  rcases hgap with hinline | rfl
  · cases gap with
    | nil =>
      have hread := read_before_slash c hc hquiet none nofun
      rw [hread]
      exact hquiet.finish opts
    | cons g gap =>
      have hg := (hinline g List.mem_cons_self).1
      have hbefore := (hT.read c (some g)).quiet_of_inline
        (hT.settled c fun d hd => Option.some.inj hd ▸ hg) hinline hquiet
      have hblanks := hbefore.blanks opts (fun d hd => (hinline d hd).1) (some '/')
      rw [← hnone g hg, hbefore.finish]
      exact congrArg statements hblanks.2.1.symm
  · have hbreak : isSpace '\n' := by decide
    rw [← hnone '\n' hbreak]
    exact (hT.read c _).finish_of_break (hT.settled c fun d hd => Option.some.inj hd ▸ hbreak)
      hopts hquiet

/-- The same place when the text goes on with `d` behind the blanks `blanks`. -/
theorem Proper.quiet_of_quiet (hT : T.Proper) {c : Char} (hc : ¬ isSpace c) {gap blanks : Text}
    (hgap : gap = ['\n'] ∧ blanks = ['\n'] ∨ Cleaner.IsInline gap ∧
      (blanks = ['\n'] ∨ ∃ more, Cleaner.IsInline more ∧ blanks = gap ++ more))
    (hquiet : ((T.read opts c (gap.head?.or (some '/'))).runTo opts gap (some '/')).Quiet)
    {d : Char} (hd : d = '}' → strip ((T.read opts c (gap.head?.or (some '/'))).runTo opts gap
      (some '/')).current = []) :
    let R := (T.read opts c (gap.head?.or (some '/'))).runTo opts gap (some '/')
    let R' := (T.read opts c (blanks.head?.or (some d))).runTo opts blanks (some d)
    R'.Quiet ∧ R'.flush opts = R.flush opts ∧ (strip R.current = [] → strip R'.current = []) := by
  dsimp only
  have hbreak : isSpace '\n' := by decide
  rcases hgap with ⟨rfl, rfl⟩ | ⟨hinline, hblanks⟩
  · have hsame : ((T.read opts c (some '\n')).read opts '\n' (some d))
        = (T.read opts c (some '\n')).read opts '\n' (some '/') := read_break _ _ _
    have hquiet' : ((T.read opts c (some '\n')).read opts '\n' (some '/')).Quiet := hquiet
    rw [← hsame] at hquiet'
    exact ⟨hquiet', congrArg (flush opts) hsame,
      fun hblank => Eq.trans (congrArg (fun S : Splitter Char => strip S.current) hsame) hblank⟩
  · have hspaces : ∀ b ∈ blanks, isSpace b := by
      rcases hblanks with rfl | ⟨more, hmore, rfl⟩
      · decide
      · intro b hb
        rcases List.mem_append.mp hb with hb | hb
        · exact (hinline b hb).1
        · exact (hmore b hb).1
    cases gap with
    | nil =>
      have hread := read_before_slash c hc hquiet (blanks.head?.or (some d)) fun hbrace => by
        cases blanks with
        | nil => exact hd (Option.some.inj hbrace)
        | cons b blanks =>
          have hb := hspaces b List.mem_cons_self
          obtain rfl : b = '}' := Option.some.inj hbrace
          cases hb
      rw [hread]
      exact hquiet.blanks opts hspaces (some d)
    | cons g gap =>
      have hg := (hinline g List.mem_cons_self).1
      have hbefore := (hT.read c (some g)).quiet_of_inline
        (hT.settled c fun d hd => Option.some.inj hd ▸ hg) hinline hquiet
      obtain ⟨b, blanks', rfl⟩ : ∃ b blanks', blanks = b :: blanks' := by
        rcases hblanks with rfl | ⟨more, -, rfl⟩
        · exact ⟨_, _, rfl⟩
        · exact ⟨_, _, rfl⟩
      have hb : ∀ e ∈ some b, isSpace e := fun e he =>
        Option.some.inj he ▸ hspaces b List.mem_cons_self
      have hread : T.read opts c (some b) = T.read opts c (some g) :=
        read_congr_next T c (sameNext_of_blank hb fun e he => Option.some.inj he ▸ hg)
      have hgap := hbefore.blanks opts (fun e he => (hinline e he).1) (some '/')
      have hkept := @Quiet.runTo_inline opts _ hbefore _ hinline (some '/')
      obtain ⟨hafter, hflush, hblank⟩ := hbefore.blanks opts hspaces (some d)
      show ((T.read opts c (some b)).runTo opts (b :: blanks') (some d)).Quiet ∧ _
      rw [show (b :: blanks').head?.or (some d) = some b from rfl,
        show (g :: gap).head?.or (some '/') = some g from rfl, hread]
      refine ⟨hafter, hflush.trans hgap.2.1.symm, fun h => hblank ?_⟩
      rw [hkept] at h
      rwa [strip_append_blanks _ fun e he => (hinline e he).1] at h

end Splitter

/-- **Statements around a cut.** -/
theorem IsCut.parseStatements {opts : Includes} (hopts : opts.comments = false)
    {before after : Text} (h : IsCut opts before after) :
    parseStatements opts (cleanSegment (before ++ after))
      = (((splitterAt opts before).flush opts).run opts (cleanSegment after)).finish opts := by
  have hquiet := h.quiet
  have hblankClean : (∀ c ∈ after, isSpace c) → cleanSegment after = [] := fun hblank =>
    cleanSegment_append_blanks [] hblank
  have hinkClean : ∀ blanks c t, after = blanks ++ c :: t → (∀ b ∈ blanks, isSpace b) →
      ¬ isSpace c → cleanSegment after = cleanSegment (c :: t) ∧ cleanSegment (before ++ after)
        = cleanSegment before ++ (({} : Cleaner).run (before ++ blanks)).gap
          ++ cleanSegment (c :: t) := by
    rintro blanks c t rfl hblanks hc
    rw [cleanSegment_append _ hc, cleanedSoFar_blanks hblanks, List.nil_append,
      ← List.append_assoc, cleanSegment_append _ hc, cleanedSoFar_eq,
      cleanSegment_append_blanks before hblanks]
    exact ⟨rfl, rfl⟩
  have hkeeps := Cleaner.keeps_run before
  rcases List.eq_nil_or_concat (cleanSegment before) with hout | ⟨o, x, hout⟩
  · -- the segment begins here
    have hsoFar : cleanedSoFar before = [] := by
      rw [cleanedSoFar_eq, hout, hkeeps.start (by rw [← cleanSegment_eq, hout]), List.append_nil]
    have hstart : splitterAt opts before = Splitter.start := by
      rw [splitterAt, hsoFar]
      rfl
    rw [hstart]
    rcases blank_or_ink after with hblank | ⟨blanks, c, t, hafter, hblanks, hc⟩
    · rw [cleanSegment_append_blanks before hblank, hout, hblankClean hblank]
      rfl
    · obtain ⟨hclean, hboth⟩ := hinkClean blanks c t hafter hblanks hc
      have hgap : (({} : Cleaner).run (before ++ blanks)).gap = [] := by
        refine (Cleaner.keeps_run _).start ?_
        rw [← cleanSegment_eq, cleanSegment_append_blanks before hblanks, hout]
      rw [hboth, hclean, hout, hgap]
      rfl
  · rw [List.concat_eq_append] at hout
    have hx : ¬ isSpace x := hkeeps.ink x (by rw [← cleanSegment_eq, hout]; simp)
    have hne : (({} : Cleaner).run before).out ≠ [] := by
      rw [← cleanSegment_eq, hout]
      simp
    set gap := (({} : Cleaner).run before).gap with hgapDef
    set T := Splitter.start.runTo opts o (some x) with hTDef
    have hT : T.Proper := Splitter.Proper.runTo (Splitter.proper_code rfl) o (some x)
    have hplace : splitterAt opts before
        = (T.read opts x (gap.head?.or (some '/'))).runTo opts gap (some '/') := by
      rw [splitterAt, cleanedSoFar_eq, hout, List.append_assoc, Splitter.runTo_append]
      rfl
    have hrun : ∀ s, Splitter.start.run opts (o ++ [x] ++ s)
        = (T.read opts x s.head?).run opts s := by
      intro s
      rw [List.append_assoc, Splitter.run_append]
      rfl
    rw [hplace] at hquiet ⊢
    rcases blank_or_ink after with hblank | ⟨blanks, c, t, hafter, hblanks, hc⟩
    · have hend := hT.finish_of_quiet hopts hx hkeeps.gap hquiet
      have hclean := hrun []
      rw [List.append_nil] at hclean
      rw [cleanSegment_append_blanks before hblank, hout, hblankClean hblank]
      show (Splitter.start.run opts (o ++ [x])).finish opts = _
      rw [hclean]
      refine hend.trans ?_
      show _ = Splitter.finish opts (Splitter.flush opts _)
      rw [(hquiet.flush opts).finish, Splitter.flush_flush]
    · obtain ⟨hclean, hboth⟩ := hinkClean blanks c t hafter hblanks hc
      set gap' := (({} : Cleaner).run (before ++ blanks)).gap with hgapDef'
      rw [Cleaner.run_append] at hgapDef'
      have hgaps : gap = ['\n'] ∧ gap' = ['\n'] ∨ Cleaner.IsInline gap ∧
          (gap' = ['\n'] ∨ ∃ more, Cleaner.IsInline more ∧ gap' = gap ++ more) := by
        rw [hgapDef']
        rcases hkeeps.gap with hinline | hbreak
        · exact Or.inr ⟨hinline, Cleaner.gap_run_of_inline hne hinline hblanks⟩
        · exact Or.inl ⟨hbreak, Cleaner.gap_run_of_break hne hbreak hblanks⟩
      -- what follows is no closing brace where a statement has begun
      have hcut : strip ((T.read opts x (gap.head?.or (some '/'))).runTo opts gap
          (some '/')).current = [] ∨ BeginsComment (c :: t) := by
        rw [← hplace]
        rcases h.cut with hblank | hblank | ⟨blanks', rest, hafter', hblanks', d, t', rfl, hd⟩
        · exact Or.inl hblank
        · exact absurd (hblank c (by simp [hafter])) hc
        · rw [hafter] at hafter'
          have hslash : ¬ isSpace '/' := by decide
          obtain ⟨-, rfl, rfl⟩ := eq_of_append_cons hblanks hblanks' hc hslash hafter'
          exact Or.inr ⟨d, t', rfl, hd⟩
      have hbrace : c = '}' → strip ((T.read opts x (gap.head?.or (some '/'))).runTo opts gap
          (some '/')).current = [] := by
        rintro rfl
        rcases hcut with hblank | ⟨d, t', heq, -⟩
        · exact hblank
        · cases heq
      obtain ⟨hafterQuiet, hflush, hkept⟩ := hT.quiet_of_quiet hx hgaps hquiet hbrace
      obtain ⟨s, hs⟩ := exists_cleanSegment_cons hc t
      have hhead : (gap' ++ cleanSegment (c :: t)).head? = gap'.head?.or (some c) := by
        rw [List.head?_append, hs]
        rfl
      have hwhole : Splitter.start.run opts (o ++ [x] ++ gap' ++ cleanSegment (c :: t))
          = ((T.read opts x (gap'.head?.or (some c))).runTo opts gap' (some c)).run opts
              (cleanSegment (c :: t)) := by
        rw [List.append_assoc (o ++ [x]), hrun, hhead, Splitter.run_append, hs]
        rfl
      rw [hboth, hclean, hout]
      show (Splitter.start.run opts _).finish opts = _
      rw [hwhole]
      exact hafterQuiet.finish_run hflush (hcut.imp_left hkept)

/-- **A comment at a cut** of a segment leaves its statements alone. -/
theorem parseStatements_comment {opts : Includes} (hopts : opts.comments = false)
    {before after k : Text} (h : IsCut opts before after) (hk : IsPlainComment k) :
    parseStatements opts (cleanSegment (before ++ k ++ after))
      = parseStatements opts (cleanSegment (before ++ after)) := by
  obtain ⟨c, t, hkc⟩ : ∃ c t, k = '/' :: c :: t := by
    cases hk with
    | block body _ => exact ⟨_, _, rfl⟩
    | line body _ => exact ⟨_, _, rfl⟩
  have hslash : ¬ isSpace '/' := by decide
  have hclean : cleanSegment (before ++ k ++ after)
      = cleanedSoFar before ++ cleanSegment (k ++ after) := by
    rw [hkc, List.append_assoc]
    exact cleanSegment_append before hslash _
  obtain ⟨s, hs⟩ : ∃ s, cleanSegment (k ++ after) = '/' :: s := by
    rw [hkc]
    exact exists_cleanSegment_cons hslash _
  have hhead : (cleanSegment (k ++ after)).head? = some '/' := by
    rw [hs]
    rfl
  rw [h.parseStatements hopts, ← h.quiet.comment hopts hk after, hclean]
  show ((Splitter.start).run opts _).finish opts = _
  rw [Splitter.run_append, hhead]
  rfl

end Csc512
