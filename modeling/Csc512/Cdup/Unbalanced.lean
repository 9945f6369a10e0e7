import Csc512.Cdup.Merge
import Csc512.Cdup.StatementRows

/-!
# Unbalanced sources

The parser has a function that checks the braces and the parentheses of a source, and does not call
it. What is left are the stacks on which the brackets are paired: a closing bracket without an open
one fails, a bracket that is never closed does not. Braces of initialisers do not take part.

## Main results

* `segmentStmts_eq_none_iff` — which sources fail
* `parseCFileIr_eq_none_iff` — the rest of the parser does not fail
* `rejectsUnbalanced_iff` — when an unbalanced source is rejected
-/

namespace Csc512

/-! ### The brackets of a source -/

/-- The bracket that a character is. -/
def bracketOf (c : Char) : Option Bracket :=
  if c = '{' then some (.brace .opening)
  else if c = '}' then some (.brace .closing)
  else if c = '(' then some (.paren .opening)
  else if c = ')' then some (.paren .closing)
  else none

/-- Read one character outside of comments and literals or in one of them; `next` is the character
behind it. -/
def readBracket (mode : ScanMode) (c : Char) (next : Option Char) : ScanMode × Option Bracket :=
  match mode with
  | .code =>
    if c = '/' ∧ next = some '/' then (.skip .lineComment, none)
    else if c = '/' ∧ next = some '*' then (.skip .blockComment, none)
    else if c = '"' ∨ c = '\'' then (.literal c, none)
    else (.code, bracketOf c)
  | .lineComment => (if c = '\n' then .code else .lineComment, none)
  | .blockComment => (if c = '*' ∧ next = some '/' then .skip .code else .blockComment, none)
  | .literal quote =>
    (if c = '\\' then .skip (.literal quote) else if c = quote then .code else .literal quote, none)
  | .skip mode => (mode, none)

/-- The brackets from here on. -/
def bracketsFrom (mode : ScanMode) : Text → List (Option Bracket)
  | [] => []
  | c :: s => (readBracket mode c s.head?).2 :: bracketsFrom (readBracket mode c s.head?).1 s

/-- All brackets of a source outside of comments and literals, those of initialisers included. -/
def codeBrackets (file : Text) : List (Option Bracket) := bracketsFrom .code file

/-- The braces and the parentheses of a source are balanced, one kind by one. -/
def BalancedSource (file : Text) : Prop :=
  Balanced (braceMarks (codeBrackets file)) ∧ Balanced (parenMarks (codeBrackets file))

instance (file : Text) : Decidable (BalancedSource file) :=
  inferInstanceAs (Decidable (_ ∧ _))

/-- The scanner of the parser reads the same parentheses, and moves through comments and literals in
the same way. -/
theorem step_eq_readBracket (S : BraceScan) (c : Char) (next : Option Char) :
    (S.step c next).1.mode = (readBracket S.mode c next).1 ∧
      parenMarks [(S.step c next).2] = parenMarks [(readBracket S.mode c next).2] := by
  have hmode : ∀ r : BraceScan × Option Bracket, (if c ∈ [' ', '\t', '\n', '\r'] then r
      else ({ r.1 with lastVisible := some c }, r.2)).1.mode = r.1.mode := by
    intro r
    split_ifs <;> rfl
  have hmark : ∀ r : BraceScan × Option Bracket, (if c ∈ [' ', '\t', '\n', '\r'] then r
      else ({ r.1 with lastVisible := some c }, r.2)).2 = r.2 := by
    intro r
    split_ifs <;> rfl
  obtain ⟨mode, initializerDepth, lastVisible⟩ := S
  rw [BraceScan.step, hmode, hmark]
  cases mode with
  | code =>
    dsimp only
    rw [BraceScan.stepCode, readBracket, bracketOf]
    by_cases hline : c = '/' ∧ next = some '/'
    · rw [if_pos hline, if_pos hline]
      exact ⟨rfl, rfl⟩
    rw [if_neg hline, if_neg hline]
    by_cases hblock : c = '/' ∧ next = some '*'
    · rw [if_pos hblock, if_pos hblock]
      exact ⟨rfl, rfl⟩
    rw [if_neg hblock, if_neg hblock]
    by_cases hstring : c = '"'
    · rw [if_pos hstring, if_pos (Or.inl hstring), hstring]
      exact ⟨rfl, rfl⟩
    rw [if_neg hstring]
    by_cases hchar : c = '\''
    · rw [if_pos hchar, if_pos (Or.inr hchar), hchar]
      exact ⟨rfl, rfl⟩
    rw [if_neg hchar, if_neg (not_or.mpr ⟨hstring, hchar⟩)]
    by_cases hopening : c = '{'
    · -- a brace counts or not, but it is no parenthesis
      rw [if_pos hopening, if_pos hopening]
      split_ifs <;> exact ⟨rfl, rfl⟩
    rw [if_neg hopening, if_neg hopening]
    by_cases hclosing : c = '}'
    · rw [if_pos hclosing, if_pos hclosing]
      split_ifs <;> exact ⟨rfl, rfl⟩
    rw [if_neg hclosing, if_neg hclosing]
    split_ifs <;> exact ⟨rfl, rfl⟩
  | lineComment =>
    dsimp only
    rw [readBracket]
    split_ifs <;> exact ⟨rfl, rfl⟩
  | blockComment =>
    dsimp only
    rw [readBracket]
    split_ifs <;> exact ⟨rfl, rfl⟩
  | literal quote =>
    dsimp only
    rw [readBracket]
    split_ifs <;> exact ⟨rfl, rfl⟩
  | skip next => exact ⟨rfl, rfl⟩

theorem parenMarks_scanBrackets (file : Text) :
    parenMarks (scanBrackets file) = parenMarks (codeBrackets file) := by
  have hfrom : ∀ (s : Text) (S : BraceScan),
      parenMarks (S.run s) = parenMarks (bracketsFrom S.mode s) := by
    intro s
    induction s with
    | nil => exact fun _ => rfl
    | cons c s ih =>
      intro S
      obtain ⟨hmode, hmark⟩ := step_eq_readBracket S c s.head?
      show parenMarks [_] ++ parenMarks _ = parenMarks [_] ++ parenMarks _
      rw [hmark, ih, hmode]
  exact hfrom file {}

/-- Some closing mark comes when no opening one before it is left. -/
def ClosesUnopened (marks : List (Option Brace)) : Prop :=
  ∃ p, p <+: marks ∧ p.count (some .opening) < p.count (some .closing)

/-! ### Pairing -/

/-- No closing mark comes too early where `depth` marks are open. -/
def ClosesOpened (depth : ℕ) (marks : List (Option Brace)) : Prop :=
  ∀ p, p <+: marks → p.count (some .closing) ≤ depth + p.count (some .opening)

theorem closesOpened_cons {depth : ℕ} {m : Option Brace} {marks : List (Option Brace)} :
    ClosesOpened depth (m :: marks) ↔ match m with
      | none => ClosesOpened depth marks
      | some .opening => ClosesOpened (depth + 1) marks
      | some .closing => 0 < depth ∧ ClosesOpened (depth - 1) marks := by
  have hcons : ClosesOpened depth (m :: marks) ↔ ∀ p, p <+: marks →
      (m :: p).count (some .closing) ≤ depth + (m :: p).count (some .opening) := by
    constructor
    · exact fun h p hp => h _ ((List.prefix_cons_inj m).mpr hp)
    · intro h p hp
      cases p with
      | nil => exact Nat.zero_le _
      | cons x p =>
        obtain ⟨rfl, hrest⟩ := List.cons_prefix_cons.mp hp
        exact h p hrest
  rw [hcons]
  rcases m with _ | ⟨_ | _⟩
  · simp [ClosesOpened]
  · simp only [ClosesOpened, List.count_cons]
    refine forall₂_congr fun p _ => ?_
    simp
    omega
  · simp only [ClosesOpened, List.count_cons]
    constructor
    · intro h
      have hpos := h [] List.nil_prefix
      simp at hpos
      refine ⟨hpos, fun p hp => ?_⟩
      have hle := h p hp
      simp at hle
      omega
    · rintro ⟨hpos, h⟩ p hp
      have hle := h p hp
      simp
      omega

theorem not_closesOpened_iff {marks : List (Option Brace)} :
    ¬ ClosesOpened 0 marks ↔ ClosesUnopened marks := by
  simp [ClosesOpened, ClosesUnopened]

/-- The first stack never runs empty. -/
theorem isSome_pairOpnClsFrom_iff {stack : List ℕ} {base : ℕ} {marks : List (Option Brace)} :
    (pairOpnClsFrom stack (braceSeq marks) (openIdx base marks) (clsIdx base marks)).isSome ↔
      ClosesOpened stack.length marks := by
  induction marks generalizing stack base with
  | nil =>
    refine ⟨fun _ p hp => ?_, fun _ => rfl⟩
    rw [List.prefix_nil.mp hp]
    exact Nat.zero_le _
  | cons m marks ih =>
    rw [closesOpened_cons]
    rcases m with _ | ⟨_ | _⟩
    · exact ih
    · have hfrom : pairOpnClsFrom stack (braceSeq (some .opening :: marks))
          (openIdx base (some .opening :: marks)) (clsIdx base (some .opening :: marks)) =
          pairOpnClsFrom ((base + 1) :: stack) (braceSeq marks) (openIdx (base + 1) marks)
            (clsIdx (base + 1) marks) := rfl
      rw [hfrom, ih]
      rfl
    · cases stack with
      | nil => simp [braceSeq, pairOpnClsFrom]
      | cons o stack =>
        have hfrom : pairOpnClsFrom (o :: stack) (braceSeq (some .closing :: marks))
            (openIdx base (some .closing :: marks)) (clsIdx base (some .closing :: marks)) =
            (pairOpnClsFrom stack (braceSeq marks) (openIdx (base + 1) marks)
              (clsIdx (base + 1) marks)).bind fun pairs => some ((o, base) :: pairs) := rfl
        rw [hfrom, Option.isSome_bind]
        simp [ih]

/-- The second stack never runs empty. -/
theorem isSome_findNestedPairsFrom_iff {stack : List ℕ} {pairIdx : ℕ}
    {marks : List (Option Brace)} :
    (findNestedPairsFrom stack pairIdx (braceSeq marks)).isSome ↔
      ClosesOpened stack.length marks := by
  induction marks generalizing stack pairIdx with
  | nil =>
    refine ⟨fun _ p hp => ?_, fun _ => rfl⟩
    rw [List.prefix_nil.mp hp]
    exact Nat.zero_le _
  | cons m marks ih =>
    rw [closesOpened_cons]
    rcases m with _ | ⟨_ | _⟩
    · exact ih
    · have hfrom : findNestedPairsFrom stack pairIdx (braceSeq (some .opening :: marks)) =
          (findNestedPairsFrom (pairIdx :: stack) (pairIdx + 1) (braceSeq marks)).bind
            fun parents => some (stack.head?.getD pairIdx :: parents) := rfl
      rw [hfrom, Option.isSome_bind]
      simp [ih]
    · cases stack with
      | nil => simp [braceSeq, findNestedPairsFrom]
      | cons o stack =>
        have hfrom : findNestedPairsFrom (o :: stack) pairIdx (braceSeq (some .closing :: marks)) =
            findNestedPairsFrom stack pairIdx (braceSeq marks) := rfl
        rw [hfrom, ih]
        simp

/-- **Pairing fails** exactly at a closing mark without an open one. Marks that are never closed do
not make it fail. -/
theorem pairMarks_eq_none_iff {marks : List (Option Brace)} :
    pairMarks marks = none ↔ ClosesUnopened marks := by
  have hpairs : (pairOpnCls (braceSeq marks) (openIdx 0 marks) (clsIdx 0 marks)).isSome ↔
      ClosesOpened 0 marks := isSome_pairOpnClsFrom_iff
  have hparents : (findNestedPairs (braceSeq marks)).isSome ↔ ClosesOpened 0 marks :=
    isSome_findNestedPairsFrom_iff
  rw [← not_closesOpened_iff]
  by_cases h : ClosesOpened 0 marks
  · obtain ⟨pairs, hp⟩ := Option.isSome_iff_exists.mp (hpairs.mpr h)
    obtain ⟨parents, hq⟩ := Option.isSome_iff_exists.mp (hparents.mpr h)
    simp [pairMarks, hp, hq, h]
  · have hnone : pairOpnCls (braceSeq marks) (openIdx 0 marks) (clsIdx 0 marks) = none := by
      rw [← Option.not_isSome_iff_eq_none, hpairs]
      exact h
    simp [pairMarks, hnone, h]

/-! ### What comes behind the pairing -/

/-- Every parent that is looked up is the number of a pair, also when some braces are not closed:
a pair opens behind the pair around it. -/
theorem parentsInRange_of_pairMarks {marks : List (Option Brace)} {pairs : List (ℕ × ℕ)}
    {parents : List ℕ} (h : pairMarks marks = some (pairs, parents)) :
    parentsInRange pairs parents = true := by
  obtain ⟨pairs', -, h⟩ := Option.bind_eq_some_iff.mp h
  obtain ⟨parents', hparents, h⟩ := Option.bind_eq_some_iff.mp h
  obtain ⟨rfl, rfl⟩ := Prod.mk.inj (Option.some.inj h)
  rw [parentsInRange, List.all_eq_true]
  rintro ⟨p, k⟩ hp
  have hget : (parents'.take (sortPairs pairs').length)[k]? = some p :=
    List.mem_zipIdx_iff_getElem?.mp hp
  rw [List.getElem?_take] at hget
  split_ifs at hget with hk
  have hle := parents_le_of_findNestedPairsFrom
    (fun _ ho => absurd ho List.not_mem_nil) hparents hget
  simp only [Bool.or_eq_true, decide_eq_true_eq]
  omega

theorem segmentStmts_eq_none_iff (opts : Includes) (file : Text) :
    segmentStmts opts file = none ↔ ClosesUnopened (braceMarks (scanBrackets file)) ∨
      ClosesUnopened (parenMarks (scanBrackets file)) := by
  rw [← pairMarks_eq_none_iff, ← pairMarks_eq_none_iff, segmentStmts, text_self]
  cases hb : pairMarks (braceMarks (scanBrackets file)) with
  | none => simp
  | some b =>
    cases hp : pairMarks (parenMarks (scanBrackets file)) with
    | none => simp
    | some p =>
      simp [parentsInRange_of_pairMarks hb, parentsInRange_of_pairMarks hp]

/-- The segments of a parsed file form a tree under the first one. -/
theorem Numbered.forest {segments : List Segment} (h : Numbered segments) : Forest segments where
  nodup := by
    rw [h.ids]
    exact List.nodup_range
  parent_mem seg hseg := by
    have hid : seg.id ∈ segments.map Segment.id := List.mem_map_of_mem hseg
    rw [h.ids, List.mem_range] at hid ⊢
    exact lt_of_le_of_lt (h.parents seg hseg).1 hid
  ranked := ⟨id, fun seg hseg hne => lt_of_le_of_ne (h.parents seg hseg).1 hne⟩

section Parser

variable (U : CharTable) (opts : Includes)

/-- What `parse_c_file` returns: the segments, the matrix and the data-flow graph. -/
def parseCFileIr (file : Text) : Option (List Segment × Matrix × Dag) := do
  let segments ← parseCFile U opts file
  let matrix ← buildMatrix U segments
  some (segments, matrix, buildDag segments matrix)

/-- What `_parse_file` returns for the content of a C file: the representation, or the path of the
file that is skipped. -/
def parseFile (filepath content : Text) :
    Option (List Segment × Matrix × Dag) × Option Text :=
  match parseCFileIr U opts content with
  | some ir => (some ir, none)
  | none => (none, some filepath)

/-- **The rest of the parser does not fail.** -/
theorem parseCFileIr_eq_none_iff (file : Text) : parseCFileIr U opts file = none ↔
    ClosesUnopened (braceMarks (scanBrackets file)) ∨
      ClosesUnopened (parenMarks (scanBrackets file)) := by
  have hsegments := segmentStmts_eq_none_iff opts file
  rw [← hsegments]
  cases hparse : parseCFile U opts file with
  | none =>
    have hnone : segmentStmts opts file = none := Option.map_eq_none_iff.mp hparse
    simp [parseCFileIr, hparse, hnone]
  | some segs =>
    have hsome : segmentStmts opts file ≠ none := by
      intro hnone
      rw [parseCFile, hnone] at hparse
      cases hparse
    obtain ⟨matrix, hmatrix⟩ := Option.isSome_iff_exists.mp
      (buildMatrix_isSome U (numbered_parseCFile hparse).forest)
    simp [parseCFileIr, hparse, hmatrix, hsome]

/-- An unbalanced source is rejected: nothing is returned for it, and its path is reported. -/
def RejectsUnbalanced (filepath file : Text) : Prop :=
  ¬ BalancedSource file →
    parseCFileIr U opts file = none ∧ parseFile U opts filepath file = (none, some filepath)

variable {U opts}

/-- **When an unbalanced source is rejected**: if a parenthesis, or a brace outside of initialisers,
is closed that is not open. -/
theorem rejectsUnbalanced_iff (filepath file : Text) :
    RejectsUnbalanced U opts filepath file ↔ BalancedSource file ∨
      ClosesUnopened (braceMarks (scanBrackets file)) ∨
      ClosesUnopened (parenMarks (codeBrackets file)) := by
  have hparse := parseCFileIr_eq_none_iff U opts file
  rw [← parenMarks_scanBrackets, ← hparse, RejectsUnbalanced, parseFile]
  constructor
  · intro h
    by_cases hbalanced : BalancedSource file
    · exact Or.inl hbalanced
    · exact Or.inr (h hbalanced).1
  · rintro (hbalanced | hnone) hnot
    · exact absurd hbalanced hnot
    · rw [hnone]
      exact ⟨rfl, rfl⟩

end Parser

/-- A block that is never closed is parsed. -/
theorem not_rejectsUnbalanced :
    ¬ RejectsUnbalanced .ascii {} (lit "f.c") (lit "void f() \x7b if (a) \x7b b; \x7d") := by
  have hbalanced : ¬ BalancedSource (lit "void f() \x7b if (a) \x7b b; \x7d") := by decide
  have hparsed : segmentStmts {} (lit "void f() \x7b if (a) \x7b b; \x7d") ≠ none := by
    rw [Ne, ← Option.not_isSome_iff_eq_none, not_not]
    decide
  intro h
  have hnone := (parseCFileIr_eq_none_iff _ _ _).mp (h hbalanced).1
  exact hparsed ((segmentStmts_eq_none_iff _ _).mpr hnone)

end Csc512
