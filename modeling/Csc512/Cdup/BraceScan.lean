import Csc512.Cdup.CodeSegs
import Csc512.Cdup.Statements

/-!
# From a source to the statements of its segments

The first stage of the parser. A scanner finds the braces and parentheses of a source outside
comments and literals; a brace behind an `=`, and every brace inside such braces, belongs to an
initialiser and does not count. The segments that the braces cut out are cleaned line by line and
split into statements, and the `i`-th child of a segment gets the `i`-th statement of its parent
that shows a placeholder as its header.

Everything behind the scanner only moves glyphs, so it is defined for all types of glyphs.
-/

namespace Csc512

/-! ### The scanner -/

/-- What the scanner is in the middle of; `skip` passes over one character. -/
inductive ScanMode where
  | code
  | lineComment
  | blockComment
  | literal (quote : Char)
  | skip (next : ScanMode)

/-- The state of the scanner. `lastVisible` is the last character that is no blank. -/
structure BraceScan where
  mode : ScanMode := .code
  initializerDepth : ℕ := 0
  lastVisible : Option Char := none

/-- The brackets that count. -/
inductive Bracket where
  | brace (b : Brace)
  | paren (b : Brace)
deriving DecidableEq, Repr

namespace BraceScan

/-- Read a character outside comments and literals; `next` is the one behind it. -/
def stepCode (S : BraceScan) (c : Char) (next : Option Char) : BraceScan × Option Bracket :=
  if c = '/' ∧ next = some '/' then ({ S with mode := .skip .lineComment }, none)
  else if c = '/' ∧ next = some '*' then ({ S with mode := .skip .blockComment }, none)
  else if c = '"' then ({ S with mode := .literal '"' }, none)
  else if c = '\'' then ({ S with mode := .literal '\'' }, none)
  else if c = '{' then
    if S.lastVisible = some '=' then
      ({ S with initializerDepth := S.initializerDepth + 1 }, none)
    else if 0 < S.initializerDepth then
      ({ S with initializerDepth := S.initializerDepth + 1 }, none)
    else (S, some (.brace .opening))
  else if c = '}' then
    if 0 < S.initializerDepth then
      ({ S with initializerDepth := S.initializerDepth - 1 }, none)
    else (S, some (.brace .closing))
  else if c = '(' then (S, some (.paren .opening))
  else if c = ')' then (S, some (.paren .closing))
  else (S, none)

/-- Read one character; `next` is the one behind it. -/
def step (S : BraceScan) (c : Char) (next : Option Char) : BraceScan × Option Bracket :=
  let r := match S.mode with
    | .code => S.stepCode c next
    | .lineComment => (if c = '\n' then { S with mode := .code } else S, none)
    | .blockComment =>
      (if c = '*' ∧ next = some '/' then { S with mode := .skip .code } else S, none)
    | .literal quote =>
      if c = '\\' then ({ S with mode := .skip (.literal quote) }, none)
      else if c = quote then ({ S with mode := .code }, none)
      else (S, none)
    | .skip next => ({ S with mode := next }, none)
  if c ∈ [' ', '\t', '\n', '\r'] then r else ({ r.1 with lastVisible := some c }, r.2)

/-- The brackets of a text, one entry for every character. -/
def run (S : BraceScan) : Text → List (Option Bracket)
  | [] => []
  | c :: s => (S.step c s.head?).2 :: (S.step c s.head?).1.run s

end BraceScan

/-- The brackets of a source. -/
def scanBrackets (file : Text) : List (Option Bracket) := ({} : BraceScan).run file

/-- The braces among the brackets. -/
def braceMarks (brackets : List (Option Bracket)) : List (Option Brace) :=
  brackets.map fun
    | some (.brace b) => some b
    | _ => none

/-- The parentheses among the brackets. -/
def parenMarks (brackets : List (Option Bracket)) : List (Option Brace) :=
  brackets.map fun
    | some (.paren b) => some b
    | _ => none

/-- The pairs of matching marks in the order in which they open, and their parents. -/
def pairMarks (marks : List (Option Brace)) : Option (List (ℕ × ℕ) × List ℕ) := do
  let pairs ← pairOpnCls (braceSeq marks) (openIdx 0 marks) (clsIdx 0 marks)
  let parents ← findNestedPairs (braceSeq marks)
  some (sortPairs pairs, parents)

/-- Is every parent that `parseCodeSegs` looks up the number of a pair? -/
def parentsInRange (pairs : List (ℕ × ℕ)) (parents : List ℕ) : Bool :=
  (parents.take pairs.length).zipIdx.all fun p => p.1 = p.2 || p.1 < pairs.length

/-! ### Segments -/

section Segments

variable {α : Type*} [Glyph α]

/-- Trim the lines of a segment and drop the empty ones. -/
def cleanSegment (seg : List α) : List α :=
  [Glyph.ofChar '\n'].intercalate
    (((splitLines seg).filter fun line => !(strip line).isEmpty).map strip)

/-- The spans of the blocks, and for every segment, the whole source first, its parent and its
statements. -/
structure SegmentStmts (α : Type*) where
  pairs : List (ℕ × ℕ)
  parents : List ℕ
  stmts : List (List (List α))

/-- Cut a source into segments, and these into statements. -/
def segmentStmts (opts : Includes) (file : List α) : Option (SegmentStmts α) :=
  let brackets := scanBrackets (text file)
  (pairMarks (braceMarks brackets)).bind fun b =>
  (pairMarks (parenMarks brackets)).bind fun p =>
    if parentsInRange b.1 b.2 ∧ parentsInRange p.1 p.2 then
      some {
        pairs := b.1
        parents := 0 :: b.2.zipIdx.map fun q => if q.1 = q.2 then 0 else q.1 + 1
        stmts := (parseCodeSegs file b.1 b.2).map fun seg =>
          parseStatements opts (cleanSegment seg) }
    else none

namespace SegmentStmts

variable (P : SegmentStmts α)

/-- The child segments of a segment. -/
def childrenOf (parent : ℕ) : List ℕ :=
  (List.range P.stmts.length).filter fun i => 0 < i ∧ P.parents.getD i 0 = parent

/-- The statements that show a placeholder. -/
def blockStmts (i : ℕ) : List (List α) :=
  (P.stmts.getD i []).filter fun stmt => contains (lit "{}") (text stmt)

/-- The header of a segment, a statement of its parent. -/
def header (i : ℕ) : Option (List α) :=
  if i = 0 then none
  else
    let parent := P.parents.getD i 0
    (P.blockStmts parent)[(P.childrenOf parent).idxOf i]?

end SegmentStmts

/-! ### The parents of the segments -/

/-- No segment but the first is its own parent. -/
theorem parents_segmentStmts {opts : Includes} {file : List α} {P : SegmentStmts α}
    (hP : segmentStmts opts file = some P) (i : ℕ) : P.parents.getD i 0 = i ↔ i = 0 := by
  obtain ⟨b, -, hP⟩ := Option.bind_eq_some_iff.mp hP
  obtain ⟨p, -, hP⟩ := Option.bind_eq_some_iff.mp hP
  split_ifs at hP
  obtain rfl := Option.some.inj hP
  cases i with
  | zero => simp
  | succ i =>
    simp only [List.getD_eq_getElem?_getD, List.getElem?_cons_succ, List.getElem?_map,
      List.getElem?_zipIdx, Nat.zero_add]
    cases b.2[i]? with
    | none => simp
    | some parent =>
      simp only [Option.map_some, Option.getD_some]
      split_ifs with heq
      · exact Iff.rfl
      · exact ⟨fun h => heq (Nat.succ.inj h), False.elim⟩

/-- The pair around a pair opens before it. -/
theorem parents_le_of_findNestedPairsFrom {stack : List ℕ} {pairIdx : ℕ} {seq : List Brace}
    {parents : List ℕ} (hstack : ∀ o ∈ stack, o < pairIdx)
    (h : findNestedPairsFrom stack pairIdx seq = some parents) {k p : ℕ}
    (hp : parents[k]? = some p) : p ≤ pairIdx + k := by
  induction stack, pairIdx, seq using findNestedPairsFrom.induct generalizing parents k with
  | case1 stack pairIdx =>
    obtain rfl : [] = parents := Option.some.inj h
    simp at hp
  | case2 stack pairIdx seq ih =>
    obtain ⟨rest, hrest, heq⟩ := Option.bind_eq_some_iff.mp h
    obtain rfl := Option.some.inj heq
    cases k with
    | zero =>
      obtain rfl := Option.some.inj hp
      cases stack with
      | nil => exact Nat.le_refl _
      | cons o stack => exact Nat.le_of_lt (hstack o List.mem_cons_self)
    | succ k =>
      have hle := ih (List.forall_mem_cons.mpr ⟨Nat.lt_succ_self _,
        fun o ho => Nat.lt_succ_of_lt (hstack o ho)⟩) hrest hp
      omega
  | case3 pairIdx seq => cases h
  | case4 o stack pairIdx seq ih =>
    exact ih (fun o ho => hstack o (List.mem_cons_of_mem _ ho)) h hp

/-- A segment comes behind its parent. -/
theorem parents_lt_segmentStmts {opts : Includes} {file : List α} {P : SegmentStmts α}
    (hP : segmentStmts opts file = some P) {i : ℕ} (hi : 0 < i) : P.parents.getD i 0 < i := by
  obtain ⟨b, hb, hP⟩ := Option.bind_eq_some_iff.mp hP
  obtain ⟨p, -, hP⟩ := Option.bind_eq_some_iff.mp hP
  obtain ⟨_, -, hb⟩ := Option.bind_eq_some_iff.mp hb
  obtain ⟨parents, hparents, hb⟩ := Option.bind_eq_some_iff.mp hb
  obtain rfl := Option.some.inj hb
  split_ifs at hP
  obtain rfl := Option.some.inj hP
  obtain ⟨i, rfl⟩ := Nat.exists_eq_add_of_lt hi
  rw [Nat.zero_add]
  simp only [List.getD_eq_getElem?_getD, List.getElem?_cons_succ, List.getElem?_map,
    List.getElem?_zipIdx, Nat.zero_add]
  cases hget : parents[i]? with
  | none => exact Nat.succ_pos i
  | some parent =>
    have hle := parents_le_of_findNestedPairsFrom
      (fun _ ho => absurd ho List.not_mem_nil) hparents hget
    simp only [Option.map_some, Option.getD_some]
    split_ifs <;> omega

end Segments

/-! ### Tests -/

example : (segmentStmts {} (lit "int f(int a) { if (a) { return 1; } int b[2] = {1, 2}; }")).map
      (fun P => (P.parents, P.stmts, P.header 1, P.header 2))
    = some ([0, 0, 1],
        [[lit "int f(int a) {}"], [lit "if (a) {}", lit "int b[2] = {1, 2};"], [lit "return 1;"]],
        some (lit "int f(int a) {}"), some (lit "if (a) {}")) := by decide +kernel

end Csc512
