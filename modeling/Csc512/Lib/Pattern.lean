import Csc512.Lib.Text

/-!
# Patterns with backtracking

Regular expressions as scripting languages run them: a pattern at a cursor yields the cursors it
can stop at, the preferred one first, so that `alt` prefers its left side and `star` prefers to go
on. A matcher takes the first cursor. Groups remember the text they matched last.
-/

namespace Csc512

/-- A place in a text: what stands before it (last character first), what stands after it, and
the groups matched so far, the latest first. -/
structure Cursor where
  before : Text
  after : Text
  groups : List (ℕ × Text)
deriving Repr, DecidableEq

/-- The cursor at the start of a text. -/
def Cursor.start (s : Text) : Cursor := ⟨[], s, []⟩

/-- The text between two cursors of one text, the first one further left. -/
def Cursor.between (c d : Cursor) : Text := c.after.take (c.after.length - d.after.length)

/-- The text group `k` matched last. -/
def Cursor.group? (c : Cursor) (k : ℕ) : Option Text :=
  (c.groups.find? fun g => g.1 = k).map Prod.snd

/-- Patterns. -/
inductive Pattern where
  | empty
  | char (p : Char → Bool)
  | seq (p q : Pattern)
  | alt (p q : Pattern)
  | star (p : Pattern)
  | group (k : ℕ) (p : Pattern)
  | boundary (isWord : Char → Bool)
  | atStart
  | atEnd

namespace Pattern

/-- The character `c`. -/
def one (c : Char) : Pattern := char (· = c)

/-- A literal text. -/
def literal : Text → Pattern
  | [] => empty
  | c :: s => seq (one c) (literal s)

/-- One or more. -/
def plus (p : Pattern) : Pattern := seq p (star p)

/-- At most one. -/
def opt (p : Pattern) : Pattern := alt p empty

/-- All of them, in order. -/
def seqs : List Pattern → Pattern
  | [] => empty
  | p :: ps => seq p (seqs ps)

/-- One of them, the first ones preferred. -/
def alts : List Pattern → Pattern
  | [] => char fun _ => false
  | [p] => p
  | p :: q :: ps => alt p (alts (q :: ps))

/-- Repeat a step that moves on, as often as possible, at most `n` times. -/
def repeatStep (step : Cursor → List Cursor) : ℕ → Cursor → List Cursor
  | 0, c => [c]
  | n + 1, c =>
    ((step c).filter fun d => d.after.length < c.after.length).flatMap (repeatStep step n) ++ [c]

/-- Is `c` between a word character and something else? -/
def isBoundary (isWord : Char → Bool) (c : Cursor) : Bool :=
  (c.before.head?.any isWord) != (c.after.head?.any isWord)

/-- The cursors at which a pattern can stop, the preferred one first. -/
def run : Pattern → Cursor → List Cursor
  | empty, c => [c]
  | char p, c =>
    match c.after with
    | [] => []
    | x :: s => if p x then [⟨x :: c.before, s, c.groups⟩] else []
  | seq p q, c => (p.run c).flatMap q.run
  | alt p q, c => p.run c ++ q.run c
  | star p, c => repeatStep p.run c.after.length c
  | group k p, c => (p.run c).map fun d => { d with groups := (k, c.between d) :: d.groups }
  | boundary w, c => if isBoundary w c then [c] else []
  | atStart, c => if c.before = [] then [c] else []
  | atEnd, c => if c.after = [] ∨ c.after = ['\n'] then [c] else []

/-- Match at the start of the text. -/
def matchStart (p : Pattern) (s : Text) : Option Cursor := (p.run (Cursor.start s)).head?

/-- Match the whole text. -/
def fullMatch (p : Pattern) (s : Text) : Option Cursor :=
  (p.run (Cursor.start s)).find? fun c => c.after = []

/-- The leftmost match at or after a cursor, with its start, looking at `n` places at most. -/
def searchFrom (p : Pattern) : ℕ → Cursor → Option (Cursor × Cursor)
  | 0, c => (p.run c).head?.map fun d => (c, d)
  | n + 1, c =>
    match (p.run c).head? with
    | some d => some (c, d)
    | none =>
      match c.after with
      | [] => none
      | x :: s => searchFrom p n ⟨x :: c.before, s, []⟩

/-- The leftmost match, with its start. -/
def search (p : Pattern) (s : Text) : Option (Cursor × Cursor) :=
  searchFrom p s.length (Cursor.start s)

/-- The matches from a cursor on, each with its start, without overlaps, `n` at most. -/
def findAllFrom (p : Pattern) : ℕ → Cursor → List (Cursor × Cursor)
  | 0, _ => []
  | n + 1, c =>
    match searchFrom p c.after.length c with
    | none => []
    | some (start, stop) =>
      if stop.after.length < start.after.length then
        (start, stop) :: findAllFrom p n { stop with groups := [] }
      else
        -- an empty match: go on behind the next character
        match start.after with
        | [] => [(start, stop)]
        | x :: s => (start, stop) :: findAllFrom p n ⟨x :: start.before, s, []⟩

/-- The matches in a text, each with its start. -/
def findAll (p : Pattern) (s : Text) : List (Cursor × Cursor) :=
  findAllFrom p (s.length + 1) (Cursor.start s)

/-- The texts of the matches. -/
def findTexts (p : Pattern) (s : Text) : List Text :=
  (p.findAll s).map fun m => m.1.between m.2

/-- Replace every match. -/
def replaceAll (p : Pattern) (rep : Cursor → Text) (s : Text) : Text :=
  let step := fun (r : Text × Cursor) (m : Cursor × Cursor) =>
    (r.1 ++ r.2.between m.1 ++ rep m.2, m.2)
  let r := (p.findAll s).foldl step ([], Cursor.start s)
  r.1 ++ r.2.after

end Pattern

end Csc512
