import Csc512.Lib.Text
import Mathlib.Data.Int.Notation

/-!
# Splitting a segment into statements

The parser's hand-written scanner. It reads the text of a segment from left to right and collects
the current statement until a `;` or a block placeholder `{}` ends it. Nothing but parentheses is
recognised inside parentheses: quotes, comment marks, placeholders and semicolons only count at
`depth` zero.

The loops of the source over literals, comments and the tail of a `do` loop are modes here, so that
one step reads one glyph. Where the source moves on by two characters, the second one is read in
the mode `skip`.
-/

namespace Csc512

/-- Which statements beside code the parser keeps. -/
structure Includes where
  comments : Bool := false
  includes : Bool := false
  macros : Bool := false

/-- What the scanner is in the middle of. -/
inductive Mode (α : Type*) where
  | code
  | literal (quote : Char)
  | escape (quote : Char)
  | lineComment (comment : List α)
  | blockComment (comment : List α)
  | doTail (pendingDo tail : List α)
  | skip (next : Mode α)

/-- The state of the scanner. -/
structure Splitter (α : Type*) where
  statements : List (List α)
  current : List α
  depth : ℤ
  mode : Mode α

variable {α : Type*} [Glyph α]

namespace Splitter

variable (opts : Includes)

/-- Add a statement, unless it is empty or a preprocessor line that is left out. -/
def addStatement (S : Splitter α) (stmt : List α) : Splitter α :=
  if stmt.isEmpty then S
  else if startsWith stmt (lit "#") then
    let isInc := startsWith (lstrip (stmt.drop 1)) (lit "include")
    if isInc ∧ ¬ opts.includes then S
    else if ¬ isInc ∧ ¬ opts.macros then S
    else { S with statements := S.statements ++ [stmt] }
  else { S with statements := S.statements ++ [stmt] }

/-- Add the current statement and begin a new one. -/
def flush (S : Splitter α) : Splitter α :=
  { S.addStatement opts (strip S.current) with current := [] }

/-- Add a comment that is complete. -/
def addComment (S : Splitter α) (comment : List α) : Splitter α :=
  if opts.comments ∧ ¬ (strip comment).isEmpty then
    { S with statements := S.statements ++ [strip comment] }
  else S

/-- Is the current statement the beginning of a `do` loop? -/
def isDo (current : List α) : Bool :=
  text (strip current) = lit "do" || startsWith (strip current) (lit "do ") ||
    startsWith (strip current) (lit "do\x7b") || startsWith (strip current) (lit "do\n")

/-- Add a `do` loop with the tail that follows its block. -/
def addDo (S : Splitter α) (pendingDo tail : List α) : Splitter α :=
  if startsWith (strip tail) (lit "while") then
    S.addStatement opts (pendingDo ++ Glyph.ofChar ' ' :: strip tail)
  else (S.addStatement opts pendingDo).addStatement opts (strip tail)

/-- Read a glyph outside literals, comments and tails; `next` is the glyph behind it. -/
def readCode (S : Splitter α) (c : α) (next : Option α) : Splitter α :=
  let is := fun x => Glyph.char c = x
  let nextIs := fun x => next.map Glyph.char = some x
  if is '"' ∧ S.depth = 0 then
    { S with current := S.current ++ [c], mode := .literal '"' }
  else if is '\'' ∧ S.depth = 0 then
    { S with current := S.current ++ [c], mode := .literal '\'' }
  else if is '/' ∧ nextIs '/' ∧ S.depth = 0 then
    { S.flush opts with mode := .lineComment [c] }
  else if is '/' ∧ nextIs '*' ∧ S.depth = 0 then
    { S.flush opts with mode := .blockComment [c] }
  else if is '(' then
    { S with current := S.current ++ [c], depth := S.depth + 1 }
  else if is ')' then
    { S with current := S.current ++ [c], depth := S.depth - 1 }
  else if is '{' ∧ nextIs '}' ∧ S.depth = 0 then
    let current := S.current ++ c :: next.toList
    if isDo current then
      { S with current := [], mode := .skip (.doTail (strip current) []) }
    else { { S with current := current }.flush opts with mode := .skip .code }
  else if is ';' ∧ S.depth = 0 then
    { S with current := S.current ++ [c] }.flush opts
  else if is '\n' ∧ S.depth = 0 ∧ startsWith (strip S.current) (lit "#") then
    S.flush opts
  else { S with current := S.current ++ [c] }

/-- Read one glyph; `next` is the glyph behind it. -/
def read (S : Splitter α) (c : α) (next : Option α) : Splitter α :=
  match S.mode with
  | .code => S.readCode opts c next
  | .literal quote =>
    let S := { S with current := S.current ++ [c] }
    if Glyph.char c = '\\' then { S with mode := .escape quote }
    else if Glyph.char c = quote then { S with mode := .code }
    else S
  | .escape quote => { S with current := S.current ++ [c], mode := .literal quote }
  | .lineComment comment =>
    -- the line break is read again as code
    if Glyph.char c = '\n' then
      { S.addComment opts comment with mode := .code }.readCode opts c next
    else { S with mode := .lineComment (comment ++ [c]) }
  | .blockComment comment =>
    if Glyph.char c = '*' ∧ next.map Glyph.char = some '/' then
      { S.addComment opts (comment ++ c :: next.toList) with mode := .skip .code }
    else { S with mode := .blockComment (comment ++ [c]) }
  | .doTail pendingDo tail =>
    let tail' := tail ++ [c]
    if Glyph.char c = '(' then
      { S with depth := S.depth + 1, mode := .doTail pendingDo tail' }
    else if Glyph.char c = ')' then
      { S with depth := S.depth - 1, mode := .doTail pendingDo tail' }
    else if Glyph.char c = ';' ∧ S.depth = 0 then
      { S.addDo opts pendingDo tail' with mode := .code }
    else { S with mode := .doTail pendingDo tail' }
  | .skip next => { S with mode := next }

/-- Read a text. -/
def run (S : Splitter α) : List α → Splitter α
  | [] => S
  | c :: s => (S.read opts c s.head?).run s

/-- The statements at the end of the text. -/
def finish (S : Splitter α) : List (List α) :=
  match S.mode with
  | .lineComment comment => ((S.addComment opts comment).flush opts).statements
  | .blockComment comment => ((S.addComment opts comment).flush opts).statements
  | .doTail pendingDo tail => ((S.addDo opts pendingDo tail).flush opts).statements
  | _ => (S.flush opts).statements

end Splitter

/-- The statements of a segment. -/
def parseStatements (opts : Includes) (seg : List α) : List (List α) :=
  ((⟨[], [], 0, .code⟩ : Splitter α).run opts seg).finish opts

/-! ### The branches of a step -/

namespace Splitter

variable (opts : Includes)

/-- **What reading a glyph in code can do**, and when. -/
@[elab_as_elim]
theorem readCode_cases {motive : Splitter α → Prop} (S : Splitter α) (c : α) (next : Option α)
    (literal : ∀ quote ∈ ['"', '\''], Glyph.char c = quote → S.depth = 0 →
      motive { S with current := S.current ++ [c], mode := .literal quote })
    (lineComment : Glyph.char c = '/' → next.map Glyph.char = some '/' → S.depth = 0 →
      motive { S.flush opts with mode := .lineComment [c] })
    (blockComment : Glyph.char c = '/' → next.map Glyph.char = some '*' → S.depth = 0 →
      motive { S.flush opts with mode := .blockComment [c] })
    (opening : Glyph.char c = '(' →
      motive { S with current := S.current ++ [c], depth := S.depth + 1 })
    (closing : Glyph.char c = ')' →
      motive { S with current := S.current ++ [c], depth := S.depth - 1 })
    (doBlock : Glyph.char c = '{' → next.map Glyph.char = some '}' → S.depth = 0 →
      isDo (S.current ++ c :: next.toList) →
      motive { S with
        current := [], mode := .skip (.doTail (strip (S.current ++ c :: next.toList)) []) })
    (block : Glyph.char c = '{' → next.map Glyph.char = some '}' → S.depth = 0 →
      ¬ isDo (S.current ++ c :: next.toList) →
      motive { { S with current := S.current ++ c :: next.toList }.flush opts with
        mode := .skip .code })
    (semicolon : Glyph.char c = ';' → S.depth = 0 →
      motive ({ S with current := S.current ++ [c] }.flush opts))
    (directive : startsWith (strip S.current) (lit "#") → motive (S.flush opts))
    (other : Glyph.char c ≠ '(' → Glyph.char c ≠ ')' →
      (S.depth = 0 → Glyph.char c ∉ ['"', '\'', ';'] ∧
        (Glyph.char c = '/' → next.map Glyph.char ∉ [some '/', some '*']) ∧
        (Glyph.char c = '{' → next.map Glyph.char ≠ some '}')) →
      motive { S with current := S.current ++ [c] }) :
    motive (S.readCode opts c next) := by
  rw [readCode]
  refine iteInduction (fun h => literal '"' (by simp) h.1 h.2) fun hdouble => ?_
  refine iteInduction (fun h => literal '\'' (by simp) h.1 h.2) fun hsingle => ?_
  refine iteInduction (fun h => lineComment h.1 h.2.1 h.2.2) fun hline => ?_
  refine iteInduction (fun h => blockComment h.1 h.2.1 h.2.2) fun hblock => ?_
  refine iteInduction opening fun hopen => ?_
  refine iteInduction closing fun hclose => ?_
  refine iteInduction (fun h => iteInduction (doBlock h.1 h.2.1 h.2.2) (block h.1 h.2.1 h.2.2))
    fun hplace => ?_
  refine iteInduction (fun h => semicolon h.1 h.2) fun hend => ?_
  refine iteInduction (fun h => directive h.2.2) fun _ => other hopen hclose fun hdepth => ?_
  refine ⟨?_, ?_, fun hc hnext => hplace ⟨hc, hnext, hdepth⟩⟩
  · simp only [List.mem_cons, List.not_mem_nil, or_false, not_or]
    exact ⟨fun hc => hdouble ⟨hc, hdepth⟩, fun hc => hsingle ⟨hc, hdepth⟩,
      fun hc => hend ⟨hc, hdepth⟩⟩
  · simp only [List.mem_cons, List.not_mem_nil, or_false, not_or]
    exact fun hc => ⟨fun hnext => hline ⟨hc, hnext, hdepth⟩,
      fun hnext => hblock ⟨hc, hnext, hdepth⟩⟩

end Splitter

/-! ### No statement is blank -/

/-- Some glyph of the text is not white space. -/
def HasInk (s : List α) : Prop := ∃ c ∈ s, ¬ isSpace (Glyph.char c)

theorem hasInk_strip {s : List α} (h : strip s ≠ []) : HasInk (strip s) :=
  ⟨_, List.getLast_mem h, List.rdropWhile_last_not _ _ h⟩

theorem HasInk.append {s t : List α} (h : HasInk s) : HasInk (s ++ t) :=
  h.imp fun _ hc => ⟨List.mem_append_left _ hc.1, hc.2⟩

/-- A `do` loop that waits for its tail is not blank. -/
def Mode.Inked : Mode α → Prop
  | .doTail pendingDo _ => HasInk pendingDo
  | .skip next => next.Inked
  | _ => True

namespace Splitter

/-- No statement so far is blank. -/
structure Inked (S : Splitter α) : Prop where
  statements : ∀ stmt ∈ S.statements, HasInk stmt
  mode : S.mode.Inked

variable (opts : Includes) {S : Splitter α}

theorem Inked.addStatement (h : S.Inked) {stmt : List α} (hstmt : stmt ≠ [] → HasInk stmt) :
    (S.addStatement opts stmt).Inked ∧ (S.addStatement opts stmt).mode = S.mode := by
  have hadd : stmt ≠ [] → ∀ s ∈ S.statements ++ [stmt], HasInk s := by
    intro hne s hs
    rcases List.mem_append.mp hs with hs | hs
    · exact h.statements s hs
    · obtain rfl := List.mem_singleton.mp hs
      exact hstmt hne
  rw [Splitter.addStatement]
  by_cases hempty : stmt.isEmpty
  · rw [if_pos hempty]
    exact ⟨h, rfl⟩
  · rw [if_neg hempty]
    have hne : stmt ≠ [] := fun heq => hempty (List.isEmpty_iff.mpr heq)
    have hkept : ({ S with statements := S.statements ++ [stmt] } : Splitter α).Inked ∧
        S.mode = S.mode := ⟨⟨hadd hne, h.mode⟩, rfl⟩
    split
    · dsimp only
      split_ifs
      · exact ⟨h, rfl⟩
      · exact ⟨h, rfl⟩
      · exact hkept
    · exact hkept

theorem Inked.flush (h : S.Inked) : (S.flush opts).Inked ∧ (S.flush opts).mode = S.mode := by
  obtain ⟨hadd, hmode⟩ := h.addStatement opts (hasInk_strip (s := S.current))
  exact ⟨⟨hadd.statements, hadd.mode⟩, hmode⟩

theorem Inked.addComment (h : S.Inked) (comment : List α) :
    (S.addComment opts comment).Inked := by
  rw [Splitter.addComment]
  split_ifs with hcomment
  · refine ⟨fun stmt hstmt => ?_, h.mode⟩
    rcases List.mem_append.mp hstmt with hstmt | hstmt
    · exact h.statements stmt hstmt
    · obtain rfl := List.mem_singleton.mp hstmt
      exact hasInk_strip fun heq => hcomment.2 (List.isEmpty_iff.mpr heq)
  · exact h

theorem Inked.addDo (h : S.Inked) {pendingDo : List α} (hdo : HasInk pendingDo) (tail : List α) :
    (S.addDo opts pendingDo tail).Inked := by
  rw [Splitter.addDo]
  split_ifs
  · exact (h.addStatement opts fun _ => hdo.append).1
  · exact ((h.addStatement opts fun _ => hdo).1.addStatement opts hasInk_strip).1

theorem hasInk_of_isDo {current : List α} (h : isDo current) : HasInk (strip current) := by
  refine hasInk_strip fun heq => ?_
  rw [isDo, heq] at h
  simp [text, startsWith] at h

theorem Inked.readCode (h : S.Inked) (hmode : S.mode = .code) (c : α) (next : Option α) :
    (S.readCode opts c next).Inked := by
  have hflush : ∀ current, ({ S with current := current }.flush opts).Inked ∧
      ({ S with current := current }.flush opts).mode = .code := by
    intro current
    have hS : ({ S with current := current } : Splitter α).Inked := ⟨h.statements, h.mode⟩
    exact ⟨(hS.flush opts).1, (hS.flush opts).2.trans hmode⟩
  refine readCode_cases opts S c next ?literal ?lineComment ?blockComment ?opening ?closing ?doBlock
    ?block ?semicolon ?directive ?other
  case literal => exact fun quote _ _ _ => ⟨h.statements, trivial⟩
  case lineComment => exact fun _ _ _ => ⟨(hflush S.current).1.statements, trivial⟩
  case blockComment => exact fun _ _ _ => ⟨(hflush S.current).1.statements, trivial⟩
  case opening => exact fun _ => ⟨h.statements, h.mode⟩
  case closing => exact fun _ => ⟨h.statements, h.mode⟩
  case doBlock => exact fun _ _ _ hdo => ⟨h.statements, hasInk_of_isDo hdo⟩
  case block => exact fun _ _ _ _ => ⟨(hflush _).1.statements, trivial⟩
  case semicolon => exact fun _ _ => (hflush _).1
  case directive => exact fun _ => (hflush S.current).1
  case other => exact fun _ _ _ => ⟨h.statements, h.mode⟩

theorem Inked.read (h : S.Inked) (c : α) (next : Option α) : (S.read opts c next).Inked := by
  obtain ⟨statements, current, depth, mode⟩ := S
  cases mode with
  | code => exact h.readCode opts rfl c next
  | literal quote =>
    exact iteInduction (fun _ => ⟨h.statements, trivial⟩) fun _ =>
      iteInduction (fun _ => ⟨h.statements, trivial⟩) fun _ => ⟨h.statements, trivial⟩
  | escape quote => exact ⟨h.statements, trivial⟩
  | lineComment comment =>
    have hcode : ({ (⟨statements, current, depth, .lineComment comment⟩ :
        Splitter α).addComment opts comment with mode := .code } : Splitter α).Inked :=
      ⟨(h.addComment opts comment).statements, trivial⟩
    exact iteInduction (fun _ => hcode.readCode opts rfl c next) fun _ => ⟨h.statements, trivial⟩
  | blockComment comment =>
    exact iteInduction (fun _ => ⟨(h.addComment opts _).statements, trivial⟩)
      fun _ => ⟨h.statements, trivial⟩
  | doTail pendingDo tail =>
    refine iteInduction (fun _ => ⟨h.statements, h.mode⟩) fun _ => ?_
    refine iteInduction (fun _ => ⟨h.statements, h.mode⟩) fun _ => ?_
    exact iteInduction (fun _ => ⟨(h.addDo opts h.mode _).statements, trivial⟩)
      fun _ => ⟨h.statements, h.mode⟩
  | skip next => exact ⟨h.statements, h.mode⟩

theorem Inked.run (h : S.Inked) (s : List α) : (S.run opts s).Inked := by
  induction s generalizing S with
  | nil => exact h
  | cons c s ih => exact ih (h.read opts c s.head?)

theorem Inked.finish (h : S.Inked) : ∀ stmt ∈ S.finish opts, HasInk stmt := by
  obtain ⟨statements, current, depth, mode⟩ := S
  cases mode with
  | lineComment comment => exact ((h.addComment opts comment).flush opts).1.statements
  | blockComment comment => exact ((h.addComment opts comment).flush opts).1.statements
  | doTail pendingDo tail => exact ((h.addDo opts h.mode tail).flush opts).1.statements
  | _ => exact (h.flush opts).1.statements

end Splitter

/-- **No statement is blank.** -/
theorem hasInk_of_mem_parseStatements {opts : Includes} {seg stmt : List α}
    (h : stmt ∈ parseStatements opts seg) : HasInk stmt := by
  have hstart : (⟨[], [], 0, .code⟩ : Splitter α).Inked :=
    ⟨fun _ hs => absurd hs List.not_mem_nil, trivial⟩
  exact (hstart.run opts seg).finish opts stmt h

/-! ### Tests -/

example : parseStatements {} (lit "int x = 1; // one\nif (f(a;b)) {}\ndo {} while (x);\n#define A")
    = [lit "int x = 1;", lit "if (f(a;b)) {}", lit "do {} while (x);"] := by decide +kernel

example : parseStatements {} (lit "s = \";{}\"; c = '\\''; x++;")
    = [lit "s = \";{}\";", lit "c = '\\'';", lit "x++;"] := by decide +kernel

end Csc512
