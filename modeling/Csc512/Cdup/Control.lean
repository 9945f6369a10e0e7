import Csc512.Cdup.SegmentTree
import Csc512.Cdup.VmState

/-!
# Running segments

The control part of the interpreter. It runs the statements of a segment one after the other, and
gives the next child of the segment to every branch and every loop that it comes to. Only the kind
of a statement decides whether it takes a child.

What single statements do is a parameter, `Handlers`, over any type of states; so is how a child is
run. The interpreter itself is one choice of these, and a run with a log is another one.

## Main results

* `execStmts_append` — a list of statements runs like its parts
* `logged_execStmts` — runs with a log do what runs without do
-/

namespace Csc512

/-- What statements do apart from running other segments. Every statement is handed its frame and
its segment, and most of them the iteration of the loop around. -/
structure Handlers (σ : Type) where
  eval : ℕ → Segment → Expr → Exec σ Stop Value
  truthy : Value → Exec σ Stop Bool
  snapReads : ℕ → List Text → Exec σ Stop (Dict Text Snapshot)
  recordTaken : Statement → Segment → Option ℕ → Dict Text Snapshot → Bool → Exec σ Stop Unit
  execDeclAssign : Statement → ℕ → Segment → Option ℕ → Exec σ Stop Unit
  execControl : Statement → ℕ → Segment → Option ℕ → Exec σ Stop Unit
  execCallStmt : Statement → ℕ → Segment → Option ℕ → Exec σ Stop Unit
  execExprStmt : Statement → ℕ → Segment → Option ℕ → Exec σ Stop Unit
  forInit : Statement → Text → ℕ → Exec σ Stop Unit
  execUpdate : Text → ℕ → Segment → Exec σ Stop Unit
  capUnroll : Exec σ Stop Unit

/-- What the control part knows of a program: its segments, and the bound of its loops. -/
structure Program where
  segments : List Segment
  maxUnroll : ℕ

/-! ### Clauses of `for` headers -/

/-- The number of characters up to the parenthesis that closes `depth` open ones. -/
def closingParen : ℕ → Text → ℕ
  | _, [] => 0
  | depth, c :: s =>
    let depth := if c = '(' then depth + 1 else if c = ')' then depth - 1 else depth
    if depth = 0 then 1 else closingParen depth s + 1

/-- The update clause of a `for` header. -/
def extractForUpdate (raw : Text) : Option Text :=
  let s := strip raw
  if startsWith s (lit "for") ∧ '(' ∈ s then
    let rest := s.drop (s.idxOf '(' + 1)
    (cut [';'] (rest.take (closingParen 1 rest - 1))).bind fun p =>
      (cut [';'] p.2).map fun p => strip p.2
  else none

/-! ### Branches and loops -/

section Control

variable {σ : Type} (P : Program) (H : Handlers σ)
  (run : Segment → ℕ → Option ℕ → Exec σ Stop Unit)

/-- The segment with an id. -/
def lookupSegment (id : ℕ) : Exec σ Stop Segment :=
  match segById P.segments id with
  | some seg => pure seg
  | none => raise .keyError

/-- The truth of a condition, `missing` where there is none. -/
def evalCond (expr : Option Expr) (missing : Bool) (frame : ℕ) (seg : Segment) :
    Exec σ Stop Bool :=
  match expr with
  | some e => do
    let v ← H.eval frame seg e
    H.truthy v
  | none => pure missing

/-- Evaluate the condition of a branch, and record it. -/
def testBranch (stmt : Statement) (frame : ℕ) (seg : Segment) (iteration : Option ℕ) :
    Exec σ Stop Bool := do
  let cond ← evalCond H stmt.expr true frame seg
  let snap ← H.snapReads frame stmt.rNames
  H.recordTaken stmt seg iteration snap cond
  pure cond

/-- Run a branch on the next child, if there is one. What is returned are the children left. -/
def execBranchStmt (stmt : Statement) (frame : ℕ) (seg : Segment) (iteration : Option ℕ) :
    List ℕ → Exec σ Stop (List ℕ)
  | [] => pure []
  | c :: children => do
    let child ← lookupSegment P c
    let cond ← testBranch H stmt frame seg iteration
    if cond then run child frame iteration
    pure children

/-- Evaluate the condition of a loop, and record it. -/
def testLoop (stmt : Statement) (frame : ℕ) (seg : Segment) (iters : ℕ) : Exec σ Stop Bool := do
  let snap ← H.snapReads frame stmt.rNames
  let cond ← evalCond H stmt.expr false frame seg
  H.recordTaken stmt seg (some iters) snap cond
  pure cond

/-- Run the body of a loop once, and tell whether it did not break. -/
def runBody (body : Exec σ Stop Unit) : Exec σ Stop Bool := do
  match ← body.outcome with
  | .ok () => pure true
  | .error .continued => pure true
  | .error .broke => pure false
  | .error e => Exec.stop e

/-- Run a loop from iteration number `iters` on, for `n` iterations at most. -/
def execLoopFrom (stmt : Statement) (body : Segment) (frame : ℕ) (seg : Segment)
    (doWhile : Bool) (update : Option Text) : ℕ → ℕ → Exec σ Stop Unit
  | _, 0 => H.capUnroll
  | iters, n + 1 =>
    if doWhile then do
      let goesOn ← runBody (run body frame (some iters))
      if goesOn then
        let cond ← testLoop H stmt frame seg iters
        if cond then execLoopFrom stmt body frame seg doWhile update (iters + 1) n
        else pure ()
      else pure ()
    else do
      let cond ← testLoop H stmt frame seg iters
      if cond then
        let goesOn ← runBody (run body frame (some iters))
        if goesOn then
          match update with
          | some src => H.execUpdate src frame seg
          | none => pure ()
          execLoopFrom stmt body frame seg doWhile update (iters + 1) n
        else pure ()
      else pure ()

/-- Initialise the variable that the header of a `for` loop declares. -/
def initLoop (stmt : Statement) (frame : ℕ) : Exec σ Stop Unit :=
  match stmt.lName with
  | some name =>
    if startsWith (strip stmt.raw) (lit "for") ∧ name ≠ [] then H.forInit stmt name frame
    else pure ()
  | none => pure ()

/-- Run a loop. -/
def execLoop (stmt : Statement) (body : Segment) (frame : ℕ) (seg : Segment) :
    Exec σ Stop Unit := do
  initLoop H stmt frame
  execLoopFrom H run stmt body frame seg (startsWith (strip stmt.raw) (lit "do"))
    ((extractForUpdate stmt.raw).filter (· ≠ [])) 0 P.maxUnroll

/-! ### Statements and segments -/

/-- Run a statement, with the children that are left, and return those that are left then. -/
def execStmt (stmt : Statement) (frame : ℕ) (seg : Segment) (iteration : Option ℕ)
    (children : List ℕ) : Exec σ Stop (List ℕ) :=
  match stmt.kind with
  | .decl | .assign => do
    H.execDeclAssign stmt frame seg iteration
    pure children
  | .control => do
    H.execControl stmt frame seg iteration
    pure children
  | .call => do
    H.execCallStmt stmt frame seg iteration
    pure children
  | .loopHead =>
    match children with
    | [] => raise .stopIteration
    | c :: children => do
      let body ← lookupSegment P c
      execLoop P H run stmt body frame seg
      pure children
  | .branch => execBranchStmt P H run stmt frame seg iteration children
  | .expr => do
    H.execExprStmt stmt frame seg iteration
    pure children
  | .funcDecl => pure children

/-- Run some statements of a segment. -/
def execStmts (frame : ℕ) (seg : Segment) (iteration : Option ℕ) :
    List Statement → List ℕ → Exec σ Stop (List ℕ)
  | [], children => pure children
  | stmt :: stmts, children => do
    let children ← execStmt P H run stmt frame seg iteration children
    execStmts frame seg iteration stmts children

/-- Run a segment. -/
def execSeg (seg : Segment) (frame : ℕ) (iteration : Option ℕ) : Exec σ Stop Unit := do
  let _ ← execStmts P H run frame seg iteration seg.stmts (buildChildren P.segments seg.id)
  pure ()

variable {P H run}

theorem execStmts_append (frame : ℕ) (seg : Segment) (iteration : Option ℕ)
    (stmts stmts' : List Statement) (children : List ℕ) :
    execStmts P H run frame seg iteration (stmts ++ stmts') children
      = execStmts P H run frame seg iteration stmts children >>=
        execStmts P H run frame seg iteration stmts' := by
  induction stmts generalizing children with
  | nil => rfl
  | cons stmt stmts ih =>
    rw [List.cons_append, execStmts, execStmts, bind_assoc]
    exact bind_congr ih

end Control

/-! ### Runs with a log -/

section Log

open Exec

variable {σ : Type} (γ : Type) (H : Handlers σ)

/-- Handlers that leave a log alone. -/
def Handlers.lift : Handlers (σ × γ) where
  eval frame seg e := Exec.lift γ (H.eval frame seg e)
  truthy v := Exec.lift γ (H.truthy v)
  snapReads frame names := Exec.lift γ (H.snapReads frame names)
  recordTaken stmt seg it snap taken := Exec.lift γ (H.recordTaken stmt seg it snap taken)
  execDeclAssign stmt frame seg it := Exec.lift γ (H.execDeclAssign stmt frame seg it)
  execControl stmt frame seg it := Exec.lift γ (H.execControl stmt frame seg it)
  execCallStmt stmt frame seg it := Exec.lift γ (H.execCallStmt stmt frame seg it)
  execExprStmt stmt frame seg it := Exec.lift γ (H.execExprStmt stmt frame seg it)
  forInit stmt name frame := Exec.lift γ (H.forInit stmt name frame)
  execUpdate src frame seg := Exec.lift γ (H.execUpdate src frame seg)
  capUnroll := Exec.lift γ H.capUnroll

variable {γ H} {P : Program} {run : Segment → ℕ → Option ℕ → Exec σ Stop Unit}
  {logRun : Segment → ℕ → Option ℕ → Exec (σ × List γ) Stop Unit}

theorem logged_lookupSegment (id : ℕ) :
    Logged (γ := γ) (lookupSegment P id) (lookupSegment P id : Exec σ Stop Segment) := by
  unfold lookupSegment
  cases segById P.segments id with
  | none => exact logged_stop _
  | some seg => exact logged_pure seg

theorem evalCond_lift (expr : Option Expr) (missing : Bool) (frame : ℕ) (seg : Segment) :
    evalCond (H.lift γ) expr missing frame seg = lift γ (evalCond H expr missing frame seg) := by
  cases expr with
  | none => rfl
  | some e => exact (lift_bind _ _).symm

theorem testBranch_lift (stmt : Statement) (frame : ℕ) (seg : Segment) (it : Option ℕ) :
    testBranch (H.lift γ) stmt frame seg it = lift γ (testBranch H stmt frame seg it) := by
  simp only [testBranch, evalCond_lift, lift_bind, lift_pure]
  rfl

theorem testLoop_lift (stmt : Statement) (frame : ℕ) (seg : Segment) (iters : ℕ) :
    testLoop (H.lift γ) stmt frame seg iters = lift γ (testLoop H stmt frame seg iters) := by
  simp only [testLoop, evalCond_lift, lift_bind, lift_pure]
  rfl

theorem logged_testBranch (stmt : Statement) (frame : ℕ) (seg : Segment) (it : Option ℕ) :
    Logged (testBranch (H.lift (List γ)) stmt frame seg it) (testBranch H stmt frame seg it) :=
  testBranch_lift (H := H) stmt frame seg it ▸ logged_lift _

theorem logged_testLoop (stmt : Statement) (frame : ℕ) (seg : Segment) (iters : ℕ) :
    Logged (testLoop (H.lift (List γ)) stmt frame seg iters) (testLoop H stmt frame seg iters) :=
  testLoop_lift (H := H) stmt frame seg iters ▸ logged_lift _

theorem logged_runBody {body : Exec σ Stop Unit} {logBody : Exec (σ × List γ) Stop Unit}
    (h : Logged logBody body) : Logged (runBody logBody) (runBody body) := by
  refine h.outcome.bind fun r => ?_
  rcases r with (_ | _ | _ | _ | _) | _
  case error.broke => exact logged_pure false
  case error.continued => exact logged_pure true
  case ok => exact logged_pure true
  all_goals exact logged_stop _

variable (hrun : ∀ seg frame it, Logged (logRun seg frame it) (run seg frame it))

include hrun

theorem logged_execBranchStmt (stmt : Statement) (frame : ℕ) (seg : Segment) (it : Option ℕ)
    (children : List ℕ) :
    Logged (execBranchStmt P (H.lift (List γ)) logRun stmt frame seg it children)
      (execBranchStmt P H run stmt frame seg it children) := by
  cases children with
  | nil => exact logged_pure []
  | cons c children =>
    refine (logged_lookupSegment c).bind fun child => ?_
    refine (logged_testBranch _ _ _ _).bind fun cond => ?_
    cases cond with
    | false => exact logged_pure children
    | true => exact (hrun child frame it).bind fun _ => logged_pure children

theorem logged_execLoopFrom (stmt : Statement) (body : Segment) (frame : ℕ) (seg : Segment)
    (doWhile : Bool) (update : Option Text) (iters n : ℕ) :
    Logged (execLoopFrom (H.lift (List γ)) logRun stmt body frame seg doWhile update iters n)
      (execLoopFrom H run stmt body frame seg doWhile update iters n) := by
  induction n generalizing iters with
  | zero => exact logged_lift _
  | succ n ih =>
    have hbody := logged_runBody (hrun body frame (some iters))
    cases doWhile with
    | true =>
      refine hbody.bind fun goesOn => ?_
      cases goesOn with
      | false => exact logged_pure ()
      | true =>
        refine (logged_testLoop _ _ _ _).bind fun cond => ?_
        cases cond with
        | false => exact logged_pure ()
        | true => exact ih (iters + 1)
    | false =>
      refine (logged_testLoop _ _ _ _).bind fun cond => ?_
      cases cond with
      | false => exact logged_pure ()
      | true =>
        refine hbody.bind fun goesOn => ?_
        cases goesOn with
        | false => exact logged_pure ()
        | true =>
          cases update with
          | none => exact ih (iters + 1)
          | some src => exact (logged_lift _).bind fun _ => ih (iters + 1)

theorem logged_execLoop (stmt : Statement) (body : Segment) (frame : ℕ) (seg : Segment) :
    Logged (execLoop P (H.lift (List γ)) logRun stmt body frame seg)
      (execLoop P H run stmt body frame seg) := by
  refine Logged.bind ?_ fun _ => logged_execLoopFrom hrun stmt body frame seg _ _ _ _
  unfold initLoop
  cases stmt.lName with
  | none => exact logged_pure ()
  | some name =>
    show Logged (ite _ _ _) (ite _ _ _)
    split
    · exact logged_lift _
    · exact logged_pure ()

theorem logged_execStmt (stmt : Statement) (frame : ℕ) (seg : Segment) (it : Option ℕ)
    (children : List ℕ) :
    Logged (execStmt P (H.lift (List γ)) logRun stmt frame seg it children)
      (execStmt P H run stmt frame seg it children) := by
  unfold execStmt
  cases stmt.kind with
  | decl | assign | control | call | expr =>
    exact (logged_lift _).bind fun _ => logged_pure children
  | funcDecl => exact logged_pure children
  | branch => exact logged_execBranchStmt hrun stmt frame seg it children
  | loopHead =>
    cases children with
    | nil => exact logged_stop _
    | cons c children =>
      exact (logged_lookupSegment c).bind fun body =>
        (logged_execLoop hrun stmt body frame seg).bind fun _ => logged_pure children

/-- **A run with a log** does what the run without does. -/
theorem logged_execStmts (frame : ℕ) (seg : Segment) (it : Option ℕ) (stmts : List Statement)
    (children : List ℕ) :
    Logged (execStmts P (H.lift (List γ)) logRun frame seg it stmts children)
      (execStmts P H run frame seg it stmts children) := by
  induction stmts generalizing children with
  | nil => exact logged_pure children
  | cons stmt stmts ih => exact (logged_execStmt hrun stmt frame seg it children).bind ih

end Log

end Csc512
