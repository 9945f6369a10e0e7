import Csc512.Cdup.FrameCongruence
import Csc512.Cdup.Pairing

/-!
# Congruences of whole runs

A congruence goes from handlers to segments, and from there to runs with any amount of fuel. Two
programs are compared here that have the same segments, and may have different bounds for their
loops. Where the first one stops because of its bound, the second one may go on; what is asked then
is that stopping there is related to whatever the second one does.

## Main results

* `related_execSeg` — segments, with any handlers
* `related_execSeg_of_loops` — segments, when their loops are related
* `related_interp`, `related_callFn` — the interpreter
-/

namespace Csc512

open Exec

/-! ### Control -/

section Control

variable {σ : Type} {R : ∀ {α : Type}, Exec σ Stop α → Exec σ Stop α → Prop}

/-- Two ways to execute a statement are related. -/
structure HandlersRelated (R : ∀ {α : Type}, Exec σ Stop α → Exec σ Stop α → Prop)
    (H H' : Handlers σ) (stmt : Statement) : Prop where
  eval : stmt.kind = .branch ∨ stmt.kind = .loopHead → ∀ e, stmt.expr = some e →
    ∀ frame seg, R (H.eval frame seg e) (H'.eval frame seg e)
  truthy : ∀ v, R (H.truthy v) (H'.truthy v)
  snapReads : ∀ frame names, R (H.snapReads frame names) (H'.snapReads frame names)
  recordTaken : ∀ seg it snap taken, R (H.recordTaken stmt seg it snap taken)
    (H'.recordTaken stmt seg it snap taken)
  execDeclAssign : stmt.kind = .decl ∨ stmt.kind = .assign → ∀ frame seg it,
    R (H.execDeclAssign stmt frame seg it) (H'.execDeclAssign stmt frame seg it)
  execControl : stmt.kind = .control → ∀ frame seg it,
    R (H.execControl stmt frame seg it) (H'.execControl stmt frame seg it)
  execCallStmt : stmt.kind = .call → ∀ frame seg it,
    R (H.execCallStmt stmt frame seg it) (H'.execCallStmt stmt frame seg it)
  execExprStmt : stmt.kind = .expr → ∀ frame seg it,
    R (H.execExprStmt stmt frame seg it) (H'.execExprStmt stmt frame seg it)
  forInit : ∀ name frame, R (H.forInit stmt name frame) (H'.forInit stmt name frame)
  execUpdate : stmt.kind = .loopHead → ∀ src, extractForUpdate stmt.raw = some src →
    ∀ frame seg, R (H.execUpdate src frame seg) (H'.execUpdate src frame seg)

/-- Two ways to execute a statement are related in some frames. -/
structure HandlersOn (F : ℕ → Prop) (R : ∀ {α : Type}, Exec σ Stop α → Exec σ Stop α → Prop)
    (H H' : Handlers σ) (stmt : Statement) : Prop where
  eval : stmt.kind = .branch ∨ stmt.kind = .loopHead → ∀ e, stmt.expr = some e →
    ∀ frame, F frame → ∀ seg, R (H.eval frame seg e) (H'.eval frame seg e)
  truthy : ∀ v, R (H.truthy v) (H'.truthy v)
  snapReads : ∀ frame names, R (H.snapReads frame names) (H'.snapReads frame names)
  recordTaken : ∀ seg it snap taken, R (H.recordTaken stmt seg it snap taken)
    (H'.recordTaken stmt seg it snap taken)
  execDeclAssign : stmt.kind = .decl ∨ stmt.kind = .assign → ∀ frame, F frame → ∀ seg it,
    R (H.execDeclAssign stmt frame seg it) (H'.execDeclAssign stmt frame seg it)
  execControl : stmt.kind = .control → ∀ frame, F frame → ∀ seg it,
    R (H.execControl stmt frame seg it) (H'.execControl stmt frame seg it)
  execCallStmt : stmt.kind = .call → ∀ frame, F frame → ∀ seg it,
    R (H.execCallStmt stmt frame seg it) (H'.execCallStmt stmt frame seg it)
  execExprStmt : stmt.kind = .expr → ∀ frame, F frame → ∀ seg it,
    R (H.execExprStmt stmt frame seg it) (H'.execExprStmt stmt frame seg it)
  forInit : ∀ name frame, F frame → R (H.forInit stmt name frame) (H'.forInit stmt name frame)
  execUpdate : stmt.kind = .loopHead → ∀ src, extractForUpdate stmt.raw = some src →
    ∀ frame, F frame → ∀ seg, R (H.execUpdate src frame seg) (H'.execUpdate src frame seg)

theorem HandlersRelated.onFrames {H H' : Handlers σ} {stmt : Statement}
    (h : HandlersRelated R H H' stmt) : HandlersOn (fun _ => True) R H H' stmt where
  eval htakes e he frame _ := h.eval htakes e he frame
  truthy := h.truthy
  snapReads := h.snapReads
  recordTaken := h.recordTaken
  execDeclAssign hkind frame _ := h.execDeclAssign hkind frame
  execControl hkind frame _ := h.execControl hkind frame
  execCallStmt hkind frame _ := h.execCallStmt hkind frame
  execExprStmt hkind frame _ := h.execExprStmt hkind frame
  forInit name frame _ := h.forInit name frame
  execUpdate hkind src hsrc frame _ := h.execUpdate hkind src hsrc frame

theorem HandlersOn.related {H H' : Handlers σ} {stmt : Statement}
    (h : HandlersOn (fun _ => True) R H H' stmt) : HandlersRelated R H H' stmt where
  eval htakes e he frame := h.eval htakes e he frame trivial
  truthy := h.truthy
  snapReads := h.snapReads
  recordTaken := h.recordTaken
  execDeclAssign hkind frame := h.execDeclAssign hkind frame trivial
  execControl hkind frame := h.execControl hkind frame trivial
  execCallStmt hkind frame := h.execCallStmt hkind frame trivial
  execExprStmt hkind frame := h.execExprStmt hkind frame trivial
  forInit name frame := h.forInit name frame trivial
  execUpdate hkind src hsrc frame := h.execUpdate hkind src hsrc frame trivial

variable {F : ℕ → Prop} (hR : Congruence .outOfFuel R) {P P' : Program}
  {H H' : Handlers σ} {run run' : Segment → ℕ → Option ℕ → Exec σ Stop Unit}

include hR

theorem related_runBody {body body' : Exec σ Stop Unit} (h : R body body') :
    R (runBody body) (runBody body') := by
  refine hR.handle h (fun r hr => ?_) rfl rfl
  rcases r with (_ | _ | _ | _ | _) | a
  case error.broke => exact hR.pure false
  case error.continued => exact hR.pure true
  case error.outOfFuel => exact absurd rfl hr
  case ok => exact hR.pure true
  all_goals exact hR.stop nofun

variable {stmt : Statement} {frame : ℕ} (hF : F frame) (hstmt : HandlersOn F R H H' stmt)

include hF hstmt

theorem related_evalCond (htakes : stmt.kind = .branch ∨ stmt.kind = .loopHead) (missing : Bool)
    (seg : Segment) :
    R (evalCond H stmt.expr missing frame seg) (evalCond H' stmt.expr missing frame seg) := by
  have heval := hstmt.eval htakes
  revert heval
  cases stmt.expr with
  | none => exact fun _ => hR.pure missing
  | some e => exact fun heval => hR.bind (heval e rfl frame hF seg) hstmt.truthy

theorem related_testBranch (hkind : stmt.kind = .branch) (seg : Segment)
    (it : Option ℕ) : R (testBranch H stmt frame seg it) (testBranch H' stmt frame seg it) :=
  hR.bind (related_evalCond hR hF hstmt (.inl hkind) true seg) fun cond =>
    hR.bind (hstmt.snapReads frame _) fun snap =>
      hR.bind (hstmt.recordTaken seg it snap cond) fun _ => hR.pure cond

theorem related_testLoop (hkind : stmt.kind = .loopHead) (seg : Segment) (iters : ℕ) :
    R (testLoop H stmt frame seg iters) (testLoop H' stmt frame seg iters) :=
  hR.bind (hstmt.snapReads frame _) fun snap =>
    hR.bind (related_evalCond hR hF hstmt (.inr hkind) false seg) fun cond =>
      hR.bind (hstmt.recordTaken seg _ snap cond) fun _ => hR.pure cond

/-- Loops with different bounds. Where the first one is stopped by its bound, the second one may go
on. -/
theorem related_execLoopFrom (hkind : stmt.kind = .loopHead) {body : Segment}
    (seg : Segment) (doWhile : Bool)
    {update : Option Text} (hupdate : ∀ src, update = some src → ∀ frame, F frame → ∀ seg,
      R (H.execUpdate src frame seg) (H'.execUpdate src frame seg))
    (hrun : ∀ frame, F frame → ∀ it, R (run body frame it) (run' body frame it)) (iters n n' : ℕ) (hn : n ≤ n')
    (hcap : ∀ y, (n = n' → y = H'.capUnroll) → R H.capUnroll y) :
    R (execLoopFrom H run stmt body frame seg doWhile update iters n)
      (execLoopFrom H' run' stmt body frame seg doWhile update iters n') := by
  induction n generalizing iters n' with
  | zero =>
    cases n' with
    | zero => exact hcap _ fun _ => rfl
    | succ n' => exact hcap _ nofun
  | succ n ih =>
    obtain ⟨n', rfl⟩ := Nat.exists_eq_add_of_le' (Nat.zero_lt_succ n |>.trans_le hn)
    have ih := ih (iters + 1) n' (Nat.le_of_succ_le_succ hn) fun y hy =>
      hcap y fun h => hy (Nat.succ.inj h)
    have hbody := related_runBody hR (hrun frame hF (some iters))
    have htest := related_testLoop hR hF hstmt hkind seg iters
    cases doWhile with
    | true =>
      refine hR.bind hbody fun goesOn => ?_
      cases goesOn with
      | false => exact hR.pure ()
      | true =>
        refine hR.bind htest fun cond => ?_
        cases cond with
        | false => exact hR.pure ()
        | true => exact ih
    | false =>
      refine hR.bind htest fun cond => ?_
      cases cond with
      | false => exact hR.pure ()
      | true =>
        refine hR.bind hbody fun goesOn => ?_
        cases goesOn with
        | false => exact hR.pure ()
        | true =>
          cases update with
          | none => exact ih
          | some src => exact hR.bind (hupdate src rfl frame hF seg) fun _ => ih

/-- What is known of the bounds of two programs. -/
structure Bounds (R : ∀ {α : Type}, Exec σ Stop α → Exec σ Stop α → Prop) (P P' : Program)
    (H H' : Handlers σ) : Prop where
  segments : P'.segments = P.segments
  le : P.maxUnroll ≤ P'.maxUnroll
  cap : ∀ y, (P.maxUnroll = P'.maxUnroll → y = H'.capUnroll) → R H.capUnroll y

omit hR hF hstmt in
theorem Bounds.refl (P : Program) (hcap : R H.capUnroll H'.capUnroll) : Bounds R P P H H' where
  segments := rfl
  le := le_rfl
  cap y hy := by
    rw [hy rfl]
    exact hcap

variable (hP : Bounds R P P' H H')

include hP

omit hF hstmt hP in
theorem related_initLoop (hinit : ∀ name,
      R (H.forInit stmt name frame) (H'.forInit stmt name frame)) :
    R (initLoop H stmt frame) (initLoop H' stmt frame) := by
  unfold initLoop
  cases stmt.lName with
  | none => exact hR.pure ()
  | some name =>
    show R (ite _ _ _) (ite _ _ _)
    split
    · exact hinit name
    · exact hR.pure ()

theorem related_execLoop (hkind : stmt.kind = .loopHead) {body : Segment} (seg : Segment)
    (hrun : ∀ frame, F frame → ∀ it, R (run body frame it) (run' body frame it)) :
    R (execLoop P H run stmt body frame seg) (execLoop P' H' run' stmt body frame seg) :=
  hR.bind (related_initLoop hR fun name => hstmt.forInit name frame hF) fun _ =>
    related_execLoopFrom hR hF hstmt hkind seg _
      (fun src hsrc => hstmt.execUpdate hkind src (Option.eq_some_of_filter_eq_some hsrc))
      hrun 0 _ _ hP.le hP.cap

omit hP

variable (hseg : P'.segments = P.segments)

include hseg

/-- A statement is related to itself if the loop is that it begins. -/
theorem related_execStmt_of_loop (seg : Segment) (it : Option ℕ) {children : List ℕ}
    (hrun : ∀ c ∈ children, ∀ child, segById P.segments c = some child →
      ∀ frame, F frame → ∀ it, R (run child frame it) (run' child frame it))
    (hloop : stmt.kind = .loopHead → ∀ c, children.head? = some c →
      ∀ body, segById P.segments c = some body →
      R (execLoop P H run stmt body frame seg) (execLoop P' H' run' stmt body frame seg)) :
    R (execStmt P H run stmt frame seg it children)
      (execStmt P' H' run' stmt frame seg it children) := by
  have hlookup : ∀ {α : Type} {c : ℕ} {f g : Segment → Exec σ Stop α},
      (∀ child, segById P.segments c = some child → R (f child) (g child)) →
      R (lookupSegment P c >>= f) (lookupSegment P' c >>= g) := by
    intro α c f g hfg
    unfold lookupSegment
    rw [hseg]
    cases hchild : segById P.segments c with
    | none => exact hR.stop nofun
    | some child => exact hfg child hchild
  unfold execStmt
  cases hkind : stmt.kind with
  | decl => exact hR.bind (hstmt.execDeclAssign (.inl hkind) frame hF seg it) fun _ => hR.pure children
  | assign =>
    exact hR.bind (hstmt.execDeclAssign (.inr hkind) frame hF seg it) fun _ => hR.pure children
  | control => exact hR.bind (hstmt.execControl hkind frame hF seg it) fun _ => hR.pure children
  | call => exact hR.bind (hstmt.execCallStmt hkind frame hF seg it) fun _ => hR.pure children
  | expr => exact hR.bind (hstmt.execExprStmt hkind frame hF seg it) fun _ => hR.pure children
  | funcDecl => exact hR.pure children
  | branch =>
    cases children with
    | nil => exact hR.pure []
    | cons c children =>
      refine hlookup fun child hchild => ?_
      refine hR.bind (related_testBranch hR hF hstmt hkind seg it) fun cond => ?_
      cases cond with
      | false => exact hR.pure children
      | true =>
        exact hR.bind (hrun c List.mem_cons_self child hchild frame hF it) fun _ => hR.pure children
  | loopHead =>
    cases children with
    | nil => exact hR.stop nofun
    | cons c children =>
      exact hlookup fun body hbody => hR.bind (hloop hkind c rfl body hbody) fun _ =>
        hR.pure children

omit hstmt

/-- A segment is related to itself if its statements are, the children that these take, and the
loops that they begin. -/
theorem related_execSeg_of_loops {seg : Segment}
    (hstmts : ∀ stmt ∈ seg.stmts, HandlersOn F R H H' stmt)
    (hrun : ∀ c ∈ buildChildren P.segments seg.id, ∀ child, segById P.segments c = some child →
      ∀ frame, F frame → ∀ it, R (run child frame it) (run' child frame it)) (it : Option ℕ)
    (hloop : ∀ stmt c, (stmt, some c) ∈ takenChildren P.segments seg → stmt.kind = .loopHead →
      ∀ body, segById P.segments c = some body →
      R (execLoop P H run stmt body frame seg) (execLoop P' H' run' stmt body frame seg)) :
    R (execSeg P H run seg frame it) (execSeg P' H' run' seg frame it) := by
  have hleft : execSeg P H run seg frame it
      = execPairs P H run frame seg it (takenChildren P.segments seg) :=
    execSeg_eq_execPairs seg frame it
  have hright : execSeg P' H' run' seg frame it
      = execPairs P' H' run' frame seg it (takenChildren P'.segments seg) :=
    execSeg_eq_execPairs seg frame it
  rw [hleft, hright, hseg]
  have hpairs : ∀ p ∈ takenChildren P.segments seg, p.1 ∈ seg.stmts ∧
      ∀ c ∈ p.2.toList, c ∈ buildChildren P.segments seg.id := by
    intro p hp
    refine ⟨?_, fun c hc => mem_of_mem_deal _ hp (Option.mem_toList.mp hc)⟩
    rw [← map_fst_deal Statement.takesChild seg.stmts (buildChildren P.segments seg.id)]
    exact List.mem_map_of_mem hp
  revert hpairs hloop
  induction takenChildren P.segments seg with
  | nil => exact fun _ _ => hR.pure ()
  | cons p ps ih =>
    intro hloop hpairs
    obtain ⟨hstmt, hchildren⟩ := hpairs p List.mem_cons_self
    refine hR.bind ?_ fun _ => ih (fun stmt c hp => hloop stmt c (List.mem_cons_of_mem _ hp))
      fun q hq => hpairs q (List.mem_cons_of_mem _ hq)
    refine related_execStmt_of_loop hR hF (hstmts p.1 hstmt) hseg seg it
      (fun c hc => hrun c (hchildren c hc)) fun hkind c hc body hbody => ?_
    rcases p with ⟨stmt, _ | d⟩
    · cases hc
    · obtain rfl : d = c := Option.some.inj hc
      exact hloop stmt d List.mem_cons_self hkind body hbody

omit hseg

variable (hP : Bounds R P P' H H')

include hP

/-- **Segments** are related when their statements are, and the children that these take. -/
theorem related_execSeg {seg : Segment} (hstmts : ∀ stmt ∈ seg.stmts, HandlersOn F R H H' stmt)
    (hrun : ∀ c ∈ buildChildren P.segments seg.id, ∀ child, segById P.segments c = some child →
      ∀ frame, F frame → ∀ it, R (run child frame it) (run' child frame it)) (it : Option ℕ) :
    R (execSeg P H run seg frame it) (execSeg P' H' run' seg frame it) :=
  related_execSeg_of_loops hR hF hP.segments hstmts hrun it fun stmt c hp hkind body hbody => by
    have hstmt : stmt ∈ seg.stmts := by
      rw [← map_fst_deal Statement.takesChild seg.stmts (buildChildren P.segments seg.id)]
      exact List.mem_map_of_mem hp
    exact related_execLoop hR hF (hstmts stmt hstmt) hP hkind seg
      (hrun c (mem_of_mem_deal _ hp rfl) body hbody)

end Control

/-! ### The interpreter -/

section Interp

variable {F : ℕ → Prop} {R : ∀ {α : Type}, Vm α → Vm α → Prop} (hF : FrameCongruence F R)
  (hR : VmCongruence R) (U : CharTable) (M : MathLib) {P P' : Program} {I I' : Interp}

theorem segFn_eq (hseg : P'.segments = P.segments) : P'.segFn = P.segFn := by
  have howning : ∀ fuel seg, P'.owningFn fuel seg = P.owningFn fuel seg := by
    intro fuel
    induction fuel with
    | zero => exact fun _ => rfl
    | succ fuel ih =>
      intro seg
      rw [Program.owningFn_succ, Program.owningFn_succ, hseg]
      cases segById P.segments seg.parent with
      | none => rfl
      | some parent => simp only [ih]
  funext seg
  rw [Program.segFn, Program.segFn, hseg, howning]

theorem record_eq (hseg : P'.segments = P.segments) : @record P' = @record P := by
  unfold record
  rw [segFn_eq hseg]

theorem structByName_eq (hseg : P'.segments = P.segments) : P'.structByName = P.structByName := by
  unfold Program.structByName
  rw [hseg]

theorem evalCall_eq (hseg : P'.segments = P.segments) : evalCall U M P' = evalCall U M P := by
  unfold evalCall Program.fnByName
  rw [hseg]

theorem evalStep_eq (hseg : P'.segments = P.segments) : evalStep U M P' = evalStep U M P := by
  unfold evalStep
  rw [evalCall_eq U M hseg]

theorem execDeclAssign_eq (hseg : P'.segments = P.segments) :
    execDeclAssign U P' = execDeclAssign U P := by
  unfold execDeclAssign execAssign execStep
  rw [record_eq hseg, structByName_eq hseg]

theorem execExprStmt_eq (hseg : P'.segments = P.segments) :
    execExprStmt U P' = execExprStmt U P := by
  unfold execExprStmt storeDoubleDeref storeDeref storeElement
  rw [record_eq hseg]

/-- The bound of the loops is all that handlers do not know of a program. -/
theorem vmHandlers_eq (hseg : P'.segments = P.segments) :
    vmHandlers U M P' = vmHandlers U M P := by
  unfold vmHandlers execControl execCallStmt
  rw [evalCall_eq U M hseg, execDeclAssign_eq U hseg, execExprStmt_eq U hseg, record_eq hseg]

/-- **Statements** are related in some frames when the expressions that they evaluate are. -/
theorem FrameCongruence.related_vmHandlers (hR : FrameCongruence F R)
    (hrecord : ∀ stmt seg iteration readSnap writeSnap taken reads writes,
      R (record P stmt seg iteration readSnap writeSnap taken reads writes)
        (record P stmt seg iteration readSnap writeSnap taken reads writes))
    {stmt : Statement} (hI : ∀ e ∈ stmtExprs U stmt, AskedOn F P R I I' e) :
    HandlersOn F R (vmHandlers U M P I) (vmHandlers U M P I') stmt where
  eval htakes e he frame hF seg :=
    hR.untraced ((hI e (expr_mem_stmtExprs U (by rcases htakes with h | h <;> simp [h]) he)).eval
      frame hF seg.scopePath)
  truthy v := hR.quiet (silent_truthy v)
  snapReads frame names := hR.quiet (silent_snapReads frame names)
  recordTaken seg it snap taken := hrecord stmt seg it snap Dict.empty (some taken) [] []
  execDeclAssign hkind frame hF := hR.execDeclAssign U P hF hrecord fun e he =>
    hI e (expr_mem_stmtExprs U (by rcases hkind with h | h <;> simp [h]) he)
  execControl hkind frame hF := hR.execControl P hF hrecord fun e he =>
    hI e (expr_mem_stmtExprs U (by simp [hkind]) he)
  execCallStmt hkind frame hF := hR.execCallStmt U M P hF hrecord fun e he =>
    hI e (expr_mem_stmtExprs U (by simp [hkind]) he)
  execExprStmt hkind frame hF seg it := by
    dsimp only [vmHandlers]
    refine hR.execExprStmt U P hF hrecord (fun e he => hI e ?_) seg it
    simpa only [stmtExprs, hkind] using he
  forInit name frame hF := hR.setSlot hF name _ _
  execUpdate hkind src hsrc frame hF := hR.execUpdate U P hF fun e he => hI e (by
    simp only [stmtExprs, hkind, hsrc]
    exact List.mem_append_right _ (Option.mem_toList.mpr he))

/-- **Statements** are related when the expressions that they evaluate are. -/
theorem related_vmHandlers (hR : VmCongruence R)
    (hrecord : ∀ stmt seg iteration readSnap writeSnap taken reads writes,
      R (record P stmt seg iteration readSnap writeSnap taken reads writes)
        (record P stmt seg iteration readSnap writeSnap taken reads writes))
    {stmt : Statement} (hI : ∀ e ∈ stmtExprs U stmt, Asked P R I I' e) :
    HandlersRelated R (vmHandlers U M P I) (vmHandlers U M P I') stmt :=
  (hR.onFrames.related_vmHandlers U M hrecord fun e he => (hI e he).onFrames).related

/-- Two amounts of fuel, the first one at most the second one. Where the first one runs out, the
second one may go on. -/
structure Fuels (R : ∀ {α : Type}, Vm α → Vm α → Prop) (fuel fuel' : ℕ) : Prop where
  le : fuel ≤ fuel'
  stop : ∀ {α : Type} (y : Vm α), (fuel = fuel' → y = Exec.stop .outOfFuel) →
    R (Exec.stop .outOfFuel) y

theorem Fuels.refl (hstop : ∀ {α : Type}, R (Exec.stop .outOfFuel : Vm α) (Exec.stop .outOfFuel))
    (fuel : ℕ) : Fuels R fuel fuel where
  le := le_rfl
  stop y hy := by
    rw [hy rfl]
    exact hstop

theorem Fuels.pred {fuel fuel' : ℕ} (h : Fuels R (fuel + 1) (fuel' + 1)) : Fuels R fuel fuel' where
  le := Nat.le_of_succ_le_succ h.le
  stop y hy := h.stop y fun heq => hy (Nat.succ.inj heq)

include hR in
/-- A call of a function is related if the run of the function is. -/
theorem related_callFn_of_run {fuel fuel' : ℕ} (hseg : P'.segments = P.segments) (name : Text)
    (args : List (Text × Value)) (hrun : ∀ fn, P.fnByName name = some fn → ∀ frame it,
      R ((interp U M P fuel).run fn frame it) ((interp U M P' fuel').run fn frame it)) :
    R (callFn U M P fuel name args) (callFn U M P' fuel' name args) := by
  have hname : P'.fnByName name = P.fnByName name := by
    unfold Program.fnByName
    rw [hseg]
  unfold callFn
  rw [hname]
  cases hfn : P.fnByName name with
  | none => exact hR.onFrames.raise _ _
  | some fn =>
    simp only [orRaise, pure_bind]
    refine hR.bind hR.newFrame fun frame => ?_
    refine hR.bind (hR.forM fun arg _ => hR.allocStackSlot frame _ _ _) fun _ => ?_
    refine hR.handle (hrun fn hfn frame none) (fun r hr => ?_) rfl rfl
    rcases r with (_ | _ | _ | _ | _) | a
    case error.returned v => exact hR.pure v
    case error.outOfFuel => exact absurd rfl hr
    case ok => exact hR.pure _
    all_goals exact hR.stop nofun

variable (hrecord : ∀ stmt seg iteration readSnap writeSnap taken reads writes,
    R (record P stmt seg iteration readSnap writeSnap taken reads writes)
      (record P stmt seg iteration readSnap writeSnap taken reads writes))
  (hP : ∀ I I', Bounds R P P' (vmHandlers U M P I) (vmHandlers U M P I'))

include hrecord hP

include hF in
/-- **The interpreter** respects a congruence of some frames, whatever it runs in these. -/
theorem related_interp_onFrames {fuel fuel' : ℕ} (hfuel : Fuels R fuel fuel') :
    (∀ frame, F frame → ∀ scope e, R ((interp U M P fuel).eval frame scope e)
      ((interp U M P' fuel').eval frame scope e)) ∧
    ∀ seg frame, F frame → ∀ it, R ((interp U M P fuel).run seg frame it)
      ((interp U M P' fuel').run seg frame it) := by
  have hseg := (hP (interp U M P 0) (interp U M P 0)).segments
  induction fuel generalizing fuel' with
  | zero =>
    cases fuel' with
    | zero =>
      exact ⟨fun _ _ _ _ => hfuel.stop _ fun _ => rfl, fun _ _ _ _ => hfuel.stop _ fun _ => rfl⟩
    | succ fuel' => exact ⟨fun _ _ _ _ => hfuel.stop _ nofun, fun _ _ _ _ => hfuel.stop _ nofun⟩
  | succ fuel ih =>
    obtain ⟨fuel', rfl⟩ := Nat.exists_eq_add_of_le' (Nat.zero_lt_succ fuel |>.trans_le hfuel.le)
    obtain ⟨heval, hrun⟩ := ih hfuel.pred
    simp only [interp, evalStep_eq U M hseg, vmHandlers_eq U M hseg]
    refine ⟨fun frame hframe scope e => ?_, fun seg frame hframe it => ?_⟩
    · exact hF.related_evalStep U M P hframe (fun e' _ scope => heval frame hframe scope e')
        (fun target _ => hrun target) scope
    · refine related_execSeg hF.toCongruence hframe (hP _ _) (fun stmt _ => ?_)
        (fun _ _ child _ => hrun child) it
      exact hF.related_vmHandlers U M hrecord fun e _ =>
        ⟨fun frame hframe scope => heval frame hframe scope e,
          fun e _ frame hframe scope => heval frame hframe scope e, fun target _ => hrun target⟩

include hR

/-- **The interpreter** respects a congruence, whatever it runs. -/
theorem related_interp {fuel fuel' : ℕ} (hfuel : Fuels R fuel fuel') :
    (∀ frame scope e, R ((interp U M P fuel).eval frame scope e)
      ((interp U M P' fuel').eval frame scope e)) ∧
    ∀ seg frame it, R ((interp U M P fuel).run seg frame it)
      ((interp U M P' fuel').run seg frame it) := by
  obtain ⟨heval, hrun⟩ := related_interp_onFrames hR.onFrames U M hrecord hP hfuel
  exact ⟨fun frame => heval frame trivial, fun seg frame => hrun seg frame trivial⟩

/-- **Calls of functions** respect a congruence. -/
theorem related_callFn {fuel fuel' : ℕ} (hfuel : Fuels R fuel fuel') (name : Text)
    (args : List (Text × Value)) :
    R (callFn U M P fuel name args) (callFn U M P' fuel' name args) :=
  related_callFn_of_run hR U M (hP (interp U M P 0) (interp U M P 0)).segments name args
    fun fn _ => (related_interp hR U M hrecord hP hfuel).2 fn

end Interp

end Csc512
