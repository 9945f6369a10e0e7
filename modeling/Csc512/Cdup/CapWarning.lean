import Csc512.Cdup.StackAddresses
import Csc512.Cdup.UnrollLimit

/-!
# The warning about capped loops

A loop that has run as many rounds as its bound allows is left, and a flag is raised. Before a round
of a `while` or `for` loop the bound is looked at, and then the condition; so the flag does not tell
whether such a loop would have gone on. A `do` loop comes to its bound only when its condition was
found true behind its body.

## Main results

* `capped_rounds` — what the flag tells
* `not_capTruthful` — what it does not tell
-/

namespace Csc512

open Exec

/-! ### Rounds -/

section Rounds

variable {σ : Type}

/-- A round of a loop. The result tells whether the loop goes on. -/
def loopRound (H : Handlers σ) (run : Segment → ℕ → Option ℕ → Exec σ Stop Unit) (stmt : Statement)
    (body : Segment) (frame : ℕ) (seg : Segment) (doWhile : Bool) (update : Option Text)
    (iters : ℕ) : Exec σ Stop Bool :=
  if doWhile then do
    let goesOn ← runBody (run body frame (some iters))
    if goesOn then testLoop H stmt frame seg iters else pure false
  else do
    let cond ← testLoop H stmt frame seg iters
    if cond then
      let goesOn ← runBody (run body frame (some iters))
      if goesOn then
        match update with
        | some src => H.execUpdate src frame seg
        | none => pure ()
        pure true
      else pure false
    else pure false

/-- From a state to another one, the rounds from `i` on and before `j` are run, and none of them
leaves the loop. -/
inductive Rounds (round : ℕ → Exec σ Stop Bool) (i : ℕ) (s : σ) : ℕ → σ → Prop
  | start : Rounds round i s i s
  | round {j : ℕ} {t u : σ} (h : Rounds round i s j t) (hround : round j t = (.ok true, u)) :
    Rounds round i s (j + 1) u

variable {H : Handlers σ} {run : Segment → ℕ → Option ℕ → Exec σ Stop Unit} {stmt : Statement}
  {body seg : Segment} {frame : ℕ} {doWhile : Bool} {update : Option Text}

/-- A loop runs round by round. -/
theorem execLoopFrom_succ (iters n : ℕ) :
    execLoopFrom H run stmt body frame seg doWhile update iters (n + 1)
      = loopRound H run stmt body frame seg doWhile update iters >>= fun goesOn =>
        if goesOn then execLoopFrom H run stmt body frame seg doWhile update (iters + 1) n
        else pure () := by
  cases doWhile with
  | true =>
    simp only [execLoopFrom, loopRound, if_true, bind_assoc]
    refine bind_congr fun goesOn => ?_
    cases goesOn with
    | false => rfl
    | true => rfl
  | false =>
    simp only [execLoopFrom, loopRound, Bool.false_eq_true, if_false, bind_assoc]
    refine bind_congr fun cond => ?_
    cases cond with
    | false => rfl
    | true =>
      simp only [if_true, bind_assoc]
      refine bind_congr fun goesOn => ?_
      cases goesOn with
      | false => rfl
      | true =>
        cases update with
        | none => rfl
        | some src => simp only [if_true, bind_assoc, pure_bind]

theorem runBody_of_ok {x : Exec σ Stop Unit} {s t : σ} (h : x s = (.ok (), t)) :
    runBody x s = (.ok true, t) := by
  have houtcome : x.outcome s = (.ok (.ok ()), t) := by rw [outcome_apply, h]
  exact bind_of_ok houtcome _

/-- A round of a `do` loop after which the loop goes on ends with a test that found the condition
true. -/
theorem exists_test_of_loopRound {iters : ℕ} {s t : σ}
    (h : loopRound H run stmt body frame seg true update iters s = (.ok true, t)) :
    ∃ u, testLoop H stmt frame seg iters u = (.ok true, t) := by
  obtain ⟨goesOn, u, -, htest⟩ := exists_of_bind_ok h
  cases goesOn with
  | false => exact absurd (congrArg Prod.fst htest) nofun
  | true => exact ⟨u, htest⟩

section Related

variable {R : ∀ {α : Type}, Exec σ Stop α → Exec σ Stop α → Prop} (hR : Congruence .outOfFuel R)

include hR

theorem related_loopRound (hstmt : HandlersRelated R H H stmt) (hkind : stmt.kind = .loopHead)
    (hupdate : ∀ src, update = some src → ∀ frame seg,
      R (H.execUpdate src frame seg) (H.execUpdate src frame seg))
    (hrun : ∀ frame it, R (run body frame it) (run body frame it)) (iters : ℕ) :
    R (loopRound H run stmt body frame seg doWhile update iters)
      (loopRound H run stmt body frame seg doWhile update iters) := by
  have hbody := related_runBody hR (hrun frame (some iters))
  have htest : R (testLoop H stmt frame seg iters) (testLoop H stmt frame seg iters) :=
    related_testLoop hR trivial hstmt.onFrames hkind seg iters
  cases doWhile with
  | true =>
    refine hR.bind hbody fun goesOn => ?_
    cases goesOn with
    | false => exact hR.pure false
    | true => exact htest
  | false =>
    refine hR.bind htest fun cond => ?_
    cases cond with
    | false => exact hR.pure false
    | true =>
      refine hR.bind hbody fun goesOn => ?_
      cases goesOn with
      | false => exact hR.pure false
      | true =>
        cases update with
        | none => exact hR.pure true
        | some src => exact hR.bind (hupdate src rfl frame seg) fun _ => hR.pure true

end Related

end Rounds

/-! ### Loops of a program -/

/-- A loop of a program, with the block that it gets for its body. -/
structure LoopOf (P : Program) where
  seg : Segment
  stmt : Statement
  body : Segment
  mem_segments : seg ∈ P.segments
  kind_stmt : stmt.kind = .loopHead
  gets : ∃ c, (stmt, some c) ∈ takenChildren P.segments seg ∧ segById P.segments c = some body

variable (U : CharTable) (M : MathLib) {P : Program}

namespace LoopOf

variable (L : LoopOf P)

/-- Is the loop a `do` loop? -/
def doWhile : Bool := startsWith (strip L.stmt.raw) (lit "do")

/-- The update clause of the loop. -/
def update : Option Text := (extractForUpdate L.stmt.raw).filter (· ≠ [])

/-- A round of the loop, with some fuel. -/
def round (fuel frame : ℕ) : ℕ → Vm Bool :=
  let I := interp U M P fuel
  loopRound (vmHandlers U M P I) I.run L.stmt L.body frame L.seg L.doWhile L.update

/-- The condition of the loop. -/
def cond (fuel frame : ℕ) : Vm Bool :=
  evalCond (vmHandlers U M P (interp U M P fuel)) L.stmt.expr false frame L.seg

/-- The condition of the loop is evaluated, and recorded as that of some round. -/
def test (fuel frame : ℕ) (iters : ℕ) : Vm Bool :=
  testLoop (vmHandlers U M P (interp U M P fuel)) L.stmt frame L.seg iters

/-- In a run with this trace, the body was run as often as the bound of the loops says, up to this
state. -/
def RunOut (trace : List TraceEvent) (fuel frame : ℕ) (t : VmState) : Prop :=
  ∃ s, Rounds (L.round U M fuel frame) 0 s P.maxUnroll t ∧ t.trace <+: trace

end LoopOf

variable (P) in
/-- Some loop ran out of rounds in a run with this trace. -/
def SomeRunOut (trace : List TraceEvent) : Prop :=
  ∃ (L : LoopOf P) (fuel frame : ℕ) (t : VmState), L.RunOut U M trace fuel frame t

variable (P) in
/-- What a part of a run does: it records, and it raises the flag only for a loop that ran out of
rounds. -/
def CapStep (s t : VmState) : Prop :=
  s.trace <+: t.trace ∧ (Capped t → Capped s ∨ SomeRunOut U M P t.trace)

theorem SomeRunOut.mono {trace trace' : List TraceEvent} (h : SomeRunOut U M P trace)
    (hle : trace <+: trace') : SomeRunOut U M P trace' := by
  obtain ⟨L, fuel, frame, t, s, hrounds, hprefix⟩ := h
  exact ⟨L, fuel, frame, t, s, hrounds, hprefix.trans hle⟩

theorem CapStep.refl (s : VmState) : CapStep U M P s s := ⟨List.prefix_rfl, .inl⟩

theorem CapStep.trans {s t u : VmState} (h : CapStep U M P s t) (h' : CapStep U M P t u) :
    CapStep U M P s u := by
  refine ⟨h.1.trans h'.1, fun hu => ?_⟩
  rcases h'.2 hu with ht | hfound
  · exact (h.2 ht).imp_right fun hfound => hfound.mono U M h'.1
  · exact .inr hfound

/-- A change of other parts of the state. -/
theorem CapStep.of_eq {s t : VmState} (hcap : t.unrollCapped = s.unrollCapped)
    (htrace : t.trace = s.trace) : CapStep U M P s t :=
  ⟨htrace ▸ List.prefix_rfl, fun ht => .inl (hcap.symm.trans ht)⟩

/-! ### Runs -/

variable (P) in
/-- The computation takes such steps. -/
abbrev CapMoves {α : Type} (x y : Vm α) : Prop := Moves (CapStep U M P) x y

theorem capMoves_traced {α : Type} {x y : Vm α} (h : CapMoves U M P x y) :
    CapMoves U M P (traced x) (traced y) := by
  intro s
  rw [traced_apply]
  exact ((CapStep.of_eq U M rfl rfl).trans U M (h { s with derefs := [] })).trans U M
    (CapStep.of_eq U M rfl rfl)

variable (P) in
theorem vmCongruence_capMoves : VmCongruence fun x y => CapMoves U M P x y :=
  vmCongruence_of_modify_stop
    (congruence_moves Stop.outOfFuel (CapStep.refl U M) fun h h' => h.trans U M h')
    (CapStep.refl U M) (fun _ hf s => CapStep.of_eq U M (hf s).1 (hf s).2) (capMoves_traced U M)

theorem capMoves_record (stmt : Statement) (seg : Segment) (iteration : Option ℕ)
    (readSnap writeSnap : Dict Text Snapshot) (taken : Option Bool)
    (reads writes : List (Value × Value)) :
    CapMoves U M P (record P stmt seg iteration readSnap writeSnap taken reads writes)
      (record P stmt seg iteration readSnap writeSnap taken reads writes) :=
  fun _ => ⟨List.prefix_append _ _, .inl⟩

variable {U M}

/-- A loop that comes to its bound has run out of rounds. -/
theorem capStep_execLoopFrom (L : LoopOf P) {fuel frame : ℕ}
    (hround : ∀ i, CapMoves U M P (L.round U M fuel frame i) (L.round U M fuel frame i)) {i n : ℕ}
    (hi : i + n = P.maxUnroll) {s₀ s : VmState} (h : Rounds (L.round U M fuel frame) 0 s₀ i s) :
    CapStep U M P s (execLoopFrom (vmHandlers U M P (interp U M P fuel)) (interp U M P fuel).run
      L.stmt L.body frame L.seg L.doWhile L.update i n s).2 := by
  induction n generalizing i s with
  | zero =>
    obtain rfl : i = P.maxUnroll := hi
    exact ⟨List.prefix_rfl, fun _ => .inr ⟨L, fuel, frame, s, s₀, h, List.prefix_rfl⟩⟩
  | succ n ih =>
    have hstep := hround i s
    rw [execLoopFrom_succ]
    show CapStep U M P s ((L.round U M fuel frame i >>= _) s).2
    rcases hr : L.round U M fuel frame i s with ⟨e | goesOn, t⟩
    · rw [bind_of_error hr]
      rwa [hr] at hstep
    · rw [bind_of_ok hr]
      rw [hr] at hstep
      cases goesOn with
      | false => exact hstep
      | true => exact hstep.trans U M (ih (by omega) (.round h hr))

theorem capMoves_interp (fuel : ℕ) :
    (∀ frame scope e, CapMoves U M P ((interp U M P fuel).eval frame scope e)
      ((interp U M P fuel).eval frame scope e)) ∧
    ∀ seg ∈ P.segments, ∀ frame it, CapMoves U M P ((interp U M P fuel).run seg frame it)
      ((interp U M P fuel).run seg frame it) := by
  have hR := vmCongruence_capMoves U M P
  induction fuel with
  | zero => exact ⟨fun _ _ _ => CapStep.refl U M, fun _ _ _ _ => CapStep.refl U M⟩
  | succ fuel ih =>
    obtain ⟨heval, hrun⟩ := ih
    have hcallee : ∀ e target, P.callee e = some target → ∀ frame it,
        CapMoves U M P ((interp U M P fuel).run target frame it)
          ((interp U M P fuel).run target frame it) := by
      intro e target htarget
      refine hrun target ?_
      cases e with
      | call fn args =>
        rw [Program.callee] at htarget
        split_ifs at htarget
        exact List.mem_reverse.mp (List.mem_of_find?_eq_some htarget)
      | _ => cases htarget
    refine ⟨fun frame scope e => ?_, fun seg hseg frame it => ?_⟩
    · exact hR.onFrames.related_evalStep U M P trivial (fun e' _ scope => heval frame scope e')
        (fun target htarget frame _ => hcallee e target htarget frame) scope
    · have hstmts : ∀ stmt, HandlersRelated (fun x y => CapMoves U M P x y)
          (vmHandlers U M P (interp U M P fuel)) (vmHandlers U M P (interp U M P fuel)) stmt :=
        fun stmt => related_vmHandlers U M hR (capMoves_record U M) fun e _ =>
          ⟨fun frame scope => heval frame scope e, fun e' _ frame scope => heval frame scope e',
            hcallee e⟩
      have hchild : ∀ c child, segById P.segments c = some child → ∀ frame it,
          CapMoves U M P ((interp U M P fuel).run child frame it)
            ((interp U M P fuel).run child frame it) :=
        fun c child hc => hrun child (mem_of_segById hc)
      refine related_execSeg_of_loops hR.toCongruence trivial rfl (fun stmt _ => (hstmts stmt).onFrames)
        (fun c _ child hc frame _ => hchild c child hc frame) it fun stmt c hp hkind body hbody => ?_
      let L : LoopOf P := ⟨seg, stmt, body, hseg, hkind, c, hp, hbody⟩
      refine hR.bind (related_initLoop hR.toCongruence fun name => (hstmts stmt).forInit name frame)
        fun _ s => ?_
      refine capStep_execLoopFrom L (fun i => ?_) (Nat.zero_add _) .start
      refine related_loopRound hR.toCongruence (hstmts stmt) hkind (fun src hsrc => ?_)
        (hchild c body hbody) i
      exact (hstmts stmt).execUpdate hkind src (Option.eq_some_of_filter_eq_some hsrc)

/-- **What the flag tells.** If a call ends with the flag raised, then the body of some loop was run
as often as the bound says; and if that loop is a `do` loop, its condition was found true then. -/
theorem capped_rounds {fuel : ℕ} {name : Text} {args : List (Text × Value)}
    {lists : List (List Value)}
    (hcap : (callFn U M P fuel name args { lists }).2.unrollCapped = true) :
    ∃ (L : LoopOf P) (fuel' frame : ℕ) (t : VmState),
      L.RunOut U M (callFn U M P fuel name args { lists }).2.trace fuel' frame t ∧
      (L.doWhile = true → 0 < P.maxUnroll →
        ∃ u, L.test U M fuel' frame (P.maxUnroll - 1) u = (.ok true, t)) := by
  have hmoves : CapMoves U M P (callFn U M P fuel name args) (callFn U M P fuel name args) :=
    related_callFn_of_run (vmCongruence_capMoves U M P) U M rfl name args fun fn hfn =>
      (capMoves_interp fuel).2 fn (List.mem_reverse.mp (List.mem_of_find?_eq_some hfn))
  obtain ⟨L, fuel', frame, t, s, hrounds, hprefix⟩ := ((hmoves { lists }).2 hcap).resolve_left nofun
  refine ⟨L, fuel', frame, t, ⟨s, hrounds, hprefix⟩, fun hdo hpos => ?_⟩
  obtain ⟨m, hm⟩ := Nat.exists_eq_succ_of_ne_zero hpos.ne'
  rw [hm] at hrounds ⊢
  cases hrounds with
  | round _ hround =>
    rw [LoopOf.round, hdo] at hround
    exact exists_test_of_loopRound hround

/-- A mathematical library without functions. -/
def emptyLib : MathLib := ⟨fun _ _ => .error .valueError⟩

/-- Counting down with three rounds. -/
def countdown : Program := ⟨returnCountdown, 3⟩

theorem capped_rounds_countdown : ∃ (L : LoopOf countdown) (fuel frame : ℕ) (t : VmState),
    L.RunOut .ascii emptyLib
      (callFn .ascii emptyLib countdown 4 (lit "f") [(lit "n", .int 5)] { lists := [] }).2.trace
      fuel frame t ∧
    (L.doWhile = true → 0 < countdown.maxUnroll →
      ∃ u, L.test .ascii emptyLib fuel frame (countdown.maxUnroll - 1) u = (.ok true, t)) :=
  capped_rounds (by decide +kernel)

/-! ### Would the loop have gone on? -/

variable (U M P) in
/-- If the flag is up at the end of a call, then some loop ran out of rounds, and its condition is
true at that point. -/
def CapTruthful (r : Except Stop Value × VmState) : Prop :=
  r.2.unrollCapped = true → ∃ (L : LoopOf P) (fuel frame : ℕ) (t : VmState),
    L.RunOut U M r.2.trace fuel frame t ∧ (L.cond U M fuel frame t).1 = .ok true

/-- `x = 0;`. -/
def clearStmt : Statement :=
  { raw := lit "x = 0;", kind := .assign, lName := some (lit "x"), expr := some (.const (.int 0)) }

/-- `while (x) {}`. -/
def clearLoop : Statement :=
  { raw := lit "while (x) {}", kind := .loopHead, rNames := [lit "x"],
    expr := some (.name (lit "x")) }

/-- The block of that loop. -/
def clearBody : Segment :=
  { id := 2, parent := 1, type := .loop, name := lit "loop_1", scopePath := lit "root.f.loop_1",
    head := some (lit "while (x) {}"), stmts := [clearStmt] }

/-- The function around that loop. -/
def clearFn : Segment :=
  { id := 1, parent := 0, type := .function, name := lit "f", scopePath := lit "root.f",
    head := some (lit "void f(int x) {}"), stmts := [clearLoop] }

/-- A function whose loop clears the variable that it tests, with loops of one round. -/
def clearOnce : Program where
  segments := [{ id := 0, parent := 0, type := .root, name := lit "root", scopePath := lit "root",
                 head := none }, clearFn, clearBody]
  maxUnroll := 1

theorem exists_setSlot (frame : ℕ) (name type : Text) (v : Value) (s : VmState) :
    ∃ t, setSlot frame name v type s = (.ok (), t) ∧
      ∀ slot, slotIn t.frames frame name = some slot → slot.value = v := by
  have hfound : inFrame frame name s = (.ok (slotIn s.frames frame name).isSome, s) := rfl
  rw [setSlot, bind_of_ok hfound]
  cases hold : slotIn s.frames frame name with
  | some old =>
    rw [Option.isSome_some, if_pos rfl, writeSlot_of_some hold]
    refine ⟨_, rfl, fun slot hslot => ?_⟩
    rw [slotIn_modify_self (frame_lt_of_slotIn hold)] at hslot
    exact (congrArg SlotDesc.value (Option.some.inj hslot)).symm
  | none =>
    rw [Option.isSome_none, if_neg Bool.false_ne_true]
    refine ⟨_, rfl, fun slot hslot => ?_⟩
    rcases slotIn_modify hslot with ⟨-, rfl⟩ | hslot
    · rfl
    · rw [hold] at hslot
      cases hslot

/-- After the assignment, the variable is zero. -/
theorem exec_clearStmt (fuel frame : ℕ) (seg : Segment) (it : Option ℕ) (s : VmState) :
    ∃ t, execDeclAssign U clearOnce (interp U M clearOnce (fuel + 1)) clearStmt frame seg it s
        = (.ok (), t) ∧
      ∀ slot, slotIn t.frames frame (lit "x") = some slot → slot.value = .int 0 := by
  obtain ⟨t, hset, hvalue⟩ := exists_setSlot frame (lit "x") (lit "int") (.int 0) s
  have hread : snapReads frame [] s = (.ok Dict.empty, s) := rfl
  have heval : traced ((interp U M clearOnce (fuel + 1)).eval frame seg.scopePath (.const (.int 0)))
      s = (.ok (.int 0, []), s) := rfl
  have hpromote : promote (isPointerDecl clearStmt.raw (lit "int")) (lit "int") (.int 0) s
      = (.ok (.int 0), s) := rfl
  have hassign : execAssign clearOnce (interp U M clearOnce (fuel + 1)) clearStmt (lit "x")
      (lit "int") (.const (.int 0)) frame seg it Dict.empty s = (.ok (), _) :=
    (bind_of_ok heval _).trans ((bind_of_ok hpromote _).trans ((bind_of_ok hset _).trans rfl))
  exact ⟨_, (bind_of_ok hread _).trans hassign, hvalue⟩

/-- A round of the loop leaves the variable zero. -/
theorem value_of_round {fuel frame iters : ℕ} {s t : VmState}
    (h : loopRound (vmHandlers U M clearOnce (interp U M clearOnce fuel))
      (interp U M clearOnce fuel).run clearLoop clearBody frame clearFn false none iters s
        = (.ok true, t)) {slot : SlotDesc} (hslot : slotIn t.frames frame (lit "x") = some slot) :
    slot.value = .int 0 := by
  obtain ⟨cond, s₁, -, h⟩ := exists_of_bind_ok h
  cases cond with
  | false => cases congrArg Prod.fst h
  | true =>
    obtain ⟨goesOn, s₂, hbody, h⟩ := exists_of_bind_ok h
    cases goesOn with
    | false => cases congrArg Prod.fst h
    | true =>
      obtain rfl : s₂ = t := congrArg Prod.snd h
      match fuel, hbody with
      | 0, hbody => cases congrArg Prod.fst hbody
      | 1, hbody => cases congrArg Prod.fst hbody
      | fuel + 2, hbody =>
        obtain ⟨u, hexec, hvalue⟩ := exec_clearStmt (U := U) (M := M) fuel frame clearBody
          (some iters) s₁
        have hstmt : execStmt clearOnce (vmHandlers U M clearOnce (interp U M clearOnce (fuel + 1)))
            (interp U M clearOnce (fuel + 1)).run clearStmt frame clearBody (some iters) [] s₁
              = (.ok [], u) := bind_of_ok hexec _
        have hchildren : buildChildren clearOnce.segments clearBody.id = [] := by decide
        have hstmts : execStmts clearOnce (vmHandlers U M clearOnce (interp U M clearOnce (fuel + 1)))
            (interp U M clearOnce (fuel + 1)).run frame clearBody (some iters) clearBody.stmts
            (buildChildren clearOnce.segments clearBody.id) s₁ = (.ok [], u) := by
          rw [hchildren]
          exact bind_of_ok hstmt _
        have hrun : (interp U M clearOnce (fuel + 2)).run clearBody frame (some iters) s₁
            = (.ok (), u) := bind_of_ok hstmts _
        rw [runBody_of_ok hrun] at hbody
        obtain rfl : u = s₂ := congrArg Prod.snd hbody
        exact hvalue slot hslot

/-- The only loop of that function. -/
theorem loopOf_clearOnce (L : LoopOf clearOnce) :
    L.seg = clearFn ∧ L.stmt = clearLoop ∧ L.body = clearBody := by
  obtain ⟨seg, stmt, body, hseg, hkind, c, hpair, hbody⟩ := L
  rcases List.mem_cons.mp hseg with rfl | hseg
  · cases hpair
  rcases List.mem_cons.mp hseg with rfl | hseg
  · have htaken : takenChildren clearOnce.segments clearFn = [(clearLoop, some 2)] := by rfl
    rw [htaken, List.mem_singleton] at hpair
    obtain ⟨rfl, hc⟩ := Prod.mk.inj hpair
    obtain rfl := Option.some.inj hc
    exact ⟨rfl, rfl, (Option.some.inj hbody).symm⟩
  · obtain rfl := List.mem_singleton.mp hseg
    have htaken : takenChildren clearOnce.segments clearBody = [(clearStmt, none)] := by rfl
    rw [htaken, List.mem_singleton] at hpair
    cases congrArg Prod.snd hpair

/-- Where the variable is zero, the condition of the loop is not true. -/
theorem cond_clearLoop {fuel frame : ℕ} {t : VmState}
    (h : ∀ slot, slotIn t.frames frame (lit "x") = some slot → slot.value = .int 0) :
    (evalCond (vmHandlers U M clearOnce (interp U M clearOnce fuel)) clearLoop.expr false frame
      clearFn t).1 ≠ .ok true := by
  cases fuel with
  | zero => nofun
  | succ fuel =>
    let s : VmState := { t with derefs := [] }
    have hfound : slot? frame (lit "x") s = (.ok (slotIn t.frames frame (lit "x")), s) := rfl
    have hstrip : stripScope (lit "x") clearFn.scopePath = lit "x" := by decide
    show ((untraced (evalName frame clearFn.scopePath (lit "x")) >>= truthy) t).1 ≠ .ok true
    obtain ⟨u, hu⟩ : ∃ u, untraced (evalName frame clearFn.scopePath (lit "x")) t
        = ((evalName frame clearFn.scopePath (lit "x") s).1, u) := ⟨_, untraced_apply _ t⟩
    cases hslot : slotIn t.frames frame (lit "x") with
    | some slot =>
      have hfirst : firstInFrame frame [lit "x", stripScope (lit "x") clearFn.scopePath] s
          = (.ok (some slot.value), s) := by
        rw [firstInFrame, bind_of_ok hfound, hslot]
        rfl
      have hname : evalName frame clearFn.scopePath (lit "x") s = (.ok slot.value, s) :=
        bind_of_ok hfirst _
      rw [hname, h slot hslot] at hu
      rw [bind_of_ok hu]
      nofun
    | none =>
      have hfirst : firstInFrame frame [lit "x", stripScope (lit "x") clearFn.scopePath] s
          = (.ok none, s) := by
        rw [hstrip, firstInFrame, bind_of_ok hfound, hslot]
        exact (bind_of_ok hfound _).trans (by rw [hslot]; rfl)
      have hname : (evalName frame clearFn.scopePath (lit "x") s).1
          = .error (.raised ⟨.nameError, lit "'" ++ lit "x" ++ lit "' not in frame"⟩) :=
        congrArg Prod.fst (bind_of_ok hfirst _)
      rw [hname] at hu
      rw [bind_of_error hu]
      nofun

/-- The flag can be up although no loop would have gone on. -/
theorem not_capTruthful : ¬ ∀ (U : CharTable) (M : MathLib) (P : Program) (fuel : ℕ) (name : Text)
    (args : List (Text × Value)) (lists : List (List Value)),
    (callFn U M P fuel name args { lists }).1 ≠ .error .outOfFuel →
      CapTruthful U M P (callFn U M P fuel name args { lists }) := by
  intro h
  have hends : (callFn .ascii emptyLib clearOnce 4 (lit "f") [(lit "x", .int 1)] { lists := [] }).1
      = .ok .none := by decide +kernel
  obtain ⟨L, fuel, frame, t, ⟨s, hrounds, -⟩, hcond⟩ := h .ascii emptyLib clearOnce 4 (lit "f")
    [(lit "x", .int 1)] [] (by rw [hends]; nofun) (by decide +kernel)
  obtain ⟨hseg, hstmt, hbody⟩ := loopOf_clearOnce L
  have hdo : L.doWhile = false := by rw [LoopOf.doWhile, hstmt]; decide
  have hupdate : L.update = none := by rw [LoopOf.update, hstmt]; rfl
  rw [LoopOf.cond, hseg, hstmt] at hcond
  refine cond_clearLoop (fun slot hslot => ?_) hcond
  change Rounds _ 0 s (0 + 1) t at hrounds
  cases hrounds with
  | round _ hround =>
    rw [LoopOf.round, hseg, hstmt, hbody, hdo, hupdate] at hround
    exact value_of_round hround hslot

end Csc512
