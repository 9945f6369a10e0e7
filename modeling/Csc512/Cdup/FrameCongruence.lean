import Csc512.Cdup.VmCongruence

/-!
# Congruences of calls

A call writes the slots of its own frame by their names, and those of other frames through addresses
only. A relation between parts of runs can therefore be asked to respect the writes by name in some
frames only, if new frames are among them.

## Main results

* `FrameCongruence.related_evalStep` — expressions
* `FrameCongruence.execDeclAssign`, `FrameCongruence.execExprStmt` — statements
* `VmCongruence.onFrames` — a congruence for all frames
-/

namespace Csc512

open Exec

/-- A relation between parts of runs that the operations on the state respect, where slots are
created and written by name in some frames only. -/
structure FrameCongruence (F : ℕ → Prop) (R : ∀ {α : Type}, Vm α → Vm α → Prop) : Prop
    extends Congruence .outOfFuel R where
  traced : ∀ {α : Type} {x y : Vm α}, R x y → R (traced x) (traced y)
  newFrame_bind : ∀ {α : Type} {f g : ℕ → Vm α}, (∀ frame, F frame → R (f frame) (g frame)) →
    R (newFrame >>= f) (newFrame >>= g)
  allocStackSlot : ∀ frame, F frame → ∀ name value type, R (allocStackSlot frame name value type)
    (allocStackSlot frame name value type)
  writeSlot : ∀ frame, F frame → ∀ name value, R (writeSlot frame name value)
    (writeSlot frame name value)
  newList : ∀ items, R (newList items) (newList items)
  setItem : ∀ (ref place : ℕ) (v : Value), R
    (Exec.modify fun s => { s with lists := s.lists.modify ref fun items => items.set place v })
    (Exec.modify fun s => { s with lists := s.lists.modify ref fun items => items.set place v })
  allocHeap : ∀ nBytes elemType, R (allocHeap nBytes elemType) (allocHeap nBytes elemType)
  internString : ∀ str, R (internString str) (internString str)
  listToHeap : ∀ items elemType, R (listToHeap items elemType) (listToHeap items elemType)
  heapWrite : ∀ addr value, R (heapWrite addr value) (heapWrite addr value)
  noteDeref : ∀ addr value, R (noteDeref addr value) (noteDeref addr value)
  print : ∀ lines : List Text, R
    (Exec.modify fun s => { s with output := s.output ++ lines })
    (Exec.modify fun s => { s with output := s.output ++ lines })
  copyChars : ∀ U dst src, R (memorySize >>= copyChars U dst src)
    (memorySize >>= copyChars U dst src)
  compareChars : ∀ U a b, R (memorySize >>= compareChars U a b)
    (memorySize >>= compareChars U a b)

/-- A congruence respects the writes by name in all frames. -/
theorem VmCongruence.onFrames {R : ∀ {α : Type}, Vm α → Vm α → Prop} (hR : VmCongruence R) :
    FrameCongruence (fun _ => True) R where
  toCongruence := hR.toCongruence
  traced := hR.traced
  newFrame_bind h := hR.bind hR.newFrame fun frame => h frame trivial
  allocStackSlot frame _ := hR.allocStackSlot frame
  writeSlot frame _ := hR.writeSlot frame
  newList := hR.newList
  setItem := hR.setItem
  allocHeap := hR.allocHeap
  internString := hR.internString
  listToHeap := hR.listToHeap
  heapWrite := hR.heapWrite
  noteDeref := hR.noteDeref
  print := hR.print
  copyChars := hR.copyChars
  compareChars := hR.compareChars

/-- An expression is related to itself in some frames, and so is what it asks for. -/
structure AskedOn (F : ℕ → Prop) (P : Program) (R : ∀ {α : Type}, Vm α → Vm α → Prop)
    (I I' : Interp) (e : Expr) : Prop where
  eval : ∀ frame, F frame → ∀ scope, R (I.eval frame scope e) (I'.eval frame scope e)
  operands : ∀ e' ∈ e.operands, ∀ frame, F frame → ∀ scope,
    R (I.eval frame scope e') (I'.eval frame scope e')
  run : ∀ target, P.callee e = some target →
    ∀ frame, F frame → ∀ it, R (I.run target frame it) (I'.run target frame it)

theorem Asked.onFrames {P : Program} {R : ∀ {α : Type}, Vm α → Vm α → Prop} {I I' : Interp}
    {e : Expr} (h : Asked P R I I' e) : AskedOn (fun _ => True) P R I I' e where
  eval frame _ := h.eval frame
  operands e' he' frame _ := h.operands e' he' frame
  run target htarget frame _ := h.run target htarget frame

theorem silent_offset (op : BinOp) (left right : Value) : Silent (match left, right with
    | .int m, .int n =>
      if 0x1000 ≤ m ∨ 0x1000 ≤ n then
        let (base, delta) := if 0x1000 ≤ m then (m, n) else (n, m)
        pure (some (.int (if op = .add then base + delta else base - delta)))
      else pure none
    | _, _ => pure none : Vm (Option Value)) := by
  split
  · exact silent_ite (quiet_pure _) (quiet_pure none)
  · exact quiet_pure none

namespace FrameCongruence

variable {F : ℕ → Prop} {R : ∀ {α : Type}, Vm α → Vm α → Prop} (hR : FrameCongruence F R)

include hR

/-! ### Operations -/

omit hR in
theorem ite {α : Type} {p : Prop} [Decidable p] {x y x' y' : Vm α} (hx : R x x') (hy : R y y') :
    R (if p then x else y) (if p then x' else y') := by
  split
  · exact hx
  · exact hy

theorem raise {α : Type} (type : ErrorType) (message : Text) :
    R (raise type message : Vm α) (Csc512.raise type message) :=
  hR.quiet (silent_raise type message)

theorem orElse {α : Type} {x y fallback fallback' : Vm α} (h : R x y)
    (hf : R fallback fallback') : R (orElse x fallback) (Csc512.orElse y fallback') := by
  refine hR.handle h (fun r hr => ?_) rfl rfl
  rcases r with (_ | _ | _ | _ | _) | a
  case error.outOfFuel => exact absurd rfl hr
  case ok => exact hR.pure a
  all_goals exact hf

theorem untraced {α : Type} {x y : Vm α} (h : R x y) : R (untraced x) (Csc512.untraced y) :=
  hR.bind (hR.traced h) fun r => hR.pure r.1

theorem setSlot {frame : ℕ} (hF : F frame) (name : Text) (value : Value) (type : Text) :
    R (setSlot frame name value type) (Csc512.setSlot frame name value type) :=
  hR.quiet_bind (silent_inFrame frame name) fun _ => FrameCongruence.ite
    (hR.writeSlot frame hF name value) (hR.allocStackSlot frame hF name value type)

theorem heapRead (U : CharTable) (addr : Value) :
    R (heapRead U addr) (Csc512.heapRead U addr) := by
  cases addr with
  | str s =>
    refine hR.bind (hR.internString s) fun addr => hR.quiet ?_
    refine (silent_toInt U addr).bind fun n => quiet_get.bind fun s => ?_
    refine silent_ite (silent_raise _ _) ?_
    split
    · exact quiet_pure _
    · exact silent_fget _ _
    · exact silent_raise _ _
  | none | int | float | list =>
    refine hR.quiet ((quiet_pure _).bind fun addr => ?_)
    refine (silent_toInt U addr).bind fun n => quiet_get.bind fun s => ?_
    refine silent_ite (silent_raise _ _) ?_
    split
    · exact quiet_pure _
    · exact silent_fget _ _
    · exact silent_raise _ _

/-! ### The kernel -/

theorem opAdd (a b : Value) : R (opAdd a b) (Csc512.opAdd a b) := by
  unfold Csc512.opAdd
  split
  · exact hR.pure _
  · exact hR.quiet_bind (silent_listItems _) fun xs =>
      hR.quiet_bind (silent_listItems _) fun ys => hR.newList _
  · exact hR.quiet (silent_arith _ _ _ _)

theorem opMul (a b : Value) : R (opMul a b) (Csc512.opMul a b) := by
  unfold Csc512.opMul
  dsimp only
  split
  case h_1 | h_2 => exact hR.pure _
  case h_5 => exact hR.quiet (silent_arith _ _ _ _)
  all_goals exact hR.quiet_bind (silent_listItems _) fun xs => hR.newList _

theorem binOpValue (U : CharTable) (op : BinOp) (a b : Value) :
    R (binOpValue U op a b) (Csc512.binOpValue U op a b) := by
  cases op with
  | add => exact hR.opAdd a b
  | mul => exact hR.opMul a b
  | sub => exact hR.quiet (silent_arith _ _ a b)
  | div => exact hR.quiet (silent_opDiv a b)
  | mod => exact hR.quiet (silent_opMod a b)
  | bitAnd | bitOr | bitXor => exact hR.quiet (silent_bitwise U _ a b)
  | shl | shr => exact hR.quiet (silent_shift U _ a b)
  | cmpEq | cmpNe => exact hR.quiet ((silent_cmpEq a b).map _)
  | cmpLt | cmpLe => exact hR.quiet ((silent_cmpLt _ a b).map _)
  | cmpGt | cmpGe => exact hR.quiet ((silent_cmpLt _ b a).map _)
  | logAnd | logOr =>
    exact hR.quiet ((silent_truthy a).bind fun _ => (silent_truthy b).bind fun _ => quiet_pure _)

theorem stepValue (op : StepOp) (v : Value) : R (stepValue op v) (Csc512.stepValue op v) :=
  hR.opAdd v _

theorem pointerArith (op : BinOp) (left right : Value) :
    R (pointerArith op left right) (Csc512.pointerArith op left right) := by
  have hsum := silent_offset op
  unfold Csc512.pointerArith
  dsimp only
  split
  · refine hR.quiet_bind (silent_listItems _) fun items => ?_
    exact hR.bind (hR.listToHeap items _) fun base => hR.quiet (hsum _ _)
  · refine hR.quiet_bind (silent_listItems _) fun items => ?_
    exact hR.bind (hR.listToHeap items _) fun base => hR.quiet (hsum _ _)
  · exact hR.quiet (hsum _ _)

theorem mockPrintf (U : CharTable) (vals : List Value) :
    R (mockPrintf U vals) (Csc512.mockPrintf U vals) := by
  cases vals with
  | nil => exact hR.pure ()
  | cons fmtArg vals =>
    have hprint : ∀ fmt : Text, R
        (do
          let result ← formatText U (unescape fmt) vals
          Exec.modify fun s =>
            { s with output := s.output ++ (result.splitOn '\n').filter (· ≠ []) })
        (do
          let result ← formatText U (unescape fmt) vals
          Exec.modify fun s =>
            { s with output := s.output ++ (result.splitOn '\n').filter (· ≠ []) }) :=
      fun fmt => hR.quiet_bind (silent_formatText U _ vals) fun result => hR.print _
    unfold Csc512.mockPrintf
    refine hR.quiet_bind quiet_get fun s => ?_
    simp only [pure_bind]
    split
    · exact FrameCongruence.ite (hR.quiet_bind (silent_readChars U _ _) hprint) (hprint _)
    · exact hprint _
    · exact hprint _

/-! ### Calls -/

variable (U : CharTable) (M : MathLib) (P : Program) {I I' : Interp}

theorem bindParam (frame : ℕ) (scope : Text) {argFrame : ℕ} (hargFrame : F argFrame)
    (param : Param) {arg : Expr} (harg : R (I.eval frame scope arg) (I'.eval frame scope arg)) :
    R (bindParam I frame scope argFrame (param, arg))
      (Csc512.bindParam I' frame scope argFrame (param, arg)) := by
  cases param with
  | plain name type =>
    have halloc := fun val => hR.allocStackSlot argFrame hargFrame name val type
    refine hR.bind (hR.orElse harg (hR.pure _)) fun val => ?_
    dsimp only
    split
    · refine hR.quiet_bind (silent_listItems _) fun items => ?_
      split
      · exact halloc _
      · exact halloc _
      · exact hR.bind (hR.listToHeap items _) halloc
    · exact hR.bind (hR.internString _) halloc
    · exact halloc _
  | udt parent fields =>
    refine hR.forM fun field _ => hR.quiet_bind (silent_orRaise _ _ _) fun p => ?_
    exact hR.quiet_bind (silent_slot? _ _) fun slot =>
      hR.allocStackSlot argFrame hargFrame field _ _

variable {args : List Expr} {frame : ℕ} (hF : F frame)
  (hargs : ∀ e ∈ args, ∀ scope, R (I.eval frame scope e) (I'.eval frame scope e))

include hargs

theorem callUser (fn : Segment) (scope : Text)
    (hrun : ∀ frame, F frame → ∀ it, R (I.run fn frame it) (I'.run fn frame it)) :
    R (callUser I fn args frame scope) (Csc512.callUser I' fn args frame scope) := by
  refine hR.newFrame_bind fun argFrame hargFrame => ?_
  refine hR.bind (hR.forM fun p hp => ?_) fun _ => ?_
  · exact hR.bindParam frame scope hargFrame p.1 (hargs p.2 (List.of_mem_zip hp).2 scope)
  · refine hR.handle (hrun argFrame hargFrame none) (fun r hr => ?_) rfl rfl
    rcases r with (_ | _ | _ | _ | _) | a
    case error.returned v => exact hR.pure v
    case error.outOfFuel => exact absurd rfl hr
    case ok => exact hR.pure _
    all_goals exact hR.stop nofun

theorem intArg (i : ℕ) {missing : Vm ℤ} (hmissing : Silent missing) (scope : Text) :
    R (intArg U I args i missing frame scope) (Csc512.intArg U I' args i missing frame scope) := by
  unfold Csc512.intArg
  split
  · exact hR.quiet hmissing
  · rename_i arg harg
    refine hR.bind (hargs arg (List.mem_of_getElem? harg) scope) fun v => ?_
    exact hR.quiet (silent_toInt U v)

theorem callBuiltin (fn : Builtin) (scope : Text) :
    R (callBuiltin U I fn args frame scope) (Csc512.callBuiltin U I' fn args frame scope) := by
  have required := fun i => hR.intArg U hargs i (silent_raise .indexError []) scope
  have optional := fun i (n : ℤ) =>
    hR.intArg U hargs i (quiet_pure n : Silent (pure n)) scope
  cases fn with
  | printf =>
    refine hR.bind (hR.mapM fun e he => hargs e he scope) fun vals => ?_
    exact hR.bind (hR.mockPrintf U vals) fun _ => hR.pure _
  | malloc => exact hR.bind (optional 0 0) fun nBytes => hR.allocHeap nBytes _
  | calloc =>
    exact hR.bind (optional 0 0) fun n => hR.bind (optional 1 1) fun size => hR.allocHeap _ _
  | realloc => exact hR.bind (optional 1 0) fun nBytes => hR.allocHeap nBytes _
  | free | sizeof => exact hR.pure _
  | strlen =>
    exact hR.bind (optional 0 0) fun addr => hR.quiet (silent_countChars U addr 0 100001)
  | strcpy =>
    refine hR.bind (required 0) fun dst => hR.bind (required 1) fun src => ?_
    have hcopy := hR.bind (hR.copyChars U dst src) fun _ => hR.pure (Value.int dst)
    rw [bind_assoc] at hcopy
    exact hcopy
  | strcmp =>
    exact hR.bind (required 0) fun a => hR.bind (required 1) fun b => hR.compareChars U a b
  | memset =>
    refine hR.bind (required 0) fun dst => hR.bind (required 1) fun val =>
      hR.bind (required 2) fun n => hR.bind (hR.forM fun i _ => ?_) fun _ => hR.pure _
    exact hR.heapWrite _ _
  | memcpy =>
    refine hR.bind (required 0) fun dst => hR.bind (required 1) fun src =>
      hR.bind (required 2) fun n => hR.bind (hR.forM fun i _ => ?_) fun _ => hR.pure _
    exact hR.bind (hR.heapRead U _) fun v => hR.heapWrite _ v

theorem evalCall (fn : Text) (scope : Text)
    (hrun : ∀ target, P.callee (.call fn args) = some target →
      ∀ frame, F frame → ∀ it, R (I.run target frame it) (I'.run target frame it)) :
    R (evalCall U M P I fn args frame scope) (Csc512.evalCall U M P I' fn args frame scope) := by
  unfold Csc512.evalCall
  split
  · exact hR.callBuiltin U hargs _ scope
  · rename_i target hlookup hfn
    refine hR.callUser hargs target scope (hrun target ?_)
    rw [Program.callee, hlookup]
    exact hfn
  · refine hR.handle ?_ (fun r hr => ?_) rfl rfl
    · refine hR.bind (hR.mapM fun e he => hargs e he scope) fun vals => ?_
      exact hR.quiet (silent_opCall M fn vals)
    · split
      · exact hR.pure _
      · exact hR.raise _ _
      · exact hR.stop fun he => hr (congrArg Except.error he)

omit hargs

include hF

/-! ### Expressions -/

/-- **Expressions** are related when their operands and the function that they call are. -/
theorem related_evalStep {e : Expr}
    (hops : ∀ e' ∈ e.operands, ∀ scope, R (I.eval frame scope e') (I'.eval frame scope e'))
    (hrun : ∀ target, P.callee e = some target →
      ∀ frame, F frame → ∀ it, R (I.run target frame it) (I'.run target frame it))
    (scope : Text) :
    R (evalStep U M P I frame scope e) (evalStep U M P I' frame scope e) := by
  have harg : ∀ e' ∈ e.operands, R (I.eval frame scope e') (I'.eval frame scope e') :=
    fun e' he' => hops e' he' scope
  cases e with
  | name n => exact hR.quiet (silent_evalName frame scope n)
  | slot s => exact hR.quiet (silent_evalSlot frame scope s)
  | const c => exact hR.quiet (silent_constValue U c)
  | call fn args => exact hR.untraced (hR.evalCall U M P hops fn scope hrun)
  | sizeofType of => exact hR.pure _
  | sizeofExpr arg => exact hR.pure _
  | cast type arg => exact harg arg List.mem_cons_self
  | field obj field =>
    exact hR.quiet_bind (silent_slot? _ _) fun slot => hR.quiet_bind (silent_orRaise _ _ _)
      fun slot => hR.pure _
  | un op arg =>
    cases op with
    | addrOf =>
      exact hR.quiet_bind (silent_slot? _ _) fun slot => hR.quiet_bind (silent_orRaise _ _ _)
        fun slot => hR.pure _
    | deref =>
      exact hR.bind (harg arg List.mem_cons_self) fun addr => hR.bind (hR.heapRead U addr) fun v =>
        hR.bind (hR.noteDeref addr v) fun _ => hR.pure v
    | neg | logNot | bitNot =>
      exact hR.bind (harg arg List.mem_cons_self) fun v => hR.quiet (silent_unOpValue U _ v)
  | index arr idx =>
    refine hR.bind (harg idx List.mem_cons_self) fun i => ?_
    refine hR.quiet_bind (silent_toInt U i) fun i => ?_
    refine hR.bind (harg arr (List.mem_cons_of_mem _ List.mem_cons_self)) fun v => ?_
    cases v with
    | list ref =>
      exact hR.quiet_bind (silent_listItems ref) fun items =>
        hR.quiet_bind (silent_listPlace items i) fun place => hR.pure _
    | int n =>
      exact hR.bind (hR.heapRead U _) fun v => hR.bind (hR.noteDeref _ v) fun _ => hR.pure v
    | none | float | str => exact hR.raise _ _
  | step op arg =>
    have harg := harg arg List.mem_cons_self
    refine hR.quiet_bind (silent_slot? _ _) fun slot => ?_
    cases slot with
    | none => exact harg
    | some slot =>
      refine FrameCongruence.ite harg (hR.bind (hR.stepValue op slot.value) fun new => ?_)
      exact hR.bind (hR.writeSlot _ hF _ new) fun _ => hR.pure _
  | bin op a b =>
    have ha := harg a List.mem_cons_self
    have hb := harg b (List.mem_cons_of_mem _ List.mem_cons_self)
    have hnone : R
        (do
          let x ← I.eval frame scope a
          let y ← I.eval frame scope b
          Csc512.binOpValue U op x y)
        (do
          let x ← I'.eval frame scope a
          let y ← I'.eval frame scope b
          Csc512.binOpValue U op x y) :=
      hR.bind ha fun x => hR.bind hb fun y => hR.binOpValue U op x y
    refine FrameCongruence.ite ?_ hnone
    refine hR.bind ha fun left => hR.bind hb fun right =>
      hR.bind (hR.pointerArith op left right) fun pointer => ?_
    -- without a pointer both operands are evaluated once more
    cases pointer with
    | some v => exact hR.pure v
    | none => exact hnone

/-! ### Statements -/

omit hF

mutual

theorem loadInit (item : InitData) : R (loadInit item) (Csc512.loadInit item) := by
  cases item with
  | list items => exact hR.bind (loadInits items) hR.newList
  | int | float | str => exact hR.pure _

theorem loadInits (items : List InitData) : R (loadInits items) (Csc512.loadInits items) := by
  cases items with
  | nil => exact hR.pure []
  | cons item items =>
    exact hR.bind (loadInit item) fun v => hR.bind (loadInits items) fun vs => hR.pure (v :: vs)

end

include hF

theorem initFields (lName : Text) (fields : List Slot) (vals : List Value) :
    R (initFields frame lName fields vals) (Csc512.initFields frame lName fields vals) := by
  induction fields generalizing vals with
  | nil => exact hR.pure []
  | cons field fields ih =>
    exact hR.bind (hR.allocStackSlot frame hF _ _ _) fun _ => hR.bind (ih _) fun keys => hR.pure _

theorem initArray (base type : Text) (vals : List Value) :
    R (initArray frame base type vals) (Csc512.initArray frame base type vals) := by
  unfold Csc512.initArray
  split
  · exact hR.bind (hR.newList vals) fun v => hR.allocStackSlot frame hF base v type
  · exact hR.bind (hR.listToHeap vals _) fun v => hR.allocStackSlot frame hF base v _

omit hF in
theorem promote (isPointer : Bool) (type : Text) (v : Value) :
    R (promote isPointer type v) (Csc512.promote isPointer type v) := by
  unfold Csc512.promote
  split
  · exact hR.quiet_bind (silent_listItems _) fun items => hR.listToHeap items _
  · exact hR.internString _
  · exact hR.pure v

variable (hrecord : ∀ stmt seg iteration readSnap writeSnap taken reads writes,
  R (record P stmt seg iteration readSnap writeSnap taken reads writes)
    (record P stmt seg iteration readSnap writeSnap taken reads writes))

include hrecord

theorem execStep (stmt : Statement) (lName : Text) (op : StepOp) (seg : Segment)
    (iteration : Option ℕ) : R (execStep U P stmt lName op frame seg iteration)
      (Csc512.execStep U P stmt lName op frame seg iteration) := by
  refine hR.quiet_bind (silent_slot? _ _) fun inner => ?_
  split
  · refine hR.bind (hR.heapRead U _) fun cur => hR.bind (hR.stepValue op cur) fun new => ?_
    exact hR.bind (hR.heapWrite _ new) fun _ => hrecord _ _ _ _ _ _ _ _
  · refine hR.quiet_bind (silent_slot? _ _) fun slot => hR.bind (hR.stepValue op _) fun new => ?_
    exact hR.bind (hR.setSlot hF lName new _) fun _ => hrecord _ _ _ _ _ _ _ _

variable {stmt : Statement}

omit hrecord in
theorem evalOpt {expr : Option Expr} (hI : ∀ e, expr = some e → AskedOn F P R I I' e)
    (seg : Segment) :
    R (evalOpt I expr frame seg) (Csc512.evalOpt I' expr frame seg) := by
  cases expr with
  | none => exact hR.pure _
  | some e => exact hR.untraced ((hI e rfl).eval frame hF seg.scopePath)

theorem execAssign (lName type : Text) {expr : Expr} (hI : AskedOn F P R I I' expr)
    (seg : Segment) (iteration : Option ℕ) (readSnap : Dict Text Snapshot) :
    R (execAssign P I stmt lName type expr frame seg iteration readSnap)
      (Csc512.execAssign P I' stmt lName type expr frame seg iteration readSnap) := by
  have heval := hI.eval frame hF seg.scopePath
  unfold Csc512.execAssign
  split
  · refine hR.bind (hR.untraced heval) fun v => hR.quiet_bind (silent_slot? _ _) fun slot => ?_
    cases slot with
    | some slot => exact hR.bind (hR.heapWrite _ v) fun _ => hrecord _ _ _ _ _ _ _ _
    | none => exact hrecord _ _ _ _ _ _ _ _
  · refine hR.bind (hR.traced heval) fun p => hR.bind (hR.promote _ type p.1) fun v => ?_
    refine hR.bind (hR.setSlot hF lName v type) fun _ => ?_
    exact hR.quiet_bind (silent_snapReads _ _) fun writeSnap => hrecord _ _ _ _ _ _ _ _

theorem execDeclAssign (hI : ∀ e, stmt.expr = some e → AskedOn F P R I I' e)
    (seg : Segment) (iteration : Option ℕ) :
    R (execDeclAssign U P I stmt frame seg iteration)
      (Csc512.execDeclAssign U P I' stmt frame seg iteration) := by
  unfold Csc512.execDeclAssign
  split
  · exact hR.pure ()
  · rename_i lName _
    refine hR.quiet_bind (silent_snapReads _ _) fun readSnap => ?_
    dsimp only
    split
    · refine hR.bind (hR.loadInits _) fun vals => hR.bind (hR.initFields hF _ _ vals) fun w => ?_
      exact hR.quiet_bind (silent_snapReads _ _) fun writeSnap => hrecord _ _ _ _ _ _ _ _
    · refine FrameCongruence.ite ?_ ?_
      · split
        · refine hR.bind (hR.loadInits _) fun vals => hR.bind (hR.initArray hF _ _ vals) fun _ => ?_
          exact hR.quiet_bind (silent_snapReads _ _) fun writeSnap => hrecord _ _ _ _ _ _ _ _
        · exact hR.pure ()
      · split
        · exact hR.execStep U P hF hrecord stmt lName _ seg iteration
        · exact hR.execAssign P hF hrecord lName _ (hI _ ‹_›) seg iteration readSnap
        · refine FrameCongruence.ite (hR.bind (hR.allocStackSlot _ hF _ _ _) fun _ => ?_) (hR.pure ())
          exact hrecord _ _ _ _ _ _ _ _

theorem execControl (hI : ∀ e, stmt.expr = some e → AskedOn F P R I I' e)
    (seg : Segment) (iteration : Option ℕ) :
    R (execControl P I stmt frame seg iteration)
      (Csc512.execControl P I' stmt frame seg iteration) := by
  refine hR.quiet_bind (silent_snapReads _ _) fun readSnap => ?_
  refine hR.bind (hrecord _ _ _ _ _ _ _ _) fun _ => ?_
  refine FrameCongruence.ite ?_
    (FrameCongruence.ite (hR.stop nofun) (FrameCongruence.ite (hR.stop nofun) (hR.pure ())))
  exact hR.bind (hR.evalOpt P hF hI seg) fun v =>
    hR.stop nofun

theorem storeDoubleDeref {pp rhs : Text}
    (hrhs : ∀ e, parseExpr U rhs = some e → AskedOn F P R I I' e) (seg : Segment)
    (iteration : Option ℕ) : R (storeDoubleDeref U P I stmt pp rhs frame seg iteration)
      (Csc512.storeDoubleDeref U P I' stmt pp rhs frame seg iteration) := by
  refine hR.bind (hR.evalOpt P hF hrhs seg) fun v => ?_
  refine hR.quiet_bind (silent_snapReads _ _) fun readSnap => ?_
  refine hR.quiet_bind (silent_slot? _ _) fun slot => ?_
  cases slot with
  | some slot =>
    exact hR.bind (hR.heapRead U _) fun addr => hR.bind (hR.heapWrite addr v) fun _ =>
      hrecord _ _ _ _ _ _ _ _
  | none => exact hR.pure ()

theorem storeDeref {ptr rhs : Text}
    (hptr : ∀ e, parseExpr U ptr = some e → AskedOn F P R I I' e)
    (hrhs : ∀ e, parseExpr U rhs = some e → AskedOn F P R I I' e) (seg : Segment)
    (iteration : Option ℕ) : R (storeDeref U P I stmt ptr rhs frame seg iteration)
      (Csc512.storeDeref U P I' stmt ptr rhs frame seg iteration) := by
  refine hR.bind (hR.evalOpt P hF hptr seg) fun addr => ?_
  refine hR.bind (hR.evalOpt P hF hrhs seg) fun v => ?_
  refine hR.quiet_bind (silent_snapReads _ _) fun readSnap => ?_
  exact hR.bind (hR.heapWrite addr v) fun _ => hrecord _ _ _ _ _ _ _ _

theorem storeElement {arr idx rhs : Text}
    (hidx : ∀ e, parseExpr U idx = some e → AskedOn F P R I I' e)
    (hrhs : ∀ e, parseExpr U rhs = some e → AskedOn F P R I I' e) (seg : Segment)
    (iteration : Option ℕ) : R (storeElement U P I stmt arr idx rhs frame seg iteration)
      (Csc512.storeElement U P I' stmt arr idx rhs frame seg iteration) := by
  refine hR.bind (hR.evalOpt P hF hidx seg) fun i => ?_
  refine hR.quiet_bind (silent_toInt U i) fun i => ?_
  refine hR.bind (hR.evalOpt P hF hrhs seg) fun v => ?_
  refine hR.quiet_bind (silent_snapReads _ _) fun readSnap => ?_
  refine hR.quiet_bind (silent_slot? _ _) fun slot => ?_
  split
  · refine hR.quiet_bind (silent_listItems _) fun items => ?_
    refine hR.quiet_bind (silent_listPlace items i) fun place => ?_
    refine hR.bind (hR.setItem _ place v) fun _ => ?_
    exact hR.quiet_bind (silent_listItems _) fun items => hrecord _ _ _ _ _ _ _ _
  · exact hR.bind (hR.heapWrite _ v) fun _ => hrecord _ _ _ _ _ _ _ _
  · exact hR.pure ()

theorem execExprStmt (hI : ∀ e ∈ storeExprs U stmt.raw, AskedOn F P R I I' e)
    (seg : Segment) (iteration : Option ℕ) :
    R (execExprStmt U P I stmt frame seg iteration)
      (Csc512.execExprStmt U P I' stmt frame seg iteration) := by
  have store := fun {x y : Vm Unit} (h : R x y) => hR.orElse h (hR.pure ())
  unfold Csc512.execExprStmt
  dsimp only
  split
  · rename_i m hm
    have hpart : ∀ k ∈ [1, 2, 3], ∀ e, parseExpr U (strip (groupText k m)) = some e →
        AskedOn F P R I I' e := fun k hk e he => hI e (mem_storeExprs U (by simp) hm hk he)
    exact store (hR.storeDoubleDeref U P hF hrecord (hpart 2 (by simp)) seg iteration)
  · rename_i m _ hm
    have hpart : ∀ k ∈ [1, 2, 3], ∀ e, parseExpr U (strip (groupText k m)) = some e →
        AskedOn F P R I I' e := by
      intro k hk e he
      rcases hd : derefExprPattern.matchStart (bareStmt stmt.raw) with _ | m'
      · rw [hd] at hm
        exact hI e (mem_storeExprs U (by simp) hm hk he)
      · rw [hd] at hm
        obtain rfl := Option.some.inj hm
        exact hI e (mem_storeExprs U (by simp) hd hk he)
    exact store (hR.storeDeref U P hF hrecord (hpart 1 (by simp)) (hpart 2 (by simp)) seg
      iteration)
  · rename_i m _ _ hm
    have hpart : ∀ k ∈ [1, 2, 3], ∀ e, parseExpr U (strip (groupText k m)) = some e →
        AskedOn F P R I I' e := fun k hk e he => hI e (mem_storeExprs U (by simp) hm hk he)
    exact store (hR.storeElement U P hF hrecord (hpart 2 (by simp)) (hpart 3 (by simp)) seg
      iteration)
  · exact hR.quiet_bind (silent_snapReads _ _) fun readSnap => hrecord _ _ _ _ _ _ _ _

omit hrecord in
theorem execUpdate {src : Text} (hI : ∀ e, updateExpr U src = some e → AskedOn F P R I I' e)
    (seg : Segment) : R (execUpdate U I src frame seg) (Csc512.execUpdate U I' src frame seg) := by
  unfold Csc512.execUpdate
  dsimp only
  split
  · refine hR.quiet_bind (silent_slot? _ _) fun slot => hR.bind (hR.stepValue _ _) fun new => ?_
    exact hR.setSlot hF _ new _
  · split
    · rename_i lhs cop rhs hcompound
      split
      · rename_i tree htree
        have hupdate : updateExpr U src = some tree := by
          rw [updateExpr, hcompound]
          exact htree
        exact hR.bind (hR.untraced ((hI tree hupdate).eval frame hF seg.scopePath)) fun v =>
          hR.setSlot hF lhs v _
      · exact hR.pure ()
    · exact hR.pure ()

theorem execCallStmt (hI : ∀ e, stmt.expr = some e → AskedOn F P R I I' e)
    (seg : Segment) (iteration : Option ℕ) :
    R (execCallStmt U M P I stmt frame seg iteration)
      (Csc512.execCallStmt U M P I' stmt frame seg iteration) := by
  unfold Csc512.execCallStmt
  refine hR.quiet_bind (silent_snapReads _ _) fun readSnap => ?_
  dsimp only
  split
  · rename_i fn args hexpr
    have hasked := hI _ hexpr
    refine hR.bind (hR.untraced ?_) fun _ => hrecord _ _ _ _ _ _ _ _
    exact hR.evalCall U M P (fun e he => hasked.operands e he frame hF) fn seg.scopePath hasked.run
  · exact hrecord _ _ _ _ _ _ _ _

end FrameCongruence

end Csc512
