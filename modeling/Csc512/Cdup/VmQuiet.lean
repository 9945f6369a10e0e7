import Csc512.Cdup.Vm
import Csc512.Lib.Congruence

/-!
# What only looks at the state, and what only changes the heap

Most of the kernel, and everything that reads the state, leaves it as it is. Only the operators that
make a new list are different. To copy a string or a list to the heap changes nothing but the heap
and the address of its next cell.
-/

namespace Csc512

open Exec

variable {α : Type}

/-- A part of a run that leaves the state as it is, and does not run out of fuel. -/
abbrev Silent (x : Vm α) : Prop := Quiet .outOfFuel x

theorem silent_raise (type : ErrorType) (message : Text) : Silent (raise type message : Vm α) :=
  quiet_stop nofun

theorem silent_orRaise (x : Option α) (type : ErrorType) (message : Text) :
    Silent (orRaise x type message) := by
  cases x with
  | none => exact silent_raise type message
  | some a => exact quiet_pure a

/-- A choice between two parts. -/
theorem silent_ite {p : Prop} [Decidable p] {x y : Vm α} (hx : Silent x) (hy : Silent y) :
    Silent (if p then x else y) := by
  split
  · exact hx
  · exact hy

theorem traced_apply (x : Vm α) (s : VmState) :
    traced x s = ((x { s with derefs := [] }).1.map fun a => (a, (x { s with derefs := [] }).2.derefs),
      { (x { s with derefs := [] }).2 with derefs := s.derefs }) := by
  unfold traced
  rcases x { s with derefs := [] } with ⟨_ | _, _⟩ <;> rfl

theorem untraced_apply {α : Type} (x : Vm α) (s : VmState) : untraced x s
    = ((x { s with derefs := [] }).1, { (x { s with derefs := [] }).2 with derefs := s.derefs }) := by
  rw [untraced, bind_apply, traced_apply]
  rcases x { s with derefs := [] } with ⟨_ | _, _⟩ <;> rfl

/-! ### The state -/

theorem silent_slot? (frame : ℕ) (name : Text) : Silent (slot? frame name) :=
  quiet_get.bind fun _ => quiet_pure _

theorem silent_inFrame (frame : ℕ) (name : Text) : Silent (inFrame frame name) :=
  (silent_slot? frame name).bind fun _ => quiet_pure _

theorem silent_fget (frame : ℕ) (name : Text) : Silent (fget frame name) :=
  (silent_slot? frame name).bind fun slot => (silent_orRaise slot _ _).bind fun _ => quiet_pure _

theorem silent_listItems (ref : ℕ) : Silent (listItems ref) :=
  quiet_get.bind fun _ => quiet_pure _

theorem silent_listPlace (items : List Value) (idx : ℤ) : Silent (listPlace items idx) :=
  silent_ite (quiet_pure _) (silent_raise _ _)

theorem silent_toInt (U : CharTable) (v : Value) : Silent (toInt U v) := by
  unfold toInt
  split
  case h_1 | h_4 => exact quiet_pure _
  case h_5 => exact silent_orRaise _ _ _
  all_goals exact silent_raise _ _

theorem silent_snapReads (frame : ℕ) (names : List Text) : Silent (snapReads frame names) :=
  quiet_get.bind fun _ => quiet_pure _

theorem silent_memorySize : Silent memorySize := quiet_get.bind fun _ => quiet_pure _

theorem silent_chr (v : Value) : Silent (chr v) := by
  cases v with
  | int n => exact silent_ite (quiet_pure _) (silent_raise _ _)
  | none | float | str | list => exact silent_raise _ _

theorem silent_heapRead_int (U : CharTable) (addr : ℤ) : Silent (heapRead U (.int addr)) := by
  refine (quiet_pure (Value.int addr)).bind fun v => (silent_toInt U v).bind fun addr => ?_
  refine quiet_get.bind fun s => silent_ite (silent_raise _ _) ?_
  split
  · exact quiet_pure _
  · exact silent_fget _ _
  · exact silent_raise _ _

theorem silent_readChars (U : CharTable) (addr : ℤ) (n : ℕ) : Silent (readChars U addr n) := by
  induction n generalizing addr with
  | zero => exact quiet_pure []
  | succ n ih =>
    refine (silent_heapRead_int U addr).bind fun v => silent_ite (quiet_pure _) ?_
    exact (silent_chr v).bind fun c => (ih (addr + 1)).bind fun rest => quiet_pure _

theorem silent_countChars (U : CharTable) (addr : ℤ) (length n : ℕ) :
    Silent (countChars U addr length n) := by
  induction n generalizing length with
  | zero => exact quiet_pure _
  | succ n ih =>
    exact (silent_heapRead_int U _).bind fun v => silent_ite (quiet_pure _) (ih (length + 1))

theorem silent_firstInFrame (frame : ℕ) (names : List Text) :
    Silent (firstInFrame frame names) := by
  induction names with
  | nil => exact quiet_pure none
  | cons name names ih =>
    refine (silent_slot? frame name).bind fun slot => ?_
    cases slot with
    | none => exact ih
    | some slot => exact quiet_pure _

theorem silent_evalName (frame : ℕ) (scope name : Text) : Silent (evalName frame scope name) :=
  silent_ite (quiet_pure _) ((silent_firstInFrame frame _).bind fun v => silent_orRaise v _ _)

theorem silent_evalSlot (frame : ℕ) (scope slot : Text) : Silent (evalSlot frame scope slot) :=
  (silent_firstInFrame frame _).bind fun v => silent_orRaise v _ _

/-! ### The kernel -/

theorem silent_truthy (v : Value) : Silent (truthy v) := by
  cases v with
  | list ref => exact (silent_listItems ref).bind fun items => quiet_pure _
  | none | int | float | str => exact quiet_pure _

theorem silent_toDouble (v : Value) : Silent (toDouble v) := by
  cases v with
  | int n =>
    rw [toDouble]
    split
    · exact silent_raise _ _
    · exact quiet_pure _
  | float x => exact quiet_pure x
  | none | str | list => exact silent_raise _ _

theorem silent_cmpEq (a b : Value) : Silent (cmpEq a b) :=
  quiet_get.bind fun _ => silent_orRaise _ _ _

theorem silent_cmpLtFrom (orEqual : Bool) (fuel : ℕ) (a b : Value) :
    Silent (cmpLtFrom orEqual fuel a b) := by
  induction fuel generalizing a b with
  | zero => exact silent_raise _ _
  | succ fuel ih =>
    unfold cmpLtFrom
    split
    · exact quiet_pure _
    · refine (silent_listItems _).bind fun xs => (silent_listItems _).bind fun ys => ?_
      refine (quiet_findM (fun p => ?_) _).bind fun different => ?_
      · exact (silent_cmpEq _ _).bind fun same => quiet_pure _
      · cases different with
        | some p => exact ih p.1 p.2
        | none => exact quiet_pure _
    · split
      · exact quiet_pure _
      · exact silent_raise _ _

theorem silent_cmpLt (orEqual : Bool) (a b : Value) : Silent (cmpLt orEqual a b) :=
  quiet_get.bind fun _ => silent_cmpLtFrom orEqual _ a b

theorem silent_arith (onInt : ℤ → ℤ → ℤ) (onDouble : Double → Double → Double) (a b : Value) :
    Silent (arith onInt onDouble a b) := by
  unfold arith
  split
  · exact quiet_pure _
  · exact (silent_toDouble a).bind fun x => (silent_toDouble b).bind fun y => quiet_pure _

theorem silent_opDiv (a b : Value) : Silent (opDiv a b) := by
  refine silent_ite (silent_raise _ _) ?_
  split
  · split
    · exact silent_raise _ _
    · exact quiet_pure _
  · exact silent_arith _ _ _ _

theorem silent_absValue (v : Value) : Silent (absValue v) := by
  cases v with
  | int | float => exact quiet_pure _
  | none | str | list => exact silent_raise _ _

theorem silent_opNeg (v : Value) : Silent (opNeg v) := by
  cases v with
  | int | float => exact quiet_pure _
  | none | str | list => exact silent_raise _ _

theorem silent_opMod (a b : Value) : Silent (opMod a b) := by
  refine silent_ite (silent_raise _ _) ?_
  refine (silent_absValue a).bind fun m => (silent_absValue b).bind fun n => ?_
  refine (silent_arith _ _ m n).bind fun result => (silent_cmpLt true _ a).bind fun positive => ?_
  exact silent_ite (quiet_pure _) (silent_opNeg result)

theorem silent_bitwise (U : CharTable) (onInt : ℤ → ℤ → ℤ) (a b : Value) :
    Silent (bitwise U onInt a b) :=
  (silent_toInt U a).bind fun _ => (silent_toInt U b).bind fun _ => quiet_pure _

theorem silent_shift (U : CharTable) (onInt : ℤ → ℕ → ℤ) (a b : Value) :
    Silent (shift U onInt a b) :=
  (silent_toInt U a).bind fun _ => (silent_toInt U b).bind fun _ =>
    silent_ite (silent_raise _ _) (quiet_pure _)

theorem silent_unOpValue (U : CharTable) (op : UnOp) (v : Value) : Silent (unOpValue U op v) := by
  cases op with
  | neg => exact silent_opNeg v
  | logNot => exact (silent_truthy v).map _
  | bitNot => exact (silent_toInt U v).bind fun _ => quiet_pure _
  | addrOf | deref => exact silent_raise _ _

theorem silent_constValue (U : CharTable) (c : Const) : Silent (constValue U c) := by
  cases c with
  | int | string => exact quiet_pure _
  | float src => exact (silent_orRaise _ _ _).bind fun x => quiet_pure _
  | char src =>
    simp only [constValue]
    split <;> exact quiet_pure _

theorem silent_integerNear (round : ℚ → ℤ) (v : Value) : Silent (integerNear round v) := by
  unfold integerNear
  split
  case h_1 | h_4 => exact quiet_pure _
  all_goals exact silent_raise _ _

theorem silent_opCall (M : MathLib) (fn : Text) (args : List Value) : Silent (opCall M fn args) := by
  unfold opCall
  split
  · refine silent_ite (silent_raise _ _) ((quiet_mapM silent_toDouble args).bind fun xs => ?_)
    split
    · exact quiet_pure _
    · exact silent_raise _ _
  · refine silent_ite ?_ (silent_ite ?_ (silent_ite ?_ (silent_raise _ _)))
    · split
      · exact silent_absValue _
      · exact silent_raise _ _
    · split
      · exact silent_integerNear _ _
      · exact silent_raise _ _
    · split
      · exact silent_ite ((silent_cmpLt _ _ _).bind fun second => quiet_pure _)
          ((silent_cmpLt _ _ _).bind fun second => quiet_pure _)
      · exact silent_raise _ _

/-! ### Formatted output -/

theorem silent_formatSpec (U : CharTable) (spec : Char) (v : Value) :
    Silent (formatSpec U spec v) := by
  refine quiet_get.bind fun s => silent_ite ?_ (silent_ite ?_ (silent_ite ?_ (silent_ite ?_ ?_)))
  · exact (silent_toInt U v).bind fun n => quiet_pure _
  · split
    · exact (silent_orRaise _ _ _).bind fun x => quiet_pure _
    · exact (silent_toDouble _).bind fun x => quiet_pure _
  · split
    · refine silent_ite (silent_memorySize.bind fun size => ?_) (quiet_pure _)
      exact silent_readChars U _ size
    · exact quiet_pure _
  · exact (silent_toInt U v).bind fun n => (silent_chr _).bind fun c => quiet_pure _
  · exact silent_ite (quiet_pure _) (quiet_pure _)

theorem silent_formatText (U : CharTable) (fmt : Text) (vals : List Value) :
    Silent (formatText U fmt vals) := by
  fun_induction formatText U fmt vals with
  | case1 spec fmt vals ih =>
    refine (silent_formatSpec U spec _).bind fun piece => Quiet.bind ?_ fun rest => quiet_pure _
    exact ih
  | case2 c fmt vals _ ih => exact ih.bind fun rest => quiet_pure _
  | case3 => exact quiet_pure []

/-! ### The heap -/

/-- A part of a run that changes nothing but the heap, and does not run out of fuel. -/
def HeapOnly (x : Vm α) : Prop :=
  ∀ s, (∃ heap heapCounter, (x s).2 = { s with heap, heapCounter }) ∧
    (x s).1 ≠ .error .outOfFuel

theorem heapOnly_of_silent {x : Vm α} (hx : Silent x) : HeapOnly x := by
  intro s
  exact ⟨⟨s.heap, s.heapCounter, (hx s).1⟩, (hx s).2⟩

theorem HeapOnly.bind {β : Type} {x : Vm α} {f : α → Vm β} (hx : HeapOnly x)
    (hf : ∀ a, HeapOnly (f a)) : HeapOnly (x >>= f) := by
  intro s
  obtain ⟨⟨heap, counter, hs⟩, he⟩ := hx s
  rw [bind_apply]
  rcases h : x s with ⟨e | a, t⟩
  · rw [h] at hs he
    exact ⟨⟨heap, counter, hs⟩, fun h => he (congrArg Except.error (Except.error.inj h))⟩
  · rw [h] at hs
    obtain ⟨⟨heap', counter', ht⟩, he'⟩ := hf a t
    refine ⟨⟨heap', counter', ?_⟩, he'⟩
    rw [ht, show t = _ from hs]

theorem HeapOnly.forM {γ : Type} {f : γ → Vm PUnit} (hf : ∀ c, HeapOnly (f c)) (l : List γ) :
    HeapOnly (l.forM f) := by
  induction l with
  | nil => exact heapOnly_of_silent (quiet_pure _)
  | cons c l ih => exact (hf c).bind fun _ => ih

theorem heapOnly_setHeap (addr : ℕ) (cell : HeapCell) : HeapOnly (setHeap addr cell) :=
  fun _ => ⟨⟨_, _, rfl⟩, nofun⟩

theorem heapOnly_setHeapCounter (addr : ℕ) : HeapOnly (setHeapCounter addr) :=
  fun _ => ⟨⟨_, _, rfl⟩, nofun⟩

theorem heapOnly_pure (a : α) : HeapOnly (pure a) := heapOnly_of_silent (quiet_pure a)

theorem heapOnly_listToHeapFrom (elemType : Text) (fuel : ℕ) (items : List Value) :
    HeapOnly (listToHeapFrom elemType fuel items) := by
  induction fuel generalizing items with
  | zero => exact heapOnly_of_silent (silent_raise _ _)
  | succ fuel ih =>
    refine (heapOnly_of_silent quiet_get).bind fun s => ?_
    refine (HeapOnly.forM (fun p => ?_) _).bind fun _ => ?_
    · split
      · refine (heapOnly_of_silent (silent_listItems _)).bind fun items =>
          (ih items).bind fun base => ?_
        exact heapOnly_setHeap _ _
      · exact heapOnly_setHeap _ _
    · exact (heapOnly_setHeapCounter _).bind fun _ => heapOnly_pure _

theorem heapOnly_listToHeap (items : List Value) (elemType : Text) :
    HeapOnly (listToHeap items elemType) :=
  (heapOnly_of_silent quiet_get).bind fun _ => heapOnly_listToHeapFrom elemType _ items

end Csc512
