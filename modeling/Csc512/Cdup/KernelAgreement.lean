import Csc512.Cdup.StackAddresses
import Csc512.Cdup.VmQuiet

/-!
# The interpreter and the kernel

The kernel can evaluate expressions by itself, against a frame that maps slots to values. The
interpreter looks at an expression before the kernel does: it takes sums and differences of large
integers for pointer arithmetic, and it drops casts. On numbers, it agrees with the kernel on the
expression without the casts, unless a large integer is subtracted from a small one.

## Main results

* `eval_eq_kernelEval` — the agreement
* `not_evaluatorsAgree` — a cast that is dropped
-/

namespace Csc512

open Exec

/-! ### The kernel by itself -/

section Kernel

variable (U : CharTable) (M : MathLib)

/-- Does a type name contain one of some names? -/
def mentionsType (names : List String) (type : Text) : Bool :=
  names.any fun name => contains name.toList type

/-- A cast. -/
def opCast (type : Text) (v : Value) : Vm Value :=
  if mentionsType ["int", "long", "short", "char"] type then do
    let n ← toInt U v
    pure (.int n)
  else if mentionsType ["float", "double"] type then
    match v with
    | .str s => do
      let x ← orRaise (floatOfText U s) .valueError
      pure (.float x)
    | v => do
      let x ← toDouble v
      pure (.float x)
  else pure v

/-- An item of a sequence. -/
def opIndex (arr idx : Value) : Vm Value :=
  match arr with
  | .list ref => do
    let items ← listItems ref
    let i ← toInt U idx
    let place ← listPlace items i
    pure (items.getD place .none)
  | .str s => do
    let chars := s.map fun c => Value.str [c]
    let i ← toInt U idx
    let place ← listPlace chars i
    pure (chars.getD place .none)
  | v => raise .typeError (lit "Cannot index non-sequence value " ++ reprText [] 0 v ++ lit ".")

mutual

/-- The value of a resolved expression in a frame. -/
def kernelEval (frame : Dict Text Value) : Expr → Vm Value
  | .name n => raise .nameError (lit "Unresolved identifier '" ++ n ++ lit "' in expr tree. " ++
      lit "Run matrix._resolve_expr() before calling VMKernel.eval().")
  | .slot s => orRaise (frame.get? s) .keyError (lit "Slot '" ++ s ++ lit "' not found in frame.")
  | .const c => constValue U c
  | .bin op a b => do
    let x ← kernelEval frame a
    let y ← kernelEval frame b
    binOpValue U op x y
  | .un op a => do
    let v ← kernelEval frame a
    unOpValue U op v
  | .step op a => do
    let v ← kernelEval frame a
    match op with
    | .postInc | .postDec => pure v
    | .preInc => opAdd v (.int 1)
    | .preDec => opSub v (.int 1)
  | .index arr idx => do
    let v ← kernelEval frame arr
    let i ← kernelEval frame idx
    opIndex U v i
  | .field obj field => do
    let v ← kernelEval frame obj
    raise .typeError (lit "Cannot access field '" ++ field ++ lit "' on " ++ reprText [] 0 v ++
      lit ".")
  | .call fn args => do
    let vals ← kernelEvals frame args
    opCall M fn vals
  | .cast type a => do
    let v ← kernelEval frame a
    opCast U type v
  | .sizeofType _ => pure (.int 4)
  | .sizeofExpr a => do
    let _ ← kernelEval frame a
    raise .typeError

/-- The values of resolved expressions. -/
def kernelEvals (frame : Dict Text Value) : List Expr → Vm (List Value)
  | [] => pure []
  | e :: es => do
    let v ← kernelEval frame e
    let vs ← kernelEvals frame es
    pure (v :: vs)

end

end Kernel

/-! ### Arithmetic -/

/-- Expressions of numbers. -/
inductive Arith where
  | var (n : Text)
  | int (n : ℤ)
  | float (src : Text)
  | bin (op : BinOp) (a b : Arith)
  | neg (a : Arith)
  | logNot (a : Arith)
  | bitNot (a : Arith)
  | cast (type : Text) (a : Arith)

namespace Arith

/-- The tree of an expression, with something in the place of its variables. -/
def toExpr (leaf : Text → Expr) : Arith → Expr
  | var n => leaf n
  | int n => .const (.int n)
  | float src => .const (.float src)
  | bin op a b => .bin op (a.toExpr leaf) (b.toExpr leaf)
  | neg a => .un .neg (a.toExpr leaf)
  | logNot a => .un .logNot (a.toExpr leaf)
  | bitNot a => .un .bitNot (a.toExpr leaf)
  | cast type a => .cast type (a.toExpr leaf)

/-- The expression without its casts. -/
def uncast : Arith → Arith
  | var n => var n
  | int n => int n
  | float src => float src
  | bin op a b => bin op a.uncast b.uncast
  | neg a => neg a.uncast
  | logNot a => logNot a.uncast
  | bitNot a => bitNot a.uncast
  | cast _ a => a.uncast

/-- The variables of an expression. -/
def vars : Arith → List Text
  | var n => [n]
  | int _ => []
  | float _ => []
  | bin _ a b => a.vars ++ b.vars
  | neg a => a.vars
  | logNot a => a.vars
  | bitNot a => a.vars
  | cast _ a => a.vars

/-- How deep an expression is nested. -/
def depth : Arith → ℕ
  | var _ => 1
  | int _ => 1
  | float _ => 1
  | bin _ a b => max a.depth b.depth + 1
  | neg a => a.depth + 1
  | logNot a => a.depth + 1
  | bitNot a => a.depth + 1
  | cast _ a => a.depth + 1

/-- The pairs of operands of the differences in an expression. -/
def differences : Arith → List (Arith × Arith)
  | var _ => []
  | int _ => []
  | float _ => []
  | bin op a b => (if op = .sub then [(a, b)] else []) ++ a.differences ++ b.differences
  | neg a => a.differences
  | logNot a => a.differences
  | bitNot a => a.differences
  | cast _ a => a.differences

end Arith

/-! ### Numbers -/

/-- Integers and floating point numbers. -/
inductive Value.Numeric : Value → Prop
  | int (n : ℤ) : Numeric (.int n)
  | float (x : Double) : Numeric (.float x)

/-- What the computation returns is a number. -/
def ReturnsNumber (x : Vm Value) : Prop := ∀ s v t, x s = (.ok v, t) → v.Numeric

theorem returnsNumber_pure {v : Value} (h : v.Numeric) : ReturnsNumber (pure v) := by
  rintro s w t ⟨⟩
  exact h

theorem returnsNumber_raise (type : ErrorType) (message : Text) :
    ReturnsNumber (raise type message) := nofun

theorem returnsNumber_bind {α : Type} (x : Vm α) {f : α → Vm Value}
    (h : ∀ a, ReturnsNumber (f a)) : ReturnsNumber (x >>= f) := by
  intro s v t heq
  rw [bind_apply] at heq
  rcases hx : x s with ⟨e | a, u⟩
  · rw [hx] at heq
    cases heq
  · rw [hx] at heq
    exact h a u v t heq

theorem ReturnsNumber.bind {x : Vm Value} (hx : ReturnsNumber x) {f : Value → Vm Value}
    (h : ∀ a, a.Numeric → ReturnsNumber (f a)) : ReturnsNumber (x >>= f) := by
  intro s v t heq
  rw [bind_apply] at heq
  rcases hrun : x s with ⟨e | a, u⟩
  · rw [hrun] at heq
    cases heq
  · rw [hrun] at heq
    exact h a (hx s a u hrun) u v t heq

theorem returnsNumber_map {α : Type} (x : Vm α) {f : α → Value} (h : ∀ a, (f a).Numeric) :
    ReturnsNumber (f <$> x) := returnsNumber_bind x fun a => returnsNumber_pure (h a)

theorem numeric_ofBool (b : Bool) : (ofBool b).Numeric := .int _

theorem returnsNumber_arith (onInt : ℤ → ℤ → ℤ) (onDouble : Double → Double → Double)
    (a b : Value) : ReturnsNumber (arith onInt onDouble a b) := by
  unfold arith
  split
  · exact returnsNumber_pure (.int _)
  · exact returnsNumber_bind _ fun x => returnsNumber_bind _ fun y => returnsNumber_pure (.float _)

theorem returnsNumber_opDiv (a b : Value) : ReturnsNumber (opDiv a b) := by
  unfold opDiv
  split
  · exact returnsNumber_raise _ _
  · split
    · split
      · exact returnsNumber_raise _ _
      · exact returnsNumber_pure (.int _)
    · exact returnsNumber_arith _ _ _ _

theorem returnsNumber_opNeg (a : Value) : ReturnsNumber (opNeg a) := by
  cases a with
  | int n => exact returnsNumber_pure (.int _)
  | float x => exact returnsNumber_pure (.float _)
  | none | str | list => exact returnsNumber_raise _ _

theorem returnsNumber_opMod (a b : Value) : ReturnsNumber (opMod a b) := by
  unfold opMod
  split
  · exact returnsNumber_raise _ _
  · refine returnsNumber_bind _ fun m => returnsNumber_bind _ fun n => ?_
    refine (returnsNumber_arith _ _ m n).bind fun result hresult => returnsNumber_bind _ fun _ => ?_
    split
    · exact returnsNumber_pure hresult
    · exact returnsNumber_opNeg result

theorem opAdd_of_numeric {a b : Value} (ha : a.Numeric) (hb : b.Numeric) :
    opAdd a b = arith (· + ·) Double.add a b := by
  cases ha <;> cases hb <;> rfl

theorem opMul_of_numeric {a b : Value} (ha : a.Numeric) (hb : b.Numeric) :
    opMul a b = arith (· * ·) Double.mul a b := by
  cases ha <;> cases hb <;> rfl

variable (U : CharTable)

/-- The operators of the kernel on numbers: they do not change the state, and return numbers. -/
theorem binOpValue_of_numeric (op : BinOp) {a b : Value} (ha : a.Numeric) (hb : b.Numeric) :
    Silent (binOpValue U op a b) ∧ ReturnsNumber (binOpValue U op a b) := by
  have hbits : ∀ onInt, Silent (bitwise U onInt a b) ∧ ReturnsNumber (bitwise U onInt a b) :=
    fun onInt => ⟨silent_bitwise U onInt a b,
      returnsNumber_bind _ fun _ => returnsNumber_bind _ fun _ => returnsNumber_pure (.int _)⟩
  have hshift : ∀ onInt, Silent (shift U onInt a b) ∧ ReturnsNumber (shift U onInt a b) := by
    refine fun onInt => ⟨silent_shift U onInt a b,
      returnsNumber_bind _ fun _ => returnsNumber_bind _ fun _ => ?_⟩
    split
    · exact returnsNumber_raise _ _
    · exact returnsNumber_pure (.int _)
  cases op with
  | add =>
    show Silent (opAdd a b) ∧ ReturnsNumber (opAdd a b)
    rw [opAdd_of_numeric ha hb]
    exact ⟨silent_arith _ _ a b, returnsNumber_arith _ _ a b⟩
  | sub => exact ⟨silent_arith _ _ a b, returnsNumber_arith _ _ a b⟩
  | mul =>
    show Silent (opMul a b) ∧ ReturnsNumber (opMul a b)
    rw [opMul_of_numeric ha hb]
    exact ⟨silent_arith _ _ a b, returnsNumber_arith _ _ a b⟩
  | div => exact ⟨silent_opDiv a b, returnsNumber_opDiv a b⟩
  | mod => exact ⟨silent_opMod a b, returnsNumber_opMod a b⟩
  | bitAnd | bitOr | bitXor => exact hbits _
  | shl | shr => exact hshift _
  | cmpEq | cmpNe => exact ⟨(silent_cmpEq a b).map _, returnsNumber_map _ fun _ => numeric_ofBool _⟩
  | cmpLt | cmpLe =>
    exact ⟨(silent_cmpLt _ a b).map _, returnsNumber_map _ fun _ => numeric_ofBool _⟩
  | cmpGt | cmpGe =>
    exact ⟨(silent_cmpLt _ b a).map _, returnsNumber_map _ fun _ => numeric_ofBool _⟩
  | logAnd | logOr =>
    exact ⟨(silent_truthy a).bind fun _ => (silent_truthy b).bind fun _ => quiet_pure _,
      returnsNumber_bind _ fun _ => returnsNumber_bind _ fun _ =>
        returnsNumber_pure (numeric_ofBool _)⟩

/-! ### Agreement -/

theorem pointerArith_int (op : BinOp) (m n : ℤ) (s : VmState) :
    pointerArith op (.int m) (.int n) s
      = (if 0x1000 ≤ m ∨ 0x1000 ≤ n then
          let (base, delta) := if 0x1000 ≤ m then (m, n) else (n, m)
          pure (some (.int (if op = .add then base + delta else base - delta)))
        else pure none : Vm (Option Value)) s := rfl

/-- **Pointer arithmetic on numbers** is the arithmetic of the kernel, unless a large integer is
subtracted from a small one. -/
theorem pointerArith_of_numeric {op : BinOp} (hop : op = .add ∨ op = .sub) {a b : Value}
    (ha : a.Numeric) (hb : b.Numeric)
    (hsmall : op = .sub → ∀ m n, a = .int m → b = .int n → ¬ (m < 0x1000 ∧ 0x1000 ≤ n))
    (s : VmState) : pointerArith op a b s = (.ok none, s) ∨
      ∃ v, pointerArith op a b s = (.ok (some v), s) ∧ binOpValue U op a b s = (.ok v, s) := by
  cases ha with
  | float x => cases hb <;> exact .inl rfl
  | int m =>
    cases hb with
    | float x => exact .inl rfl
    | int n =>
      rw [pointerArith_int]
      by_cases hlarge : 0x1000 ≤ m ∨ 0x1000 ≤ n
      · rw [if_pos hlarge]
        refine .inr ?_
        by_cases hm : 0x1000 ≤ m
        · rw [if_pos hm]
          rcases hop with rfl | rfl
          · exact ⟨_, rfl, rfl⟩
          · exact ⟨_, rfl, rfl⟩
        · rw [if_neg hm]
          have hn := hlarge.resolve_left hm
          rcases hop with rfl | rfl
          · refine ⟨_, rfl, ?_⟩
            rw [if_pos rfl, Int.add_comm n m]
            rfl
          · exact absurd ⟨by omega, hn⟩ (hsmall rfl m n rfl rfl)
      · rw [if_neg hlarge]
        exact .inl rfl

variable (M : MathLib) (P : Program)

/-- A variable of the expression is an integer slot of the frame, and of the frame of the kernel. -/
def VarsAgree (s : VmState) (frame : ℕ) (K : Dict Text Value) (slotOf : Text → Text) (e : Arith) :
    Prop :=
  ∀ n ∈ e.vars, n ≠ lit "NULL" ∧ ∃ slot v, slotIn s.frames frame n = some slot ∧
    slot.value = .int v ∧ K.get? (slotOf n) = some (.int v)

/-- No difference of the expression subtracts a large integer from a small one. -/
def NoLargeSubtrahend (s : VmState) (K : Dict Text Value) (slotOf : Text → Text) (e : Arith) :
    Prop :=
  ∀ p ∈ e.differences, ∀ m n,
    (kernelEval U M K (p.1.uncast.toExpr fun x => .slot (slotOf x)) s).1 = .ok (.int m) →
    (kernelEval U M K (p.2.uncast.toExpr fun x => .slot (slotOf x)) s).1 = .ok (.int n) →
    ¬ (m < 0x1000 ∧ 0x1000 ≤ n)

/-- In a state, the computation ends there, with a number or with an error. -/
def NumberAt (x : Vm Value) (s : VmState) : Prop :=
  (x s).2 = s ∧ ∀ v, (x s).1 = .ok v → v.Numeric

theorem numberAt_of_silent {x : Vm Value} (h : Silent x) (hnumber : ReturnsNumber x)
    (s : VmState) : NumberAt x s :=
  ⟨(h s).1, fun v hv => hnumber s v (x s).2 (by rw [← hv])⟩

theorem NumberAt.bind {x : Vm Value} {s : VmState} (hx : NumberAt x s) {f : Value → Vm Value}
    (hf : ∀ v, v.Numeric → NumberAt (f v) s) : NumberAt (x >>= f) s := by
  obtain ⟨hstate, hnumber⟩ := hx
  rcases hrun : x s with ⟨e | v, t⟩
  · rw [hrun] at hstate
    exact ⟨by rw [bind_of_error hrun]; exact hstate, by rw [bind_of_error hrun]; nofun⟩
  · rw [hrun] at hstate hnumber
    obtain rfl : t = s := hstate
    have hrest := hf v (hnumber v rfl)
    rwa [NumberAt, bind_of_ok hrun]

theorem numberAt_unOpValue {op : UnOp} (hop : op = .neg ∨ op = .logNot ∨ op = .bitNot) (a : Value)
    (s : VmState) : NumberAt (unOpValue U op a) s := by
  refine numberAt_of_silent (silent_unOpValue U op a) ?_ s
  rcases hop with rfl | rfl | rfl
  · exact returnsNumber_opNeg a
  · exact returnsNumber_map _ fun _ => numeric_ofBool _
  · exact returnsNumber_bind _ fun _ => returnsNumber_pure (.int _)

/-- The kernel on numbers: it does not change the state, and returns a number. -/
theorem numberAt_kernelEval {s : VmState} {frame : ℕ} {K : Dict Text Value}
    {slotOf : Text → Text} {e : Arith} (hvars : VarsAgree s frame K slotOf e) :
    NumberAt (kernelEval U M K (e.uncast.toExpr fun x => .slot (slotOf x))) s := by
  induction e with
  | var n =>
    obtain ⟨-, slot, v, -, -, hk⟩ := hvars n List.mem_cons_self
    show NumberAt (orRaise (K.get? (slotOf n)) _ _) s
    rw [hk]
    exact numberAt_of_silent (quiet_pure _) (returnsNumber_pure (.int v)) s
  | int n => exact numberAt_of_silent (quiet_pure _) (returnsNumber_pure (.int n)) s
  | float src =>
    exact numberAt_of_silent (silent_constValue U (.float src))
      (returnsNumber_bind _ fun x => returnsNumber_pure (.float x)) s
  | bin op a b iha ihb =>
    refine (iha fun n hn => hvars n (List.mem_append_left _ hn)).bind fun x hx => ?_
    refine (ihb fun n hn => hvars n (List.mem_append_right _ hn)).bind fun y hy => ?_
    obtain ⟨hsilent, hnumber⟩ := binOpValue_of_numeric U op hx hy
    exact numberAt_of_silent hsilent hnumber s
  | neg a ih => exact (ih hvars).bind fun x _ => numberAt_unOpValue U (.inl rfl) x s
  | logNot a ih => exact (ih hvars).bind fun x _ => numberAt_unOpValue U (.inr (.inl rfl)) x s
  | bitNot a ih => exact (ih hvars).bind fun x _ => numberAt_unOpValue U (.inr (.inr rfl)) x s
  | cast type a ih => exact ih hvars

theorem evalStep_bin (I : Interp) (frame : ℕ) (scope : Text) (op : BinOp) (a b : Expr) :
    evalStep U M P I frame scope (.bin op a b)
      = (if op = .add ∨ op = .sub then I.eval frame scope a >>= fun left =>
          I.eval frame scope b >>= fun right => pointerArith op left right >>= fun pointer =>
          match pointer with
          | some v => pure v
          | none => I.eval frame scope a >>= fun v => I.eval frame scope b >>= fun w =>
            binOpValue U op v w
        else I.eval frame scope a >>= fun v => I.eval frame scope b >>= fun w =>
          binOpValue U op v w) := rfl

/-- A binary operator, with operands that evaluate as they do in the kernel. -/
theorem evalBin_eq {I : Interp} {frame : ℕ} {scope : Text} {op : BinOp} {a b : Expr}
    {x y : Vm Value} {s : VmState} (ha : I.eval frame scope a s = x s)
    (hb : I.eval frame scope b s = y s) (hx : NumberAt x s) (hy : NumberAt y s)
    (hsmall : op = .sub → ∀ m n, (x s).1 = .ok (.int m) → (y s).1 = .ok (.int n) →
      ¬ (m < 0x1000 ∧ 0x1000 ≤ n)) :
    evalStep U M P I frame scope (.bin op a b) s
      = (x >>= fun v => y >>= fun w => binOpValue U op v w) s := by
  rw [evalStep_bin]
  have hkernel : (I.eval frame scope a >>= fun v => I.eval frame scope b >>= fun w =>
      binOpValue U op v w) s = (x >>= fun v => y >>= fun w => binOpValue U op v w) s := by
    rcases hrun : x s with ⟨e | v, t⟩
    · exact (bind_of_error (ha.trans hrun) _).trans (bind_of_error hrun _).symm
    · obtain rfl : t = s := by simpa [hrun] using hx.1
      refine (bind_of_ok (ha.trans hrun) _).trans (Eq.trans ?_ (bind_of_ok hrun _).symm)
      exact bind_apply_congr hb _
  by_cases hop : op = .add ∨ op = .sub
  · rw [if_pos hop]
    rcases hrun : x s with ⟨e | v, t⟩
    · exact (bind_of_error (ha.trans hrun) _).trans (bind_of_error hrun _).symm
    · obtain rfl : t = s := by simpa [hrun] using hx.1
      rw [bind_of_ok (ha.trans hrun)]
      rcases hrun' : y t with ⟨e | w, u⟩
      · rw [bind_of_error (hb.trans hrun'), bind_of_ok hrun, bind_of_error hrun']
      · obtain rfl : u = t := by simpa [hrun'] using hy.1
        rw [bind_of_ok (hb.trans hrun')]
        have hsmall' : op = .sub → ∀ m n, v = .int m → w = .int n → ¬ (m < 0x1000 ∧ 0x1000 ≤ n) :=
          fun hsub m n hm hn => hsmall hsub m n (by rw [hrun, hm]) (by rw [hrun', hn])
        rcases pointerArith_of_numeric U hop (hx.2 v (by rw [hrun])) (hy.2 w (by rw [hrun'])) hsmall'
          u with hnone | ⟨r, hpointer, hresult⟩
        · rw [bind_of_ok hnone]
          exact hkernel
        · rw [bind_of_ok hpointer, bind_of_ok hrun, bind_of_ok hrun', hresult]
          rfl
  · rw [if_neg hop]
    exact hkernel

/-- **The interpreter agrees with the kernel** on the expression without its casts, unless a large
integer is subtracted from a small one. -/
theorem eval_eq_kernelEval {s : VmState} {frame : ℕ} {K : Dict Text Value} {slotOf : Text → Text}
    {e : Arith} (hvars : VarsAgree s frame K slotOf e)
    (hsmall : NoLargeSubtrahend U M s K slotOf e) {fuel : ℕ} (hfuel : e.depth ≤ fuel)
    (scope : Text) : (interp U M P fuel).eval frame scope (e.toExpr .name) s
      = kernelEval U M K (e.uncast.toExpr fun x => .slot (slotOf x)) s := by
  induction e generalizing fuel with
  | var n =>
    obtain ⟨hnull, slot, v, hslot, hvalue, hk⟩ := hvars n List.mem_cons_self
    obtain ⟨fuel, rfl⟩ := Nat.exists_eq_add_of_le' hfuel
    show evalName frame scope n s = orRaise (K.get? (slotOf n)) _ _ s
    have hfound : slot? frame n s = (.ok (some slot), s) := by
      show (_, _) = _
      rw [← hslot]
      rfl
    have hfirst : firstInFrame frame [n, stripScope n scope] s = (.ok (some slot.value), s) :=
      bind_of_ok hfound _
    rw [hk, evalName, if_neg hnull, bind_of_ok hfirst, hvalue]
    rfl
  | int n | float src =>
    obtain ⟨fuel, rfl⟩ := Nat.exists_eq_add_of_le' hfuel
    rfl
  | bin op a b iha ihb =>
    obtain ⟨fuel, rfl⟩ := Nat.exists_eq_add_of_le' (Nat.le_of_add_left_le hfuel)
    have hle := max_le_iff.mp (Nat.le_of_succ_le_succ hfuel)
    have hvarsa : VarsAgree s frame K slotOf a := fun n hn => hvars n (List.mem_append_left _ hn)
    have hvarsb : VarsAgree s frame K slotOf b := fun n hn => hvars n (List.mem_append_right _ hn)
    refine evalBin_eq U M P (iha hvarsa (fun p hp => hsmall p ?_) hle.1)
      (ihb hvarsb (fun p hp => hsmall p ?_) hle.2) (numberAt_kernelEval U M hvarsa)
      (numberAt_kernelEval U M hvarsb) ?_
    · exact List.mem_append_left _ (List.mem_append_right _ hp)
    · exact List.mem_append_right _ hp
    · rintro rfl
      exact hsmall (a, b) (List.mem_append_left _ (List.mem_append_left _ List.mem_cons_self))
  | neg a ih | logNot a ih | bitNot a ih =>
    obtain ⟨fuel, rfl⟩ := Nat.exists_eq_add_of_le' (Nat.le_of_add_left_le hfuel)
    exact bind_apply_congr (ih hvars hsmall (Nat.le_of_succ_le_succ hfuel)) _
  | cast type a ih =>
    obtain ⟨fuel, rfl⟩ := Nat.exists_eq_add_of_le' (Nat.le_of_add_left_le hfuel)
    exact ih hvars hsmall (Nat.le_of_succ_le_succ hfuel)

/-- What the evaluators were meant to do: both return the same, or both divide by zero. -/
def EvaluatorsAgree (U : CharTable) (M : MathLib) (P : Program) : Prop :=
  ∀ s frame K slotOf e, VarsAgree s frame K slotOf e → ∀ fuel, e.depth ≤ fuel → ∀ scope,
    let x := ((interp U M P fuel).eval frame scope (e.toExpr .name) s).1
    let y := (kernelEval U M K (e.toExpr fun n => .slot (slotOf n)) s).1
    (∃ v, x = .ok v ∧ y = .ok v) ∨ ∃ m m',
      x = .error (.raised ⟨.zeroDivisionError, m⟩) ∧ y = .error (.raised ⟨.zeroDivisionError, m'⟩)

/-- A program without functions. -/
def emptyProgram : Program where
  segments := []
  maxUnroll := 10

/-- **A cast is dropped.** The interpreter gives `3.5` for `(int)3.5`, the kernel gives `3`. -/
theorem not_evaluatorsAgree :
    ¬ EvaluatorsAgree .ascii ⟨fun _ _ => .error .valueError⟩ emptyProgram := by
  intro h
  let M : MathLib := ⟨fun _ _ => .error .valueError⟩
  have hvm : ((interp .ascii M emptyProgram 2).eval 0 []
      ((Arith.cast (lit "int") (.float (lit "3.5"))).toExpr .name) {}).1
      = .ok (.float (.rat (7 / 2))) := by decide +kernel
  have hkernel : (kernelEval .ascii M Dict.empty
      ((Arith.cast (lit "int") (.float (lit "3.5"))).toExpr fun n => .slot (id n)) {}).1
      = .ok (.int 3) := by decide +kernel
  have hagree := h {} 0 Dict.empty id (.cast (lit "int") (.float (lit "3.5"))) (fun _ hn => nomatch hn)
    2 le_rfl []
  rcases hagree with ⟨v, hx, hy⟩ | ⟨m, m', hx, -⟩
  · obtain rfl := Except.ok.inj (hvm.symm.trans hx)
    exact absurd (hkernel.symm.trans hy) (by decide)
  · exact nomatch hvm.symm.trans hx

/-- A state with a variable `x` of value 9. -/
def nineState : VmState :=
  { frames := [Dict.empty.upsert (lit "x") fun _ => ⟨0x1000, .int 9, lit "int"⟩] }

/-- `(float)x / 2`: the cast is dropped. -/
theorem eval_eq_kernelEval_sample :
    ((interp .ascii ⟨fun _ _ => .error .valueError⟩ emptyProgram 3).eval 0 [] (.bin .div
      (.cast (lit "float") (.name (lit "x"))) (.const (.int 2))) nineState).1 = .ok (.int 4) := by
  let M : MathLib := ⟨fun _ _ => .error .valueError⟩
  let K : Dict Text Value := Dict.empty.upsert (lit "root.f.x") fun _ => .int 9
  let e : Arith := .bin .div (.cast (lit "float") (.var (lit "x"))) (.int 2)
  have hvars : VarsAgree nineState 0 K (lit "root.f." ++ ·) e := by
    intro n hn
    obtain rfl : n = lit "x" := by simpa [e, Arith.vars] using hn
    exact ⟨by decide, ⟨0x1000, .int 9, lit "int"⟩, 9, by decide +kernel, rfl, by decide +kernel⟩
  have hsmall : NoLargeSubtrahend .ascii M nineState K (lit "root.f." ++ ·) e :=
    fun _ hp => nomatch hp
  have hagree := eval_eq_kernelEval .ascii M emptyProgram hvars hsmall (le_refl 3) []
  refine (congrArg Prod.fst hagree).trans ?_
  decide +kernel

end Csc512
