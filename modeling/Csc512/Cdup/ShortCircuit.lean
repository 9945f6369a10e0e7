import Csc512.Cdup.BranchChain

/-!
# Logical operators

C leaves the right operand of `&&` and `||` alone when the left one settles the result. The
evaluator computes both operands before it looks at the operator, so it does what C does only where
the right operand does no harm: it has a value, evaluating it changes nothing, and the two truth
values give the result.

## Main results

* `shortCircuits_iff` — when the right operand might as well not have been evaluated
* `not_shortCircuits` — `0 && 1 / 0`
-/

namespace Csc512

open Exec

/-! ### Truth values -/

/-- Does a value count as true, where these lists are? -/
def isTruthy (lists : List (List Value)) : Value → Bool
  | .none => false
  | .int n => n ≠ 0
  | .float x => x.truthy
  | .str s => s ≠ []
  | .list ref => lists.getD ref [] ≠ []

theorem truthy_apply (v : Value) (s : VmState) : truthy v s = (.ok (isTruthy s.lists v), s) := by
  cases v <;> rfl

/-- Zero is not true. -/
theorem isTruthy_of_isZero {v : Value} (h : isZero v = true) (lists : List (List Value)) :
    isTruthy lists v = false := by
  cases v with
  | int n =>
    have hzero : n = 0 := by simpa [isZero, Value.number?, Double.value?] using h
    simp [isTruthy, hzero]
  | float x =>
    have hzero : x.value? = some 0 := of_decide_eq_true h
    simp [isTruthy, Double.truthy, hzero]
  | none | str | list => cases h

/-! ### Evaluating the right operand -/

/-- What there was in a state is still there, and nothing was written, printed or recorded. -/
structure Untouched (s t : VmState) : Prop where
  frames : s.frames <+: t.frames
  lists : s.lists <+: t.lists
  heap : t.heap = s.heap
  output : t.output = s.output
  trace : t.trace = s.trace
  derefs : t.derefs = s.derefs

section Operands

variable (U : CharTable) (M : MathLib) (P : Program) (fuel frame : ℕ) (scope : Text) (a b : Expr)
  (s : VmState)

/-- `a && b` is `0` when `a` is zero, and `a || b` is `1` when it is not, and `b` leaves no mark. -/
structure ShortCircuits : Prop where
  logAnd : ∀ v t, (interp U M P fuel).eval frame scope a s = (.ok v, t) → isZero v = true →
    ∃ u, (interp U M P (fuel + 1)).eval frame scope (.bin .logAnd a b) s = (.ok (.int 0), u) ∧
      Untouched t u
  logOr : ∀ v t, (interp U M P fuel).eval frame scope a s = (.ok v, t) → isZero v = false →
    ∃ u, (interp U M P (fuel + 1)).eval frame scope (.bin .logOr a b) s = (.ok (.int 1), u) ∧
      Untouched t u

/-- After `a`, the right operand has a value and leaves no mark. If `a` is neither zero nor true, as
an empty string, `b` is true. -/
def HarmlessAfter : Prop :=
  ∀ v t, (interp U M P fuel).eval frame scope a s = (.ok v, t) →
    ∃ w u, (interp U M P fuel).eval frame scope b t = (.ok w, u) ∧ Untouched t u ∧
      (isZero v = true ∨ isTruthy u.lists v = true ∨ isTruthy u.lists w = true)

variable {U M P fuel frame scope a b s}

/-- The value of a logical operator, when both operands have one. -/
theorem eval_logical {op : BinOp} {v w : Value} {t u : VmState}
    (hop : op = .logAnd ∨ op = .logOr)
    (ha : (interp U M P fuel).eval frame scope a s = (.ok v, t))
    (hb : (interp U M P fuel).eval frame scope b t = (.ok w, u)) :
    (interp U M P (fuel + 1)).eval frame scope (.bin op a b) s
      = (.ok (ofBool (if op = .logAnd then isTruthy u.lists v && isTruthy u.lists w
          else isTruthy u.lists v || isTruthy u.lists w)), u) := by
  have hboth : (interp U M P (fuel + 1)).eval frame scope (.bin op a b) s
      = binOpValue U op v w u := by
    rcases hop with rfl | rfl <;> exact (bind_of_ok ha _).trans (bind_of_ok hb _)
  rw [hboth]
  rcases hop with rfl | rfl <;>
    exact (bind_of_ok (truthy_apply v u) _).trans (bind_of_ok (truthy_apply w u) _)

/-- The right operand is always evaluated: without a value of it there is none of the whole. -/
theorem exists_right_of_eval {op : BinOp} {v r : Value} {t u : VmState}
    (hop : op = .logAnd ∨ op = .logOr)
    (ha : (interp U M P fuel).eval frame scope a s = (.ok v, t))
    (h : (interp U M P (fuel + 1)).eval frame scope (.bin op a b) s = (.ok r, u)) :
    ∃ w, (interp U M P fuel).eval frame scope b t = (.ok w, u) := by
  cases hb : (interp U M P fuel).eval frame scope b t with
  | mk result t' =>
    cases result with
    | ok w =>
      rw [eval_logical hop ha hb] at h
      obtain ⟨-, rfl⟩ := Prod.mk.inj h
      exact ⟨w, rfl⟩
    | error e =>
      have herror : (interp U M P (fuel + 1)).eval frame scope (.bin op a b) s
          = (.error e, t') := by
        rcases hop with rfl | rfl <;> exact (bind_of_ok ha _).trans (bind_of_error hb _)
      rw [herror] at h
      cases h

/-- **Logical operators do what C does if and only if the right operand does no harm.** -/
theorem shortCircuits_iff : ShortCircuits U M P fuel frame scope a b s ↔
    HarmlessAfter U M P fuel frame scope a b s := by
  constructor
  · intro h v t ha
    cases hv : isZero v with
    | true =>
      obtain ⟨u, heval, huntouched⟩ := h.logAnd v t ha hv
      obtain ⟨w, hb⟩ := exists_right_of_eval (.inl rfl) ha heval
      exact ⟨w, u, hb, huntouched, .inl rfl⟩
    | false =>
      obtain ⟨u, heval, huntouched⟩ := h.logOr v t ha hv
      obtain ⟨w, hb⟩ := exists_right_of_eval (.inr rfl) ha heval
      refine ⟨w, u, hb, huntouched, .inr ?_⟩
      -- the result is `1`, so one of the two is true
      rw [eval_logical (.inr rfl) ha hb] at heval
      have hvalue : (if (isTruthy u.lists v || isTruthy u.lists w) = true then 1 else 0 : ℤ) = 1 :=
        Value.int.inj (Except.ok.inj (congrArg Prod.fst heval))
      rw [← Bool.or_eq_true]
      by_contra hfalse
      rw [if_neg hfalse] at hvalue
      cases hvalue
  · intro h
    constructor
    · intro v t ha hv
      obtain ⟨w, u, hb, huntouched, -⟩ := h v t ha
      refine ⟨u, ?_, huntouched⟩
      rw [eval_logical (.inl rfl) ha hb, isTruthy_of_isZero hv]
      rfl
    · intro v t ha hv
      obtain ⟨w, u, hb, huntouched, htrue⟩ := h v t ha
      refine ⟨u, ?_, huntouched⟩
      have hone : (isTruthy u.lists v || isTruthy u.lists w) = true := by
        rw [Bool.or_eq_true]
        exact htrue.resolve_left (by simp [hv])
      rw [eval_logical (.inr rfl) ha hb, if_neg (by decide), hone]
      rfl

end Operands

/-- **`0 && 1 / 0` is an error.** -/
theorem not_shortCircuits : ¬ ShortCircuits .ascii noMath ⟨[], 1⟩ 2 0 [] (.const (.int 0))
    (.bin .div (.const (.int 1)) (.const (.int 0))) {} := by
  intro h
  obtain ⟨u, heval, -⟩ := h.logAnd (.int 0) {} rfl (by decide +kernel)
  have herror : ((interp .ascii noMath ⟨[], 1⟩ 3).eval 0 []
      (.bin .logAnd (.const (.int 0)) (.bin .div (.const (.int 1)) (.const (.int 0)))) {}).1
      = .error (.raised ⟨.zeroDivisionError, lit "Division by zero in expr evaluation."⟩) := by
    decide +kernel
  rw [heval] at herror
  cases herror

end Csc512
