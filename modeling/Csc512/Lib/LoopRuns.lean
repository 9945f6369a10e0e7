import Csc512.Lib.Exec
import Mathlib.Data.Nat.Notation

/-!
# Runs of loops

A loop tests, runs its body, and then does what stands behind the body, round after round. A body
can leave the loop for good. `Loop.Run` says what a loop does without any bound on its rounds, and
`Loop.exec` runs it with one.

## Main results

* `Loop.exec_eq_of_run` — a loop that ends in time is run to its end
-/

namespace Csc512

namespace Exec

/-- A loop. The body tells whether the loop goes on; it and the test know how many rounds there were
before. -/
structure Loop (σ ε : Type) where
  test : ℕ → Exec σ ε Bool
  body : ℕ → Exec σ ε Bool
  update : Exec σ ε Unit

namespace Loop

variable {σ ε : Type} (L : Loop σ ε)

/-- From a state and after `i` rounds, `k` more rounds are completed, and then the loop ends. -/
inductive Run : ℕ → σ → ℕ → Except ε Unit × σ → Prop
  | exit {i : ℕ} {s t : σ} (htest : L.test i s = (.ok false, t)) : Run i s 0 (.ok (), t)
  | testStops {i : ℕ} {s t : σ} {e : ε} (htest : L.test i s = (.error e, t)) :
    Run i s 0 (.error e, t)
  | leave {i : ℕ} {s t u : σ} (htest : L.test i s = (.ok true, t))
    (hbody : L.body i t = (.ok false, u)) : Run i s 0 (.ok (), u)
  | bodyStops {i : ℕ} {s t u : σ} {e : ε} (htest : L.test i s = (.ok true, t))
    (hbody : L.body i t = (.error e, u)) : Run i s 0 (.error e, u)
  | updateStops {i : ℕ} {s t u v : σ} {e : ε} (htest : L.test i s = (.ok true, t))
    (hbody : L.body i t = (.ok true, u)) (hupdate : L.update u = (.error e, v)) :
    Run i s 0 (.error e, v)
  | round {i k : ℕ} {s t u v : σ} {r : Except ε Unit × σ} (htest : L.test i s = (.ok true, t))
    (hbody : L.body i t = (.ok true, u)) (hupdate : L.update u = (.ok (), v))
    (hrest : Run (i + 1) v k r) : Run i s (k + 1) r

/-- Run a loop from round `i` on, for `n` rounds at most, and then do `capped`. -/
def exec (capped : Exec σ ε Unit) : ℕ → ℕ → Exec σ ε Unit
  | _, 0 => capped
  | i, n + 1 => do
    let goesOn ← L.test i
    if goesOn then
      let goesOn ← L.body i
      if goesOn then
        L.update
        exec capped (i + 1) n
      else pure ()
    else pure ()

variable {L}

/-- **A loop that ends in time is run to its end.** -/
theorem exec_eq_of_run {i k n : ℕ} {s : σ} {r : Except ε Unit × σ} (h : L.Run i s k r)
    (hlt : k < n) (capped : Exec σ ε Unit) : L.exec capped i n s = r := by
  induction h generalizing n with
  | exit htest =>
    obtain ⟨n, rfl⟩ := Nat.exists_eq_succ_of_ne_zero (Nat.ne_zero_of_lt hlt)
    exact bind_of_ok htest _
  | testStops htest =>
    obtain ⟨n, rfl⟩ := Nat.exists_eq_succ_of_ne_zero (Nat.ne_zero_of_lt hlt)
    exact bind_of_error htest _
  | leave htest hbody =>
    obtain ⟨n, rfl⟩ := Nat.exists_eq_succ_of_ne_zero (Nat.ne_zero_of_lt hlt)
    exact (bind_of_ok htest _).trans (bind_of_ok hbody _)
  | bodyStops htest hbody =>
    obtain ⟨n, rfl⟩ := Nat.exists_eq_succ_of_ne_zero (Nat.ne_zero_of_lt hlt)
    exact (bind_of_ok htest _).trans (bind_of_error hbody _)
  | updateStops htest hbody hupdate =>
    obtain ⟨n, rfl⟩ := Nat.exists_eq_succ_of_ne_zero (Nat.ne_zero_of_lt hlt)
    exact (bind_of_ok htest _).trans ((bind_of_ok hbody _).trans (bind_of_error hupdate _))
  | round htest hbody hupdate hrest ih =>
    obtain ⟨n, rfl⟩ := Nat.exists_eq_succ_of_ne_zero (Nat.ne_zero_of_lt hlt)
    exact (bind_of_ok htest _).trans ((bind_of_ok hbody _).trans ((bind_of_ok hupdate _).trans
      (ih (Nat.lt_of_succ_lt_succ hlt))))

end Loop

end Exec

end Csc512
