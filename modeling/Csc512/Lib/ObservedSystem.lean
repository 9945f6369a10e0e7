import Mathlib.Data.List.Basic

/-!
# Runs of observed transition systems

A protocol is a partial step function on states: an action names one choice of the scheduler or
of the network, and the step is `none` when that choice is not enabled. Every step also lets an
observer record something, and the records of a run are kept in order.

The record is what lets a property speak about two moments of one run: a state only remembers
where the run is, the observations remember what happened on the way.

## Restricted runs

`Steps` carries a condition `ok` on the state before a step and the action taken in it. With the
trivial condition it is the ordinary run; with another one it is the runs all of whose steps meet
that condition, which is the shape a conditional safety theorem needs.

## Main results

* `ObservedSystem.Steps.invariant` — what one step preserves holds along a run
* `ObservedSystem.Steps.trans` — runs compose
* `ObservedSystem.Steps.simulates` — a system whose steps another one matches has no other runs
* `ObservedSystem.steps_of_exec` — a computed run is a run
-/

namespace Csc512

/-- A partial deterministic step function together with what an observer records of each step. -/
structure ObservedSystem (σ α ω : Type*) where
  /-- The state after an action, if the action is enabled. -/
  step : σ → α → Option σ
  /-- What the observer records of an action taken in a state. -/
  observe : σ → α → List ω

namespace ObservedSystem

variable {σ α ω : Type*} {M : ObservedSystem σ α ω} {ok : σ → α → Prop}

/-- The condition every step meets. -/
def always : σ → α → Prop := fun _ _ => True

instance (s : σ) (a : α) : Decidable (always s a) := inferInstanceAs (Decidable True)

/-- `M.Steps ok s os t`: a finite run from `s` to `t` all of whose steps meet `ok`, with `os` the
observations made on the way. -/
inductive Steps (M : ObservedSystem σ α ω) (ok : σ → α → Prop) : σ → List ω → σ → Prop
  | refl (s : σ) : Steps M ok s [] s
  | tail {s t u : σ} {os : List ω} {a : α} (run : Steps M ok s os t)
      (enabled : M.step t a = some u) (cond : ok t a) : Steps M ok s (os ++ M.observe t a) u

/-- Two runs compose, and so do their observations. -/
theorem Steps.trans {s t u : σ} {os os' : List ω} (h₁ : M.Steps ok s os t)
    (h₂ : M.Steps ok t os' u) : M.Steps ok s (os ++ os') u := by
  induction h₂ with
  | refl => simpa using h₁
  | tail _ enabled cond ih =>
    rw [← List.append_assoc]
    exact ih.tail enabled cond

/-- **The invariant rule.** A property of the observations so far and the current state that
holds at the start and that one step preserves holds at the end of every run. -/
theorem Steps.invariant {s t : σ} {os : List ω} {I : List ω → σ → Prop} (h : M.Steps ok s os t)
    (start : I [] s)
    (next : ∀ {os t u a}, I os t → M.step t a = some u → ok t a → I (os ++ M.observe t a) u) :
    I os t := by
  induction h with
  | refl => exact start
  | tail _ enabled cond ih => exact next ih enabled cond

/-- A run of one step. -/
theorem Steps.single {s t : σ} {a : α} (enabled : M.step s a = some t) (cond : ok s a) :
    M.Steps ok s (M.observe s a) t :=
  (Steps.refl s).tail enabled cond

/-- **Simulation.** Where each step from related states is matched by a run of another system, with
the same observations and to related states again, so is each run. -/
theorem Steps.simulates {σ' α' : Type*} {M' : ObservedSystem σ' α' ω} {ok' : σ' → α' → Prop}
    {R : σ → σ' → Prop} {s t : σ} {s' : σ'} {os : List ω} (h : M.Steps ok s os t) (start : R s s')
    (next : ∀ {t u a t'}, R t t' → M.step t a = some u → ok t a →
      ∃ u', M'.Steps ok' t' (M.observe t a) u' ∧ R u u') :
    ∃ t', M'.Steps ok' s' os t' ∧ R t t' := by
  induction h with
  | refl => exact ⟨s', .refl s', start⟩
  | tail _ enabled cond ih =>
    obtain ⟨t', hsteps, hR⟩ := ih
    obtain ⟨u', hmore, hR'⟩ := next hR enabled cond
    exact ⟨u', hsteps.trans hmore, hR'⟩

/-- The same with a function to the other system, and an invariant. -/
theorem Steps.simulate {σ' α' : Type*} {M' : ObservedSystem σ' α' ω} {ok' : σ' → α' → Prop}
    (view : σ → σ') {I : σ → Prop} {s t : σ} {os : List ω} (h : M.Steps ok s os t) (start : I s)
    (next : ∀ {t u a}, I t → M.step t a = some u → ok t a →
      I u ∧ M'.Steps ok' (view t) (M.observe t a) (view u)) :
    I t ∧ M'.Steps ok' (view s) os (view t) := by
  obtain ⟨_, hsteps, hI, rfl⟩ := h.simulates (R := fun t t' => I t ∧ t' = view t) ⟨start, rfl⟩
    fun {t u a t'} hR enabled cond => by
      obtain ⟨hI, rfl⟩ := hR
      exact ⟨view u, (next hI enabled cond).2, (next hI enabled cond).1, rfl⟩
  exact ⟨hI, hsteps⟩

/-! ### Computed runs -/

/-- Run a list of actions, checking the condition at each and collecting the observations. -/
def exec (M : ObservedSystem σ α ω) (ok : σ → α → Prop) [∀ s a, Decidable (ok s a)] (s : σ) :
    List α → Option (List ω × σ)
  | [] => some ([], s)
  | a :: as =>
    if ok s a then
      (M.step s a).bind fun t => (M.exec ok t as).map fun r => (M.observe s a ++ r.1, r.2)
    else none

variable [∀ s a, Decidable (ok s a)]

/-- A computed run is a run. -/
theorem steps_of_exec {s t : σ} {as : List α} {os : List ω}
    (h : M.exec ok s as = some (os, t)) : M.Steps ok s os t := by
  induction as generalizing s os with
  | nil =>
    obtain ⟨rfl, rfl⟩ : [] = os ∧ s = t := by simpa [exec] using h
    exact .refl s
  | cons a as ih =>
    rw [exec] at h
    split at h
    · rename_i hok
      simp only [Option.bind_eq_some_iff, Option.map_eq_some_iff] at h
      obtain ⟨u, hu, ⟨os', v⟩, hrest, heq⟩ := h
      obtain ⟨rfl, rfl⟩ : M.observe s a ++ os' = os ∧ v = t := by simpa using heq
      have hfirst : M.Steps ok s ([] ++ M.observe s a) u := (Steps.refl s).tail hu hok
      exact hfirst.trans (ih hrest)
    · cases h

/-- The run a computation that succeeds has made. -/
theorem steps_get_exec {s : σ} {as : List α} (h : (M.exec ok s as).isSome) :
    M.Steps ok s ((M.exec ok s as).get h).1 ((M.exec ok s as).get h).2 :=
  steps_of_exec (Option.some_get h).symm

end ObservedSystem

end Csc512
