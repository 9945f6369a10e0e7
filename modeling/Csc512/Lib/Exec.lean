import Mathlib.Init

/-!
# Computations that can stop

A computation over a state ends with a value or stops with a reason, and has changed the state in
either case. What a computation did up to the point where it stopped is therefore never lost.

To observe a computation without disturbing it, run it on a state with one more component, a log.
`Logged` says that it does the same then, and that what it appends to the log depends on nothing
but the state.

## Main results

* `Logged.bind`, `Logged.outcome` — computations with a log, put together
* `entriesOf_bind` — what they append
-/

namespace Csc512

/-- Computations over the state `σ` that end with an `α` or stop with an `ε`. -/
def Exec (σ ε α : Type) : Type := σ → Except ε α × σ

namespace Exec

variable {σ ε α β γ : Type}

instance : Monad (Exec σ ε) where
  pure a := fun s => (.ok a, s)
  bind x f := fun s =>
    match x s with
    | (.ok a, s) => f a s
    | (.error e, s) => (.error e, s)

/-- Stop. -/
def stop (e : ε) : Exec σ ε α := fun s => (.error e, s)

/-- The state. -/
def get : Exec σ ε σ := fun s => (.ok s, s)

/-- Change the state. -/
def modify (f : σ → σ) : Exec σ ε Unit := fun s => (.ok (), f s)

/-- Run a computation to its end or to where it stops, and tell which it was. -/
def outcome (x : Exec σ ε α) : Exec σ ε (Except ε α) := fun s => (.ok (x s).1, (x s).2)

@[simp] theorem pure_apply (a : α) (s : σ) : (pure a : Exec σ ε α) s = (.ok a, s) := rfl

@[simp] theorem stop_apply (e : ε) (s : σ) : (stop e : Exec σ ε α) s = (.error e, s) := rfl

@[simp] theorem get_apply (s : σ) : (get : Exec σ ε σ) s = (.ok s, s) := rfl

@[simp] theorem modify_apply (f : σ → σ) (s : σ) : (modify f : Exec σ ε Unit) s = (.ok (), f s) :=
  rfl

@[simp] theorem outcome_apply (x : Exec σ ε α) (s : σ) :
    x.outcome s = (.ok (x s).1, (x s).2) := rfl

theorem bind_apply (x : Exec σ ε α) (f : α → Exec σ ε β) (s : σ) :
    (x >>= f) s = match x s with
      | (.ok a, s) => f a s
      | (.error e, s) => (.error e, s) := rfl

theorem bind_of_ok {x : Exec σ ε α} {a : α} {s s' : σ} (h : x s = (.ok a, s'))
    (f : α → Exec σ ε β) : (x >>= f) s = f a s' := by
  rw [bind_apply, h]

theorem bind_of_error {x : Exec σ ε α} {e : ε} {s s' : σ} (h : x s = (.error e, s'))
    (f : α → Exec σ ε β) : (x >>= f) s = (.error e, s') := by
  rw [bind_apply, h]

theorem exists_of_bind_ok {x : Exec σ ε α} {f : α → Exec σ ε β} {b : β} {s s' : σ}
    (h : (x >>= f) s = (.ok b, s')) : ∃ a t, x s = (.ok a, t) ∧ f a t = (.ok b, s') := by
  rw [bind_apply] at h
  rcases hx : x s with ⟨e | a, t⟩
  · rw [hx] at h
    cases h
  · exact ⟨a, t, rfl, by rwa [hx] at h⟩

theorem bind_apply_congr {x y : Exec σ ε α} {s : σ} (h : x s = y s) (f : α → Exec σ ε β) :
    (x >>= f) s = (y >>= f) s := by
  rw [bind_apply, bind_apply, h]

theorem id_map' (x : Exec σ ε α) : id <$> x = x := by
  funext s
  show (x >>= fun a => pure (id a)) s = x s
  rw [bind_apply]
  rcases x s with ⟨_ | _, _⟩ <;> rfl

theorem bind_assoc' (x : Exec σ ε α) (f : α → Exec σ ε β) (g : β → Exec σ ε γ) :
    x >>= f >>= g = x >>= fun a => f a >>= g := by
  funext s
  simp only [bind_apply]
  rcases x s with ⟨_ | _, _⟩ <;> rfl

instance : LawfulMonad (Exec σ ε) := .mk' _ id_map' (fun _ _ => rfl) bind_assoc'

/-! ### Logs -/

/-- Run a computation on a state with one more component, and leave that alone. -/
def lift (γ : Type) (x : Exec σ ε α) : Exec (σ × γ) ε α := fun s =>
  ((x s.1).1, ((x s.1).2, s.2))

theorem lift_pure (a : α) : lift γ (pure a : Exec σ ε α) = pure a := rfl

theorem lift_bind (x : Exec σ ε α) (f : α → Exec σ ε β) :
    lift γ (x >>= f) = lift γ x >>= fun a => lift γ (f a) := by
  funext s
  simp only [bind_apply, lift]
  rcases x s.1 with ⟨_ | _, _⟩ <;> rfl

/-- Append to the log. -/
def log (entry : γ) : Exec (σ × List γ) ε Unit := modify fun s => (s.1, s.2 ++ [entry])

/-- `y` is the computation `x` on a state with a log. It appends to the log, and does not look at
it. -/
def Logged (y : Exec (σ × List γ) ε α) (x : Exec σ ε α) : Prop :=
  ∃ entries : σ → List γ, ∀ s l, y (s, l) = ((x s).1, ((x s).2, l ++ entries s))

/-- What a computation appends to an empty log. -/
def entriesOf (y : Exec (σ × List γ) ε α) (s : σ) : List γ := (y (s, [])).2.2

theorem Logged.apply {y : Exec (σ × List γ) ε α} {x : Exec σ ε α} (h : Logged y x) (s : σ)
    (l : List γ) : y (s, l) = ((x s).1, ((x s).2, l ++ entriesOf y s)) := by
  obtain ⟨entries, h⟩ := h
  rw [h, entriesOf, h, List.nil_append]

theorem logged_lift (x : Exec σ ε α) : Logged (lift (List γ) x) x :=
  ⟨fun _ => [], fun s l => by rw [List.append_nil]; rfl⟩

theorem logged_pure (a : α) : Logged (γ := γ) (pure a) (pure a : Exec σ ε α) :=
  ⟨fun _ => [], fun s l => by rw [List.append_nil]; rfl⟩

theorem logged_stop (e : ε) : Logged (γ := γ) (stop e) (stop e : Exec σ ε α) :=
  ⟨fun _ => [], fun s l => by rw [List.append_nil]; rfl⟩

theorem logged_log (entry : γ) : Logged (log entry) (pure () : Exec σ ε Unit) :=
  ⟨fun _ => [entry], fun _ _ => rfl⟩

/-- What a sequence of computations appends. -/
theorem bind_log {y : Exec (σ × List γ) ε α} {x : Exec σ ε α}
    {g : α → Exec (σ × List γ) ε β} {f : α → Exec σ ε β} (h : Logged y x)
    (hf : ∀ a, Logged (g a) (f a)) (s : σ) (l : List γ) :
    (y >>= g) (s, l) = (((x >>= f) s).1, (((x >>= f) s).2, l ++ entriesOf y s ++
      match x s with
      | (.ok a, s) => entriesOf (g a) s
      | (.error _, _) => [])) := by
  rw [bind_apply, bind_apply, h.apply]
  rcases x s with ⟨e | a, s'⟩
  · simp
  · exact (hf a).apply s' _

theorem Logged.bind {y : Exec (σ × List γ) ε α} {x : Exec σ ε α}
    {g : α → Exec (σ × List γ) ε β} {f : α → Exec σ ε β} (h : Logged y x)
    (hf : ∀ a, Logged (g a) (f a)) : Logged (y >>= g) (x >>= f) :=
  ⟨_, fun s l => by rw [bind_log h hf, List.append_assoc]⟩

theorem entriesOf_bind {y : Exec (σ × List γ) ε α} {x : Exec σ ε α}
    {g : α → Exec (σ × List γ) ε β} {f : α → Exec σ ε β} (h : Logged y x)
    (hf : ∀ a, Logged (g a) (f a)) (s : σ) :
    entriesOf (y >>= g) s = entriesOf y s ++
      match x s with
      | (.ok a, s) => entriesOf (g a) s
      | (.error _, _) => [] := by
  rw [entriesOf, bind_log h hf]
  rfl

@[simp] theorem entriesOf_lift (x : Exec σ ε α) (s : σ) :
    entriesOf (lift (List γ) x) s = [] := rfl

@[simp] theorem entriesOf_pure (a : α) (s : σ) :
    entriesOf (γ := γ) (ε := ε) (pure a) s = [] := rfl

@[simp] theorem entriesOf_log (entry : γ) (s : σ) :
    entriesOf (ε := ε) (log entry) s = [entry] := rfl

theorem Logged.outcome {y : Exec (σ × List γ) ε α} {x : Exec σ ε α} (h : Logged y x) :
    Logged y.outcome x.outcome := by
  obtain ⟨entries, h⟩ := h
  exact ⟨entries, fun s l => by rw [outcome_apply, outcome_apply, h]⟩

end Exec

end Csc512
