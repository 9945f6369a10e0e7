import Csc512.Lib.Exec

/-!
# Relations between computations

Two runs of one interpreter, or what one run keeps, are compared by a relation between computations
that every way of putting computations together respects. `Congruence` says what such a relation
must respect: computations that only look at the state, sequences, and handlers. One way to stop is
`fatal`: no handler catches it.

## Main results

* `congruence_keeps` — computations that keep an invariant
* `congruence_moves` — computations that only take steps of a preorder
* `congruence_ends` — computations that do not stop with `fatal`
* `congruence_unless` — computations that agree, unless the first one stops with `fatal`
* `congruence_until` — computations that agree, unless the first one raises a flag
-/

namespace Csc512

namespace Exec

variable {σ ε α β : Type} {fatal : ε}

/-! ### Computations that only look -/

/-- A computation that leaves the state as it is, and does not stop with `fatal`. -/
def Quiet (fatal : ε) (x : Exec σ ε α) : Prop := ∀ s, (x s).2 = s ∧ (x s).1 ≠ .error fatal

theorem quiet_pure (a : α) : Quiet fatal (pure a : Exec σ ε α) := by
  intro s
  exact ⟨rfl, nofun⟩

theorem quiet_get : Quiet fatal (get : Exec σ ε σ) := by
  intro s
  exact ⟨rfl, nofun⟩

theorem quiet_stop {e : ε} (h : e ≠ fatal) : Quiet fatal (stop e : Exec σ ε α) := by
  intro s
  exact ⟨rfl, fun he => h (Except.error.inj he)⟩

theorem Quiet.bind {x : Exec σ ε α} {f : α → Exec σ ε β} (hx : Quiet fatal x)
    (hf : ∀ a, Quiet fatal (f a)) : Quiet fatal (x >>= f) := by
  intro s
  obtain ⟨hs, he⟩ := hx s
  rw [bind_apply]
  rcases h : x s with ⟨e | a, t⟩
  · rw [h] at hs he
    exact ⟨hs, fun h => he (congrArg Except.error (Except.error.inj h))⟩
  · rw [h] at hs
    exact ⟨(hf a t).1.trans hs, (hf a t).2⟩

theorem Quiet.map {x : Exec σ ε α} (hx : Quiet fatal x) (f : α → β) : Quiet fatal (f <$> x) :=
  hx.bind fun a => quiet_pure (f a)

theorem quiet_mapM {γ : Type} {f : γ → Exec σ ε α} (hf : ∀ c, Quiet fatal (f c)) (l : List γ) :
    Quiet fatal (l.mapM f) := by
  induction l with
  | nil => exact quiet_pure []
  | cons c l ih =>
    rw [List.mapM_cons]
    exact (hf c).bind fun a => ih.bind fun as => quiet_pure (a :: as)

theorem quiet_findM {f : α → Exec σ ε Bool} (hf : ∀ a, Quiet fatal (f a)) (l : List α) :
    Quiet fatal (l.findM? f) := by
  induction l with
  | nil => exact quiet_pure none
  | cons a l ih =>
    refine (hf a).bind fun found => ?_
    cases found with
    | true => exact quiet_pure (some a)
    | false => exact ih

/-! ### Congruences -/

/-- A relation between computations that holds of a computation that only looks at the state and
itself, and that sequences and handlers respect. -/
structure Congruence (fatal : ε) (R : ∀ {α : Type}, Exec σ ε α → Exec σ ε α → Prop) : Prop where
  quiet : ∀ {α : Type} {x : Exec σ ε α}, Quiet fatal x → R x x
  bind : ∀ {α β : Type} {x y : Exec σ ε α} {f g : α → Exec σ ε β},
    R x y → (∀ a, R (f a) (g a)) → R (x >>= f) (y >>= g)
  handle : ∀ {α β : Type} {x y : Exec σ ε α} {f g : Except ε α → Exec σ ε β},
    R x y → (∀ r, r ≠ .error fatal → R (f r) (g r)) →
    f (.error fatal) = stop fatal → g (.error fatal) = stop fatal →
    R (x.outcome >>= f) (y.outcome >>= g)

namespace Congruence

variable {R : ∀ {α : Type}, Exec σ ε α → Exec σ ε α → Prop} (hR : Congruence fatal R)

include hR

theorem pure (a : α) : R (Pure.pure a) (Pure.pure a) := hR.quiet (quiet_pure a)

theorem stop {e : ε} (h : e ≠ fatal) : R (Exec.stop e : Exec σ ε α) (Exec.stop e) :=
  hR.quiet (quiet_stop h)

/-- The first part of a sequence only looks at the state. -/
theorem quiet_bind {x : Exec σ ε α} {f g : α → Exec σ ε β} (hx : Quiet fatal x)
    (hf : ∀ a, R (f a) (g a)) : R (x >>= f) (x >>= g) :=
  hR.bind (hR.quiet hx) hf

theorem mapM {γ : Type} {f g : γ → Exec σ ε α} {l : List γ} (h : ∀ c ∈ l, R (f c) (g c)) :
    R (l.mapM f) (l.mapM g) := by
  induction l with
  | nil => exact hR.pure []
  | cons c l ih =>
    rw [List.mapM_cons, List.mapM_cons]
    refine hR.bind (h c List.mem_cons_self) fun a => ?_
    exact hR.bind (ih fun c hc => h c (List.mem_cons_of_mem _ hc)) fun as => hR.pure (a :: as)

theorem forM {γ : Type} {f g : γ → Exec σ ε PUnit} {l : List γ} (h : ∀ c ∈ l, R (f c) (g c)) :
    R (l.forM f) (l.forM g) := by
  induction l with
  | nil => exact hR.pure _
  | cons c l ih =>
    show R (f c >>= fun _ => l.forM f) (g c >>= fun _ => l.forM g)
    exact hR.bind (h c List.mem_cons_self) fun _ =>
      ih fun c hc => h c (List.mem_cons_of_mem _ hc)

end Congruence

/-! ### Invariants -/

/-- A computation that keeps an invariant, however it ends. The second computation does not
matter. -/
def Keeps (I : σ → Prop) {α : Type} (x _y : Exec σ ε α) : Prop := ∀ s, I s → I (x s).2

theorem congruence_keeps (fatal : ε) (I : σ → Prop) :
    Congruence fatal (fun {α} (x y : Exec σ ε α) => Keeps I x y) where
  quiet := by
    intro α x hx s hs
    rw [(hx s).1]
    exact hs
  bind := by
    intro α β x y f g hx hf s hs
    rw [bind_apply]
    have ht := hx s hs
    rcases h : x s with ⟨e | a, t⟩
    · rw [h] at ht
      exact ht
    · rw [h] at ht
      exact hf a t ht
  handle := by
    intro α β x y f g hx hf hstop _ s hs
    show I (f (x s).1 (x s).2).2
    by_cases h : (x s).1 = .error fatal
    · rw [h, hstop]
      exact hx s hs
    · exact hf _ h _ (hx s hs)

/-- A computation that first looks at the state. -/
theorem Keeps.get_bind {I : σ → Prop} {f g : σ → Exec σ ε α} (h : ∀ s, I s → Keeps I (f s) (g s)) :
    Keeps I (get >>= f) (get >>= g) :=
  fun s hs => h s hs s hs

/-- Loops whose bodies do the same wherever an invariant holds that they keep. -/
theorem forM_eq_of_keeps {I : σ → Prop} {γ : Type} {f g : γ → Exec σ ε PUnit} {l : List γ}
    (hkeeps : ∀ c ∈ l, Keeps I (f c) (g c)) (heq : ∀ c ∈ l, ∀ s, I s → f c s = g c s) {s : σ}
    (hs : I s) : l.forM f s = l.forM g s := by
  induction l generalizing s with
  | nil => rfl
  | cons c l ih =>
    show (f c >>= fun _ => l.forM f) s = (g c >>= fun _ => l.forM g) s
    have ht := hkeeps c List.mem_cons_self s hs
    rw [bind_apply, bind_apply, ← heq c List.mem_cons_self s hs]
    rcases h : f c s with ⟨e | u, t⟩
    · rfl
    · rw [h] at ht
      exact ih (fun c hc => hkeeps c (List.mem_cons_of_mem _ hc))
        (fun c hc => heq c (List.mem_cons_of_mem _ hc)) ht

/-! ### Steps -/

/-- A computation whose states before and after are related, however it ends. The second computation
does not matter. -/
def Moves (T : σ → σ → Prop) {α : Type} (x _y : Exec σ ε α) : Prop := ∀ s, T s (x s).2

theorem congruence_moves (fatal : ε) {T : σ → σ → Prop} (hrefl : ∀ s, T s s)
    (htrans : ∀ {s t u}, T s t → T t u → T s u) :
    Congruence fatal (fun {α} (x y : Exec σ ε α) => Moves T x y) where
  quiet := by
    intro α x hx s
    rw [(hx s).1]
    exact hrefl s
  bind := by
    intro α β x y f g hx hf s
    rw [bind_apply]
    have ht := hx s
    rcases h : x s with ⟨e | a, t⟩
    · rw [h] at ht
      exact ht
    · rw [h] at ht
      exact htrans ht (hf a t)
  handle := by
    intro α β x y f g hx hf hstop _ s
    show T s (f (x s).1 (x s).2).2
    by_cases h : (x s).1 = .error fatal
    · rw [h, hstop]
      exact hx s
    · exact htrans (hx s) (hf _ h _)

/-! ### Ends -/

/-- A computation that keeps an invariant, and does not stop with `fatal` when it starts with the
invariant. The second computation does not matter. -/
def Ends (fatal : ε) (I : σ → Prop) {α : Type} (x _y : Exec σ ε α) : Prop :=
  ∀ s, I s → I (x s).2 ∧ (x s).1 ≠ .error fatal

theorem congruence_ends (fatal : ε) (I : σ → Prop) :
    Congruence fatal (fun {α} (x y : Exec σ ε α) => Ends fatal I x y) where
  quiet := by
    intro α x hx s hs
    exact ⟨(hx s).1.symm ▸ hs, (hx s).2⟩
  bind := by
    intro α β x y f g hx hf s hs
    rw [bind_apply]
    obtain ⟨ht, he⟩ := hx s hs
    rcases h : x s with ⟨e | a, t⟩
    · rw [h] at ht he
      exact ⟨ht, fun h => he (congrArg Except.error (Except.error.inj h))⟩
    · rw [h] at ht
      exact hf a t ht
  handle := by
    intro α β x y f g hx hf _ _ s hs
    obtain ⟨ht, he⟩ := hx s hs
    exact hf _ he _ ht

/-! ### Agreement -/

/-- The second computation does what the first one does, unless the first one stops with
`fatal`. -/
def AgreeUnless (fatal : ε) {α : Type} (x y : Exec σ ε α) : Prop :=
  ∀ s, (x s).1 = .error fatal ∨ y s = x s

theorem AgreeUnless.refl (x : Exec σ ε α) : AgreeUnless fatal x x := fun _ => .inr rfl

theorem AgreeUnless.of_stop (y : Exec σ ε α) : AgreeUnless fatal (stop fatal) y :=
  fun _ => .inl rfl

theorem congruence_unless (fatal : ε) :
    Congruence fatal (fun {α} (x y : Exec σ ε α) => AgreeUnless fatal x y) where
  quiet := fun _ => AgreeUnless.refl _
  bind := by
    intro α β x y f g hx hf s
    rw [bind_apply, bind_apply]
    rcases hx s with h | h
    · rcases hs : x s with ⟨e | a, t⟩
      · rw [hs] at h
        exact .inl (congrArg Except.error (Except.error.inj h))
      · rw [hs] at h
        cases h
    · rw [h]
      rcases x s with ⟨e | a, t⟩
      · exact .inr rfl
      · exact hf a t
  handle := by
    intro α β x y f g hx hf hf' _ s
    show (f (x s).1 (x s).2).1 = _ ∨ g (y s).1 (y s).2 = f (x s).1 (x s).2
    by_cases h : (x s).1 = .error fatal
    · rw [h, hf']
      exact .inl rfl
    · rw [(hx s).resolve_left h]
      exact hf _ h _

/-- The second computation does what the first one does, unless the first one raises a flag. A flag
that is up stays up. -/
def AgreeUntil (flag : σ → Prop) {α : Type} (x y : Exec σ ε α) : Prop :=
  ∀ s, (flag s → flag (x s).2) ∧ (flag (x s).2 ∨ y s = x s)

theorem AgreeUntil.refl {flag : σ → Prop} {x : Exec σ ε α} (h : ∀ s, flag s → flag (x s).2) :
    AgreeUntil flag x x := fun s => ⟨h s, .inr rfl⟩

theorem congruence_until (fatal : ε) (flag : σ → Prop) :
    Congruence fatal (fun {α} (x y : Exec σ ε α) => AgreeUntil flag x y) where
  quiet := fun hx => AgreeUntil.refl fun s hs => (hx s).1.symm ▸ hs
  bind := by
    intro α β x y f g hx hf s
    obtain ⟨hup, h⟩ := hx s
    rw [bind_apply, bind_apply]
    rcases hs : x s with ⟨e | a, t⟩
    · rw [hs] at hup h
      exact ⟨hup, h.imp_right fun h => by rw [h]⟩
    · rw [hs] at hup h
      refine ⟨fun hs => (hf a t).1 (hup hs), ?_⟩
      rcases h with h | h
      · exact .inl ((hf a t).1 h)
      · rw [h]
        exact (hf a t).2
  handle := by
    intro α β x y f g hx hf hf' hg' s
    obtain ⟨hup, h⟩ := hx s
    have hfg : AgreeUntil flag (f (x s).1) (g (x s).1) := by
      by_cases h : (x s).1 = .error fatal
      · rw [h, hf', hg']
        exact AgreeUntil.refl fun _ hs => hs
      · exact hf _ h
    show (flag s → flag (f (x s).1 (x s).2).2) ∧
      (flag (f (x s).1 (x s).2).2 ∨ g (y s).1 (y s).2 = f (x s).1 (x s).2)
    refine ⟨fun hs => (hfg _).1 (hup hs), ?_⟩
    rcases h with h | h
    · exact .inl ((hfg _).1 h)
    · rw [h]
      exact (hfg _).2

end Exec

end Csc512
