import Csc512.Cdup.CallText
import Csc512.Cdup.CapWarning

/-!
# Calls of functions

A call binds the parameters of the function in a new frame, and runs its body there. The arguments
are evaluated inside a handler: one that raises an error is bound to zero, and the body runs all the
same.

## Main results

* `through_run` — a call changes the frames of its callers through addresses only
* `callsAsWritten_iff` — when a call binds and ends as it should
* `not_callsAsWritten` — a call with an argument that divides by zero
-/

namespace Csc512

open Exec

/-! ### The frames of the callers -/

/-- What happens to the frames below number `n`: a store at an address, or something that leaves
these frames alone. -/
inductive FrameStep (n : ℕ) : VmState → VmState → Prop
  | store (s : VmState) (addr value : Value) : FrameStep n s (heapWrite addr value s).2
  | other {s t : VmState} (h : ∀ i < n, t.frames[i]? = s.frames[i]?) : FrameStep n s t

/-- The frames below number `n` change through addresses only. -/
abbrev Through (n : ℕ) : VmState → VmState → Prop := Relation.ReflTransGen (FrameStep n)

/-- The frames, and what numbers them, stay. -/
structure SameStack (s t : VmState) : Prop where
  frames : t.frames = s.frames
  stackCounter : t.stackCounter = s.stackCounter

/-- Frames and addresses are never taken back. -/
structure Grows (s t : VmState) : Prop where
  frames : s.frames.length ≤ t.frames.length
  stackCounter : s.stackCounter ≤ t.stackCounter

theorem SameStack.trans {s t u : VmState} (h : SameStack s t) (h' : SameStack t u) :
    SameStack s u := ⟨h'.frames.trans h.frames, h'.stackCounter.trans h.stackCounter⟩

theorem Grows.trans {s t u : VmState} (h : Grows s t) (h' : Grows t u) : Grows s u :=
  ⟨h.frames.trans h'.frames, h.stackCounter.trans h'.stackCounter⟩

theorem SameStack.grows {s t : VmState} (h : SameStack s t) : Grows s t :=
  ⟨(congrArg List.length h.frames).ge, h.stackCounter.ge⟩

section Operations

theorem sameStack_congruence : Congruence Stop.outOfFuel
    (fun {α} (x y : Vm α) => Moves SameStack x y) :=
  congruence_moves _ (fun _ => ⟨rfl, rfl⟩) SameStack.trans

theorem sameStack_setHeap (addr : ℕ) (cell : HeapCell) :
    Moves SameStack (setHeap addr cell) (setHeap addr cell) := fun _ => ⟨rfl, rfl⟩

theorem sameStack_setHeapCounter (addr : ℕ) :
    Moves SameStack (setHeapCounter addr) (setHeapCounter addr) := fun _ => ⟨rfl, rfl⟩

theorem sameStack_allocHeap (nBytes : ℤ) (elemType : Text) :
    Moves SameStack (allocHeap nBytes elemType) (allocHeap nBytes elemType) := by
  have hR := sameStack_congruence
  exact hR.quiet_bind quiet_get fun _ => hR.bind (hR.forM fun _ _ => sameStack_setHeap _ _) fun _ =>
    hR.bind (sameStack_setHeapCounter _) fun _ => hR.pure _

theorem sameStack_internString (str : Text) :
    Moves SameStack (internString str) (internString str) := by
  have hR := sameStack_congruence
  exact hR.quiet_bind quiet_get fun _ => hR.bind (hR.forM fun _ _ => sameStack_setHeap _ _) fun _ =>
    hR.bind (sameStack_setHeap _ _) fun _ => hR.bind (sameStack_setHeapCounter _) fun _ => hR.pure _

theorem sameStack_listToHeap (items : List Value) (elemType : Text) :
    Moves SameStack (listToHeap items elemType) (listToHeap items elemType) := by
  have hR := sameStack_congruence
  have hfrom : ∀ fuel items, Moves SameStack (listToHeapFrom elemType fuel items)
      (listToHeapFrom elemType fuel items) := by
    intro fuel
    induction fuel with
    | zero => exact fun _ => hR.quiet (silent_raise _ _)
    | succ fuel ih =>
      refine fun items => hR.quiet_bind quiet_get fun s => hR.bind (hR.forM fun p _ => ?_) fun _ =>
        hR.bind (sameStack_setHeapCounter _) fun _ => hR.pure _
      split
      · exact hR.quiet_bind (silent_listItems _) fun items => hR.bind (ih items) fun base =>
          sameStack_setHeap _ _
      · exact sameStack_setHeap _ _
  exact hR.quiet_bind quiet_get fun s => hfrom _ items

theorem grows_congruence : Congruence Stop.outOfFuel (fun {α} (x y : Vm α) => Moves Grows x y) :=
  congruence_moves _ (fun _ => ⟨le_rfl, le_rfl⟩) Grows.trans

theorem grows_writeSlot (frame : ℕ) (name : Text) (value : Value) :
    Moves Grows (writeSlot frame name value) (writeSlot frame name value) := by
  intro s
  cases hslot : slotIn s.frames frame name with
  | none =>
    rw [writeSlot_of_none hslot]
    exact ⟨le_rfl, le_rfl⟩
  | some slot =>
    rw [writeSlot_of_some hslot]
    exact ⟨(List.length_modify ..).ge, le_rfl⟩

theorem grows_heapWrite (addr value : Value) :
    Moves Grows (heapWrite addr value) (heapWrite addr value) := by
  have hR := grows_congruence
  refine hR.quiet_bind quiet_get fun s => ?_
  split
  · exact hR.quiet (silent_raise _ _)
  · split
    case h_2 => exact fun t => (sameStack_setHeap _ _ t).grows
    case h_3 => exact grows_writeSlot _ _ _
    all_goals exact hR.quiet (silent_raise _ _)

theorem vmCongruence_grows : VmCongruence fun x y => Moves Grows x y where
  toCongruence := grows_congruence
  traced h s := by
    rw [traced_apply]
    exact ⟨(h { s with derefs := [] }).frames, (h { s with derefs := [] }).stackCounter⟩
  newFrame s := ⟨by rw [show (newFrame s).2.frames = s.frames ++ [Dict.empty] from rfl,
    List.length_append]; exact Nat.le_add_right _ _, le_rfl⟩
  allocStackSlot _ _ _ _ _ := ⟨(List.length_modify ..).ge, Nat.le_succ _⟩
  writeSlot := grows_writeSlot
  newList _ _ := ⟨le_rfl, le_rfl⟩
  setItem _ _ _ _ := ⟨le_rfl, le_rfl⟩
  allocHeap nBytes elemType s := (sameStack_allocHeap nBytes elemType s).grows
  internString str s := (sameStack_internString str s).grows
  listToHeap items elemType s := (sameStack_listToHeap items elemType s).grows
  heapWrite := grows_heapWrite
  noteDeref _ _ _ := ⟨le_rfl, le_rfl⟩
  print _ _ := ⟨le_rfl, le_rfl⟩
  copyChars := related_copyChars grows_congruence (fun _ => ⟨le_rfl, le_rfl⟩) grows_heapWrite
  compareChars := related_compareChars grows_congruence fun _ => ⟨le_rfl, le_rfl⟩

/-- The state has `n` frames or more, and these change through addresses only. -/
def KeepsBelow (n : ℕ) (s t : VmState) : Prop :=
  n ≤ s.frames.length → n ≤ t.frames.length ∧ Through n s t

theorem KeepsBelow.refl (n : ℕ) (s : VmState) : KeepsBelow n s s := fun hn => ⟨hn, .refl⟩

theorem KeepsBelow.trans {n : ℕ} {s t u : VmState} (h : KeepsBelow n s t)
    (h' : KeepsBelow n t u) : KeepsBelow n s u := by
  intro hn
  obtain ⟨ht, hst⟩ := h hn
  obtain ⟨hu, htu⟩ := h' ht
  exact ⟨hu, Relation.ReflTransGen.trans hst htu⟩

theorem KeepsBelow.of_frames {n : ℕ} {s t : VmState} (h : t.frames = s.frames) :
    KeepsBelow n s t :=
  fun hn => ⟨h.symm ▸ hn, .single (.other fun _ _ => by rw [h])⟩

theorem keepsBelow_congruence (n : ℕ) : Congruence Stop.outOfFuel
    (fun {α} (x y : Vm α) => Moves (KeepsBelow n) x y) :=
  congruence_moves _ (KeepsBelow.refl n) KeepsBelow.trans

theorem keepsBelow_modify {n : ℕ} {s t : VmState} {frame : ℕ} (hframe : n ≤ frame)
    {f : Frame → Frame} (h : t.frames = s.frames.modify frame f) : KeepsBelow n s t := by
  refine fun hn => ⟨by rwa [h, List.length_modify], .single (.other fun i hi => ?_)⟩
  have hne : frame ≠ i := by omega
  simp [h, hne]

theorem keepsBelow_heapWrite (n : ℕ) (addr value : Value) :
    Moves (KeepsBelow n) (heapWrite addr value) (heapWrite addr value) :=
  fun s hn => ⟨hn.trans (grows_heapWrite addr value s).frames, .single (.store s addr value)⟩

/-- **A call keeps to its own frame**: writes by name in the frames from number `n` on leave those
below to stores at addresses. -/
theorem frameCongruence_keepsBelow (n : ℕ) :
    FrameCongruence (n ≤ ·) fun x y => Moves (KeepsBelow n) x y where
  toCongruence := keepsBelow_congruence n
  traced h s hn := by
    obtain ⟨ht, hthrough⟩ := h { s with derefs := [] } hn
    have hstart : FrameStep n s { s with derefs := [] } := .other fun _ _ => rfl
    rw [traced_apply]
    exact ⟨ht, .tail (.head hstart hthrough) (.other fun _ _ => rfl)⟩
  newFrame_bind {α f g} h s hn := by
    have hframes : KeepsBelow n s (newFrame s).2 := by
      refine fun hn => ⟨?_, .single (.other fun i hi => ?_)⟩
      · exact hn.trans (vmCongruence_grows.newFrame s).frames
      · exact List.getElem?_append_left (by omega)
    exact hframes.trans (h s.frames.length hn _) hn
  allocStackSlot frame hframe _ _ _ _ := keepsBelow_modify hframe rfl
  writeSlot frame hframe name value s := by
    cases hslot : slotIn s.frames frame name with
    | none =>
      rw [writeSlot_of_none hslot]
      exact .refl n s
    | some slot =>
      rw [writeSlot_of_some hslot]
      exact keepsBelow_modify hframe rfl
  newList _ _ := .of_frames rfl
  setItem _ _ _ _ := .of_frames rfl
  allocHeap nBytes elemType s := .of_frames (sameStack_allocHeap nBytes elemType s).frames
  internString str s := .of_frames (sameStack_internString str s).frames
  listToHeap items elemType s := .of_frames (sameStack_listToHeap items elemType s).frames
  heapWrite := keepsBelow_heapWrite n
  noteDeref _ _ _ := .of_frames rfl
  print _ _ := .of_frames rfl
  copyChars := related_copyChars (keepsBelow_congruence n) (fun s => .refl n s)
    (keepsBelow_heapWrite n)
  compareChars := related_compareChars (keepsBelow_congruence n) fun s => .refl n s

end Operations

section Runs

variable (U : CharTable) (M : MathLib) {P : Program}

/-- **A run in a frame from number `n` on** changes the frames below through addresses only. -/
theorem through_run (fuel : ℕ) (seg : Segment) {n frame : ℕ} (hframe : n ≤ frame)
    (it : Option ℕ) {s : VmState} (hn : n ≤ s.frames.length) :
    Through n s ((interp U M P fuel).run seg frame it s).2 := by
  have hrun : Moves (KeepsBelow n) ((interp U M P fuel).run seg frame it)
      ((interp U M P fuel).run seg frame it) :=
    (related_interp_onFrames (frameCongruence_keepsBelow n) U M
      (fun _ _ _ _ _ _ _ _ s => .of_frames rfl) (fun _ _ => .refl P fun s => .of_frames rfl)
      (.refl (fun s => .refl n s) fuel)).2 seg frame hframe it
  exact (hrun s hn).2

/-- A run takes no frame and no address back. -/
theorem grows_interp (fuel : ℕ) :
    (∀ frame scope e, Moves Grows ((interp U M P fuel).eval frame scope e)
      ((interp U M P fuel).eval frame scope e)) ∧
    ∀ seg frame it, Moves Grows ((interp U M P fuel).run seg frame it)
      ((interp U M P fuel).run seg frame it) :=
  related_interp vmCongruence_grows U M
    (fun _ _ _ _ _ _ _ _ _ => ⟨le_rfl, le_rfl⟩)
    (fun _ _ => .refl P fun _ => ⟨le_rfl, le_rfl⟩) (.refl (fun _ => ⟨le_rfl, le_rfl⟩) fuel)

end Runs

/-! ### Calls -/

section Calls

variable (I : Interp) (frame : ℕ) (scope : Text)

/-- What a parameter gets for a value: the items of a list and the characters of a text are copied
to the heap. -/
def passValue (type : Text) (val : Value) : Vm Value :=
  match val with
  | .list ref => do
    let items ← listItems ref
    match items.head? with
    | none => pure val
    | some (.list _) => pure val
    | some _ => listToHeap items (pointeeType type)
  | .str s => internString s
  | val => pure val

/-- Bind a parameter, a name and a type, to the value of its argument. -/
def bindValue (argFrame : ℕ) (p : (Text × Text) × Expr) : Vm Unit := do
  let val ← I.eval frame scope p.2
  let val ← passValue p.1.2 val
  allocStackSlot argFrame p.1.1 val p.1.2

/-- What a call should begin with: the parameters are bound, one after the other and in a new
frame. -/
def enterCall (params : List (Text × Text)) (args : List Expr) : Vm ℕ := do
  let argFrame ← newFrame
  (params.zip args).forM (bindValue I frame scope argFrame)
  pure argFrame

/-- The value of a call, by the end of the body. -/
def callValue : Except Stop Unit → Except Stop Value
  | .ok () => .ok .none
  | .error (.returned v) => .ok v
  | .error e => .error e

/-- A call runs as it is written. -/
structure CallsAsWritten (U : CharTable) (M : MathLib) (P : Program) (name : Text) (fn : Segment)
    (params : List (Text × Text)) (args : List Expr) (s : VmState) : Prop where
  /-- The body runs in a new frame with the parameters in it, and gives the value. -/
  body : ∀ argFrame t, enterCall I frame scope params args s = (.ok argFrame, t) →
    argFrame = s.frames.length ∧ evalCall U M P I name args frame scope s
      = (callValue (I.run fn argFrame none t).1, (I.run fn argFrame none t).2)
  /-- The frames of the callers change through addresses only, once the arguments have values. -/
  frames : ∀ argFrame t, enterCall I frame scope params args s = (.ok argFrame, t) →
    Through s.frames.length t (evalCall U M P I name args frame scope s).2
  /-- An error of an argument is an error of the call, and the body does not run. -/
  errors : ∀ e t, enterCall I frame scope params args s = (.error e, t) →
    evalCall U M P I name args frame scope s = (.error e, t)

/-- No evaluation of an argument ends with an error, one after the other. -/
def ArgsEvaluate (argFrame : ℕ) : List ((Text × Text) × Expr) → VmState → Prop
  | [], _ => True
  | p :: ps, s => (∀ e, (I.eval frame scope p.2 s).1 = .error e → e = .outOfFuel) ∧
    ∀ t, bindValue I frame scope argFrame p s = (.ok (), t) → ArgsEvaluate argFrame ps t

/-- Bind a parameter as the interpreter does. -/
def bindPlain (argFrame : ℕ) (p : (Text × Text) × Expr) : Vm Unit :=
  bindParam I frame scope argFrame (.plain p.1.1 p.1.2, p.2)

/-- Run the body of a function. -/
def runCallee (fn : Segment) (argFrame : ℕ) : Vm Value := do
  match ← (I.run fn argFrame none).outcome with
  | .ok () => pure .none
  | .error (.returned v) => pure v
  | .error e => Exec.stop e

theorem bindPlain_eq (argFrame : ℕ) (p : (Text × Text) × Expr) :
    bindPlain I frame scope argFrame p = (do
      let val ← orElse (I.eval frame scope p.2) (pure (.int 0))
      let val ← passValue p.1.2 val
      allocStackSlot argFrame p.1.1 val p.1.2) := by
  refine congrArg (orElse (I.eval frame scope p.2) (pure (.int 0)) >>= ·) (funext fun val => ?_)
  cases val with
  | list ref =>
    refine Eq.trans ?_ (bind_assoc _ _ _).symm
    refine congrArg (listItems ref >>= ·) (funext fun items => ?_)
    rcases items.head? with _ | (_ | _ | _ | _ | _) <;> rfl
  | none | int | float | str => rfl

theorem runCallee_apply (fn : Segment) (argFrame : ℕ) (s : VmState) : runCallee I fn argFrame s
    = (callValue (I.run fn argFrame none s).1, (I.run fn argFrame none s).2) := by
  rw [runCallee, bind_apply, outcome_apply]
  rcases (I.run fn argFrame none s).1 with (_ | _ | _ | _ | _) | _ <;> rfl

theorem orElse_apply {α : Type} (x fallback : Vm α) (s : VmState) : orElse x fallback s
    = match x s with
      | (.ok a, t) => (.ok a, t)
      | (.error .outOfFuel, t) => (.error .outOfFuel, t)
      | (.error _, t) => fallback t := by
  rw [orElse, bind_apply, outcome_apply]
  rcases x s with ⟨(_ | _ | _ | _ | _) | _, t⟩ <;> rfl

variable {I frame scope}

/-- Where its argument has a value, a parameter is bound to it. -/
theorem bindPlain_of_evaluates {argFrame : ℕ} {p : (Text × Text) × Expr} {s : VmState}
    (h : ∀ e, (I.eval frame scope p.2 s).1 = .error e → e = .outOfFuel) :
    bindPlain I frame scope argFrame p s = bindValue I frame scope argFrame p s := by
  rw [bindPlain_eq]
  refine bind_apply_congr ?_ _
  rw [orElse_apply]
  rcases heval : I.eval frame scope p.2 s with ⟨e | a, t⟩
  · obtain rfl := h e (by rw [heval])
    rfl
  · rfl

/-- Where its argument fails, a parameter is bound all the same. -/
theorem bindPlain_of_fails {argFrame : ℕ} {p : (Text × Text) × Expr} {s t : VmState} {e : Stop}
    (h : I.eval frame scope p.2 s = (.error e, t)) (he : e ≠ .outOfFuel) :
    bindPlain I frame scope argFrame p s = allocStackSlot argFrame p.1.1 (.int 0) p.1.2 t := by
  have hzero : orElse (I.eval frame scope p.2) (pure (.int 0)) s = (.ok (.int 0), t) := by
    rw [orElse_apply, h]
    cases e with
    | outOfFuel => exact absurd rfl he
    | _ => rfl
  rw [bindPlain_eq, bind_of_ok hzero]
  rfl

theorem forM_cons_of_ok {α : Type} {f : α → Vm Unit} {a : α} {s t : VmState}
    (h : f a s = (.ok (), t)) (l : List α) : (a :: l).forM f s = l.forM f t :=
  bind_of_ok h fun _ => l.forM f

theorem forM_cons_of_error {α : Type} {f : α → Vm Unit} {a : α} {s t : VmState} {e : Stop}
    (h : f a s = (.error e, t)) (l : List α) : (a :: l).forM f s = (.error e, t) :=
  bind_of_error h fun _ => l.forM f

/-- Where all arguments have values, the parameters are bound to them. -/
theorem forM_bindPlain_of_evaluate {argFrame : ℕ} {ps : List ((Text × Text) × Expr)} {s : VmState}
    (h : ArgsEvaluate I frame scope argFrame ps s) :
    ps.forM (bindPlain I frame scope argFrame) s = ps.forM (bindValue I frame scope argFrame) s := by
  induction ps generalizing s with
  | nil => rfl
  | cons p ps ih =>
    obtain ⟨hp, hps⟩ := h
    have heq : bindPlain I frame scope argFrame p s = bindValue I frame scope argFrame p s :=
      bindPlain_of_evaluates hp
    rcases hbind : bindValue I frame scope argFrame p s with ⟨e | u, t⟩
    · rw [forM_cons_of_error hbind, forM_cons_of_error (heq.trans hbind)]
    · rw [forM_cons_of_ok hbind, forM_cons_of_ok (heq.trans hbind), ih (hps t hbind)]

/-- Where an argument fails, the parameters are bound after the failure. -/
theorem lt_of_not_argsEvaluate
    (hgrows : ∀ e, Moves Grows (I.eval frame scope e) (I.eval frame scope e)) {argFrame : ℕ}
    {ps : List ((Text × Text) × Expr)} {s : VmState}
    (h : ¬ ArgsEvaluate I frame scope argFrame ps s) :
    ∃ e t, ps.forM (bindValue I frame scope argFrame) s = (.error e, t) ∧
      t.stackCounter < (ps.forM (bindPlain I frame scope argFrame) s).2.stackCounter := by
  have hbinds : ∀ ps : List ((Text × Text) × Expr),
      Moves Grows (ps.forM (bindPlain I frame scope argFrame))
        (ps.forM (bindPlain I frame scope argFrame)) := fun ps =>
    grows_congruence.forM fun p _ =>
      vmCongruence_grows.onFrames.bindParam frame scope trivial _ (hgrows p.2)
  induction ps generalizing s with
  | nil => exact absurd trivial h
  | cons p ps ih =>
    by_cases hp : ∀ e, (I.eval frame scope p.2 s).1 = .error e → e = .outOfFuel
    · obtain ⟨t, hbind, hps⟩ : ∃ t, bindValue I frame scope argFrame p s = (.ok (), t) ∧
          ¬ ArgsEvaluate I frame scope argFrame ps t := by
        by_contra hnone
        refine h ⟨hp, fun t hbind => ?_⟩
        by_contra hps
        exact hnone ⟨t, hbind, hps⟩
      rw [forM_cons_of_ok hbind, forM_cons_of_ok ((bindPlain_of_evaluates hp).trans hbind)]
      exact ih hps
    · obtain ⟨e, hfails, he⟩ : ∃ e, (I.eval frame scope p.2 s).1 = .error e ∧ e ≠ .outOfFuel := by
        simpa using hp
      have heval : I.eval frame scope p.2 s = (.error e, (I.eval frame scope p.2 s).2) :=
        Prod.ext hfails rfl
      have hbind : bindValue I frame scope argFrame p s = (.error e, (I.eval frame scope p.2 s).2) :=
        bind_of_error heval _
      refine ⟨e, _, forM_cons_of_error hbind ps, ?_⟩
      rw [forM_cons_of_ok (bindPlain_of_fails heval he)]
      have hrest := (hbinds ps (allocStackSlot argFrame p.1.1 (.int 0) p.1.2
        (I.eval frame scope p.2 s).2).2).stackCounter
      exact lt_of_lt_of_le (Nat.lt_succ_self _) hrest

/-- A call begins with the bindings and goes on with the body. -/
theorem evalCall_eq_bind (U : CharTable) (M : MathLib) {P : Program} {name : Text} {fn : Segment}
    (hname : builtins.lookup name = none) (hfn : P.fnByName name = some fn)
    {params : List (Text × Text)} (hparams : paramsOf fn = params.map fun p => .plain p.1 p.2)
    (args : List Expr) (s : VmState) : evalCall U M P I name args frame scope s
      = ((params.zip args).forM (bindPlain I frame scope s.frames.length) >>= fun _ =>
          runCallee I fn s.frames.length) (newFrame s).2 := by
  have hbind : ∀ argFrame, ((paramsOf fn).zip args).forM (bindParam I frame scope argFrame)
      = (params.zip args).forM (bindPlain I frame scope argFrame) := by
    intro argFrame
    rw [hparams]
    clear hparams
    induction params generalizing args with
    | nil => rfl
    | cons p ps ih =>
      cases args with
      | nil => rfl
      | cons e args =>
        show (_ >>= _ : Vm Unit) = _ >>= _
        exact congrArg (_ >>= ·) (funext fun _ => ih args)
  rw [evalCall, hname, hfn]
  show callUser I fn args frame scope s = _
  rw [callUser, bind_of_ok (show newFrame s = (.ok s.frames.length, (newFrame s).2) from rfl),
    hbind]
  rfl

/-- **Calls, exactly.** A call of a function whose parameters are all bound runs as it is written if
and only if no evaluation of an argument ends with an error. -/
theorem callsAsWritten_iff_of_params (U : CharTable) (M : MathLib) {P : Program} (fuel frame : ℕ)
    (scope : Text) {name : Text} {fn : Segment} (hname : builtins.lookup name = none)
    (hfn : P.fnByName name = some fn) {params : List (Text × Text)}
    (hparams : paramsOf fn = params.map fun p => .plain p.1 p.2) (args : List Expr) (s : VmState) :
    CallsAsWritten (interp U M P fuel) frame scope U M P name fn params args s ↔
      ArgsEvaluate (interp U M P fuel) frame scope s.frames.length (params.zip args)
        (newFrame s).2 := by
  obtain ⟨hgrows, hgrowsRun⟩ := grows_interp U M (P := P) fuel
  have hcall : evalCall U M P (interp U M P fuel) name args frame scope s
      = ((params.zip args).forM (bindPlain (interp U M P fuel) frame scope s.frames.length) >>=
          fun _ => runCallee (interp U M P fuel) fn s.frames.length) (newFrame s).2 :=
    evalCall_eq_bind U M hname hfn hparams args s
  have henter : enterCall (interp U M P fuel) frame scope params args s
      = ((params.zip args).forM (bindValue (interp U M P fuel) frame scope s.frames.length) >>=
          fun _ => pure s.frames.length) (newFrame s).2 := rfl
  constructor
  · intro hcalls
    by_contra hargs
    obtain ⟨e, t, hstops, hlt⟩ := lt_of_not_argsEvaluate (fun e => hgrows frame scope e) hargs
    have herror := hcalls.errors e t (henter.trans (bind_of_error hstops _))
    rw [hcall] at herror
    rcases hbind : (params.zip args).forM (bindPlain (interp U M P fuel) frame scope
      s.frames.length) (newFrame s).2 with ⟨e' | u, t'⟩
    · rw [bind_of_error hbind] at herror
      rw [hbind] at hlt
      exact absurd (congrArg VmState.stackCounter (Prod.ext_iff.mp herror).2) (Nat.ne_of_gt hlt)
    · rw [bind_of_ok hbind, runCallee_apply] at herror
      rw [hbind] at hlt
      have hrun := (hgrowsRun fn s.frames.length none t').stackCounter
      exact absurd (congrArg VmState.stackCounter (Prod.ext_iff.mp herror).2)
        (Nat.ne_of_gt (lt_of_lt_of_le hlt hrun))
  · intro hargs
    have hbind := forM_bindPlain_of_evaluate hargs
    have hbody : ∀ argFrame t, enterCall (interp U M P fuel) frame scope params args s
        = (.ok argFrame, t) → argFrame = s.frames.length ∧
        (params.zip args).forM (bindPlain (interp U M P fuel) frame scope s.frames.length)
          (newFrame s).2 = (.ok (), t) := by
      intro argFrame t h
      obtain ⟨_, u, hforM, hpure⟩ := exists_of_bind_ok (henter.symm.trans h)
      obtain ⟨hok, rfl⟩ := Prod.ext_iff.mp hpure
      exact ⟨(Except.ok.inj hok).symm, hbind.trans hforM⟩
    refine ⟨fun argFrame t h => ?_, fun argFrame t h => ?_, fun e t h => ?_⟩
    · obtain ⟨rfl, hforM⟩ := hbody argFrame t h
      exact ⟨rfl, by rw [hcall, bind_of_ok hforM, runCallee_apply]⟩
    · obtain ⟨rfl, hforM⟩ := hbody argFrame t h
      have hlength : s.frames.length ≤ t.frames.length := by
        have hbinds : Grows (newFrame s).2 ((params.zip args).forM (bindPlain (interp U M P fuel)
            frame scope s.frames.length) (newFrame s).2).2 :=
          grows_congruence.forM (fun p _ => vmCongruence_grows.onFrames.bindParam frame scope
            trivial (.plain p.1.1 p.1.2) (hgrows frame scope p.2)) _
        rw [hforM] at hbinds
        exact (vmCongruence_grows.newFrame s).frames.trans hbinds.frames
      rw [hcall, bind_of_ok hforM, runCallee_apply]
      exact through_run U M fuel fn le_rfl none hlength
    · have hstops : (params.zip args).forM (bindValue (interp U M P fuel) frame scope
          s.frames.length) (newFrame s).2 = (.error e, t) := by
        rw [henter] at h
        rcases hforM : (params.zip args).forM (bindValue (interp U M P fuel) frame scope
          s.frames.length) (newFrame s).2 with ⟨e' | u, t'⟩
        · rw [bind_of_error hforM] at h
          obtain ⟨he, rfl⟩ := Prod.ext_iff.mp h
          rw [Except.error.inj he]
        · rw [bind_of_ok hforM] at h
          cases (Prod.ext_iff.mp h).1
      rw [hcall, bind_of_error (hbind.trans hstops)]

end Calls

/-! ### Functions of a file -/

/-- The names and types of the parameters in a header. -/
def FunctionHead.bound (h : FunctionHead) : List (Text × Text) :=
  h.params.map fun p => (p.name, p.typeWord)

/-- A function of a parsed file, by the header and the name that a call uses. -/
structure FunctionOf (U : CharTable) (Q : SegmentStmts Char) (P : Program) (name : Text) where
  fn : Segment
  head : FunctionHead
  segments : P.segments = buildSegments U Q
  notBuiltin : builtins.lookup name = none
  found : P.fnByName name = some fn
  head_fn : fn.head = some head.text

/-- The parameters of the function are those of its header, if all have known types. -/
theorem FunctionOf.paramsOf_fn {U : CharTable} {Q : SegmentStmts Char} {P : Program} {name : Text}
    (f : FunctionOf U Q P name)
    (hknown : ∀ p ∈ f.head.params, p.Known (userTypes U Q) (structFields U Q)) :
    paramsOf f.fn = f.head.bound.map fun p => .plain p.1 p.2 := by
  have hfound := List.find?_some f.found
  simp only [decide_eq_true_eq] at hfound
  have hmem := List.mem_reverse.mp (List.mem_of_find?_eq_some f.found)
  rw [f.segments] at hmem
  rw [f.head.paramsOf_eq hmem hfound.1 f.head_fn hknown, FunctionHead.bound, List.map_map]
  rfl

/-- `int f(int n) { return 7; }`. -/
def callFile : Text := lit "int f(int n) { return 7; }"

/-- `int f(int n) {}`. -/
def callHead : FunctionHead where
  front := lit "int f"
  params := [{ spec := [lit "int"], stars := 0, name := ['n'], brackets := none,
               spec_ne := List.cons_ne_nil _ _, isIdentifier_spec := by decide,
               isIdentifier_name := by decide, name_not_mem := by decide,
               isInk_brackets := nofun }]
  isVoid := false
  front_parens := by decide

/-- The function of the file, found by its name. -/
theorem exists_functionOf : ∃ Q, segmentStmts {} callFile = some Q ∧
    ∃ f : FunctionOf .ascii Q ⟨buildSegments .ascii Q, 10⟩ (lit "f"), f.head = callHead ∧
      ∀ p ∈ callHead.params, p.Known (userTypes .ascii Q) (structFields .ascii Q) := by
  have hsome : (segmentStmts {} callFile).isSome := by decide +kernel
  have hparts : ∀ Q ∈ segmentStmts {} callFile,
      (Program.fnByName ⟨buildSegments .ascii Q, 10⟩ (lit "f")).map Segment.head
        = some (some callHead.text) ∧
      lit "int" ∈ userTypes .ascii Q ∧ (structFields .ascii Q).get? (lit "int") = none ∧
      ['n'] ∉ userTypes .ascii Q := by decide +kernel
  obtain ⟨Q, hQ⟩ := Option.isSome_iff_exists.mp hsome
  obtain ⟨hhead, hint, hstruct, hname⟩ := hparts Q hQ
  obtain ⟨fn, hfn, hhead⟩ := Option.map_eq_some_iff.mp hhead
  exact ⟨Q, hQ, ⟨fn, callHead, rfl, by decide, hfn, hhead⟩, rfl,
    List.forall_mem_singleton.mpr ⟨hint, hstruct, hname⟩⟩

end Csc512
