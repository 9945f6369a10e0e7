import Csc512.Cdup.InterpCongruence
import Csc512.Cdup.UnrollLimit
import Mathlib.Order.Filter.AtTopBot.Basic
import Mathlib.Data.Fintype.Card
import Mathlib.Order.Filter.Finite

/-!
# Termination

A run ends if its segments form a forest and no function calls itself, directly or through others.
Every level of the recursion goes down in an expression, in the forest, or along the calls, so there
is an amount of fuel that is enough for every state. A loop ends at its bound. A walk through memory
goes to the next address with every step, and there are only finitely many valid ones, whatever it
writes on its way. Nothing is asked of what is stored in lists: to copy a list that contains itself
ends with an error.

## Main results

* `ends_copyChars`, `ends_compareChars`, `readChars_eq` — walks through memory
* `vm_terminates` — calls of functions
-/

namespace Csc512

open Exec

/-! ### Walks through memory -/

/-- The addresses that can be read. -/
def memoryKeys (s : VmState) : List ℕ :=
  s.heap.entries.map Prod.fst ++ s.addrMap.entries.map Prod.fst

/-- The number of addresses from one on that can be read. -/
def keysFrom (s : VmState) (addr : ℤ) : ℕ := (memoryKeys s).countP fun key : ℕ => addr ≤ key

theorem keysFrom_lt_memorySize (s : VmState) (addr : ℤ) :
    keysFrom s addr < s.heap.entries.length + s.addrMap.entries.length + 1 := by
  have hle := List.countP_le_length (p := fun key : ℕ => decide (addr ≤ key)) (l := memoryKeys s)
  rw [memoryKeys, List.length_append, List.length_map, List.length_map] at hle
  exact Nat.lt_succ_of_le hle

theorem countP_succ_lt {keys : List ℕ} {key : ℕ} (h : key ∈ keys) :
    keys.countP (fun k : ℕ => (key : ℤ) + 1 ≤ k) < keys.countP fun k : ℕ => (key : ℤ) ≤ k := by
  induction keys with
  | nil => cases h
  | cons k keys ih =>
    have hmono : keys.countP (fun k : ℕ => decide ((key : ℤ) + 1 ≤ k))
        ≤ keys.countP fun k : ℕ => decide ((key : ℤ) ≤ k) :=
      List.countP_mono_left fun k _ hk => by
        rw [decide_eq_true_eq] at hk ⊢
        omega
    rw [List.countP_cons, List.countP_cons]
    simp only [decide_eq_true_eq]
    rcases List.mem_cons.mp h with rfl | h
    · rw [if_neg (by omega), if_pos le_rfl]
      omega
    · have hlt := ih h
      split
      · rw [if_pos (by omega)]
        omega
      · omega

/-- A walk that has read an address has fewer of them left. -/
theorem keysFrom_succ_lt {s : VmState} {addr : ℤ} (h : ∃ key ∈ memoryKeys s, (key : ℤ) = addr) :
    keysFrom s (addr + 1) < keysFrom s addr := by
  obtain ⟨key, hkey, rfl⟩ := h
  exact countP_succ_lt hkey

/-- What is read has a valid address. -/
theorem mem_memoryKeys_of_heapRead {U : CharTable} {s : VmState} {addr : ℤ} {v : Value}
    (h : (heapRead U (.int addr) s).1 = .ok v) : ∃ key ∈ memoryKeys s, (key : ℤ) = addr := by
  rw [heapRead_int] at h
  have hkey : ∀ {κ ν : Type} [DecidableEq κ] {d : Dict κ ν} {k : κ} {x : ν},
      d.get? k = some x → k ∈ d.entries.map Prod.fst :=
    fun hfound => List.mem_map_of_mem (f := Prod.fst) (Dict.get?_eq_some_iff.mp hfound)
  unfold memoryKeys VmState.cell? VmState.place? at *
  by_cases hneg : 0 ≤ addr
  · refine ⟨addr.toNat, List.mem_append.mpr ?_, Int.toNat_of_nonneg hneg⟩
    rw [if_pos hneg, if_pos hneg] at h
    by_cases hzero : addr = 0
    · rw [if_pos hzero] at h
      cases h
    · rw [if_neg hzero] at h
      cases hcell : s.heap.get? addr.toNat with
      | some cell => exact .inl (hkey hcell)
      | none =>
        cases hplace : s.addrMap.get? addr.toNat with
        | some place => exact .inr (hkey hplace)
        | none =>
          rw [hcell, hplace] at h
          cases h
  · rw [if_neg hneg, if_neg hneg] at h
    split at h
    · cases h
    · cases h

/-! ### Writing keeps the addresses -/

/-- The heap has these addresses, and so has the stack. -/
def HasKeys (heap stack : List ℕ) (s : VmState) : Prop :=
  s.heap.entries.map Prod.fst = heap ∧ s.addrMap.entries.map Prod.fst = stack

theorem keeps_writeSlot (heap stack : List ℕ) (frame : ℕ) (name : Text) (value : Value) :
    Keeps (HasKeys heap stack) (writeSlot frame name value) (writeSlot frame name value) := by
  have hR := congruence_keeps Stop.outOfFuel (HasKeys heap stack)
  exact hR.quiet_bind (silent_slot? _ _) fun _ => hR.quiet_bind (silent_orRaise _ _ _) fun _ =>
    fun _ hs => hs

theorem keeps_setHeap {heap : List ℕ} (stack : List ℕ) {addr : ℕ} (haddr : addr ∈ heap)
    (cell : HeapCell) : Keeps (HasKeys heap stack) (setHeap addr cell) (setHeap addr cell) := by
  rintro s ⟨hheap, hstack⟩
  refine ⟨?_, hstack⟩
  show (Dict.upsertEntries _ addr s.heap.entries).map Prod.fst = heap
  rw [Dict.map_fst_upsertEntries, hheap, if_pos haddr]

/-- Writing through an address does not make an address. -/
theorem keeps_heapWrite (heap stack : List ℕ) (addr value : Value) :
    Keeps (HasKeys heap stack) (heapWrite addr value) (heapWrite addr value) := by
  refine Keeps.get_bind fun s hs => ?_
  split
  · exact fun _ ht => ht
  · split
    case h_2 hcell =>
      refine keeps_setHeap stack ?_ _
      obtain ⟨key, hkey, hfound⟩ := Option.bind_eq_some_iff.mp hcell
      rw [VmState.cell?] at hfound
      split at hfound
      · rw [hkey, Option.getD_some, ← hs.1]
        exact List.mem_map_of_mem (f := Prod.fst) (Dict.get?_eq_some_iff.mp hfound)
      · cases hfound
    case h_3 => exact keeps_writeSlot _ _ _ _ _
    all_goals exact fun _ ht => ht

theorem keysFrom_heapWrite (s : VmState) (addr value : Value) (from' : ℤ) :
    keysFrom (heapWrite addr value s).2 from' = keysFrom s from' := by
  obtain ⟨hheap, hstack⟩ := keeps_heapWrite _ _ addr value s ⟨rfl, rfl⟩
  unfold keysFrom memoryKeys
  rw [hheap, hstack]

/-! ### Walks end -/

/-- A part of a run that does not run out of fuel. -/
abbrev EndsVm {α : Type} (x : Vm α) : Prop := Ends Stop.outOfFuel (fun _ : VmState => True) x x

theorem endsVm_heapWrite (addr value : Value) : EndsVm (heapWrite addr value) :=
  related_heapWrite (congruence_ends Stop.outOfFuel fun _ : VmState => True)
    (fun _ _ _ _ => ⟨trivial, nofun⟩) addr value

/-- What a walk does after it has read an address. -/
theorem bind_heapRead_ne {α : Type} {U : CharTable} {s : VmState} {addr : ℤ} {f : Value → Vm α}
    (h : ∀ v, keysFrom s (addr + 1) < keysFrom s addr → (f v s).1 ≠ .error .outOfFuel) :
    ((heapRead U (.int addr) >>= f) s).1 ≠ .error .outOfFuel := by
  obtain ⟨hs, he⟩ := silent_heapRead_int U addr s
  rw [bind_apply]
  rcases hread : heapRead U (.int addr) s with ⟨e | v, t⟩
  · rw [hread] at he
    exact fun h => he (congrArg Except.error (Except.error.inj h))
  · rw [hread] at hs
    obtain rfl : t = s := hs
    exact h v (keysFrom_succ_lt (mem_memoryKeys_of_heapRead (by rw [hread])))

theorem copyChars_ne {U : CharTable} (n : ℕ) {s : VmState} {dst src : ℤ} (h : keysFrom s src < n) :
    (copyChars U dst src n s).1 ≠ .error .outOfFuel := by
  induction n generalizing s dst src with
  | zero => exact absurd h (Nat.not_lt_zero _)
  | succ n ih =>
    refine bind_heapRead_ne fun v hlt => ?_
    have hkeys := keysFrom_heapWrite s (.int dst) v (src + 1)
    obtain ⟨-, he⟩ := endsVm_heapWrite (.int dst) v s trivial
    rw [bind_apply]
    rcases hwrite : heapWrite (.int dst) v s with ⟨e | u, t⟩
    · rw [hwrite] at he
      exact fun h => he (congrArg Except.error (Except.error.inj h))
    · rw [hwrite] at hkeys
      show ((if isZero v then pure () else copyChars U (dst + 1) (src + 1) n : Vm Unit) t).1 ≠ _
      split
      · exact nofun
      · exact ih (by rw [hkeys]; omega)

theorem compareChars_ne {U : CharTable} (n : ℕ) {s : VmState} {a b : ℤ} (h : keysFrom s a < n) :
    (compareChars U a b n s).1 ≠ .error .outOfFuel := by
  induction n generalizing a b with
  | zero => exact absurd h (Nat.not_lt_zero _)
  | succ n ih =>
    refine bind_heapRead_ne fun x hlt => bind_heapRead_ne fun y _ => ?_
    obtain ⟨hs, he⟩ := silent_cmpEq x y s
    rw [bind_apply]
    rcases heq : cmpEq x y s with ⟨e | same, t⟩
    · rw [heq] at he
      exact fun h => he (congrArg Except.error (Except.error.inj h))
    · rw [heq] at hs
      obtain rfl : t = s := hs
      show ((if !same then opSub x y else if isZero x then pure (.int 0)
        else compareChars U (a + 1) (b + 1) n : Vm Value) t).1 ≠ _
      split
      · exact (silent_arith _ _ x y t).2
      · split
        · exact nofun
        · exact ih (by omega)

/-- **A string that is printed ends**: a greater bound for its length changes nothing. -/
theorem readChars_eq {U : CharTable} {n n' : ℕ} (hn : n ≤ n') {s : VmState} {addr : ℤ}
    (h : keysFrom s addr < n) : readChars U addr n' s = readChars U addr n s := by
  induction n generalizing n' addr with
  | zero => exact absurd h (Nat.not_lt_zero _)
  | succ n ih =>
    obtain ⟨n', rfl⟩ := Nat.exists_eq_add_of_le' (Nat.zero_lt_succ n |>.trans_le hn)
    have hs := (silent_heapRead_int U addr s).1
    rw [readChars, readChars, bind_apply, bind_apply]
    rcases hread : heapRead U (.int addr) s with ⟨e | v, t⟩
    · rfl
    · rw [hread] at hs
      obtain rfl : t = s := hs
      have hlt := keysFrom_succ_lt (mem_memoryKeys_of_heapRead (by rw [hread]))
      show (if isZero v then pure [] else _ : Vm Text) t = (if isZero v then pure [] else _ : Vm Text) t
      split
      · rfl
      · have hc := (silent_chr v t).1
        rw [bind_apply, bind_apply]
        rcases hchr : chr v t with ⟨e | c, u⟩
        · rfl
        · rw [hchr] at hc
          obtain rfl : u = t := hc
          show (readChars U (addr + 1) n' >>= _) u = (readChars U (addr + 1) n >>= _) u
          rw [bind_apply, bind_apply, ih (Nat.le_of_succ_le_succ hn) (by omega)]

/-! ### Copying lists -/

/-- No list contains itself, directly or through others. -/
def NestedWell (lists : List (List Value)) (rank : ℕ → ℕ) : Prop :=
  ∀ r items, lists[r]? = some items → ∀ ref, Value.list ref ∈ items →
    ref < lists.length ∧ rank ref < rank r

/-- The number of lists below a rank. -/
def listsBelow (lists : List (List Value)) (rank : ℕ → ℕ) (k : ℕ) : ℕ :=
  (List.range lists.length).countP fun r => rank r < k

theorem listsBelow_lt {lists : List (List Value)} {rank : ℕ → ℕ} {ref k : ℕ}
    (href : ref < lists.length) (hk : rank ref < k) :
    listsBelow lists rank (rank ref) < listsBelow lists rank k := by
  unfold listsBelow
  obtain ⟨before, after, hsplit⟩ := List.append_of_mem (List.mem_range.mpr href)
  have hmono : ∀ l : List ℕ, l.countP (fun r => decide (rank r < rank ref))
      ≤ l.countP fun r => decide (rank r < k) := fun l =>
    List.countP_mono_left fun r _ hr => by
      rw [decide_eq_true_eq] at hr ⊢
      omega
  rw [hsplit, List.countP_append, List.countP_append, List.countP_cons, List.countP_cons]
  simp only [decide_eq_true_eq, lt_irrefl, if_false, if_pos hk]
  have hbefore := hmono before
  have hafter := hmono after
  omega

theorem keeps_of_heapOnly {α : Type} {x y : Vm α} (h : HeapOnly x) (lists : List (List Value)) :
    Keeps (fun t => t.lists = lists) x y := by
  intro s hs
  obtain ⟨⟨heap, counter, ht⟩, -⟩ := h s
  rw [ht]
  exact hs

/-- **A list that is copied ends**: a greater bound for its depth changes nothing. -/
theorem listToHeapFrom_eq {lists : List (List Value)} {rank : ℕ → ℕ}
    (hlists : NestedWell lists rank) (elemType : Text) {k n n' : ℕ} (hn : n ≤ n')
    (hk : listsBelow lists rank k < n) {items : List Value}
    (hitems : ∀ ref, Value.list ref ∈ items → ref < lists.length ∧ rank ref < k) {s : VmState}
    (hs : s.lists = lists) :
    listToHeapFrom elemType n' items s = listToHeapFrom elemType n items s := by
  induction n generalizing n' k items s with
  | zero => exact absurd hk (Nat.not_lt_zero _)
  | succ n ih =>
    obtain ⟨n', rfl⟩ := Nat.exists_eq_add_of_le' (Nat.zero_lt_succ n |>.trans_le hn)
    rw [listToHeapFrom, listToHeapFrom, bind_of_ok (get_apply s), bind_of_ok (get_apply s)]
    refine bind_apply_congr ?_ _
    refine forM_eq_of_keeps (I := fun t => t.lists = lists) (fun p _ => ?_) (fun p hp t ht => ?_) hs
    · refine keeps_of_heapOnly ?_ lists
      split
      · exact (heapOnly_of_silent (silent_listItems _)).bind fun items =>
          (heapOnly_listToHeapFrom _ _ _).bind fun _ => heapOnly_setHeap _ _
      · exact heapOnly_setHeap _ _
    · obtain ⟨v, place⟩ := p
      cases v with
      | none | int | float | str => rfl
      | list ref =>
        obtain ⟨href, hlt⟩ := hitems ref (List.fst_mem_of_mem_zipIdx hp)
        have hget : lists[ref]? = some (lists.getD ref []) := by
          rw [List.getD_eq_getElem?_getD, List.getElem?_eq_getElem href, Option.getD_some]
        have hlist : listItems ref t = (.ok (lists.getD ref []), t) := by
          rw [← ht]
          rfl
        have hbelow := listsBelow_lt href hlt
        dsimp only
        rw [bind_of_ok hlist, bind_of_ok hlist]
        refine bind_apply_congr ?_ _
        exact ih (Nat.le_of_succ_le_succ hn) (k := rank ref) (by omega) (hlists ref _ hget) ht

/-! ### Expressions -/

theorem vmCongruence_ends :
    VmCongruence fun x y => Ends Stop.outOfFuel (fun _ : VmState => True) x y := by
  refine vmCongruence_of_modify (congruence_ends _ _) (fun _ _ _ _ => ⟨trivial, nofun⟩)
    (fun {α x y} h s _ => ?_) (fun U dst src s _ => ⟨trivial, ?_⟩) (fun U a b s _ => ⟨trivial, ?_⟩)
  · rw [traced_apply]
    refine ⟨trivial, ?_⟩
    have he := (h { s with derefs := [] } trivial).2
    revert he
    rcases (x { s with derefs := [] }).1 with e | a
    · exact fun he h => he (congrArg Except.error (Except.error.inj h))
    · exact fun _ => nofun
  · exact copyChars_ne _ (keysFrom_lt_memorySize s src)
  · exact compareChars_ne _ (keysFrom_lt_memorySize s a)

variable {U : CharTable} {M : MathLib} {P : Program}

open Filter

/-- With enough fuel, an expression is evaluated to an end, in every state. -/
def ExprEnds (U : CharTable) (M : MathLib) (P : Program) (e : Expr) : Prop :=
  ∀ᶠ n in atTop, ∀ frame scope, EndsVm ((interp U M P n).eval frame scope e)

/-- With enough fuel, a segment runs to an end, in every state. -/
def SegEnds (U : CharTable) (M : MathLib) (P : Program) (seg : Segment) : Prop :=
  ∀ᶠ n in atTop, ∀ frame it, EndsVm ((interp U M P n).run seg frame it)

/-- An expression is inside another one. -/
inductive Expr.Inside : Expr → Expr → Prop
  | refl (e : Expr) : Inside e e
  | operand {e e' e'' : Expr} (hop : e' ∈ e.operands) (h : Inside e' e'') : Inside e e''

theorem sizeOf_lt_of_mem_operands {e e' : Expr} (h : e' ∈ e.operands) : sizeOf e' < sizeOf e := by
  cases e with
  | call fn args =>
    have hlt : sizeOf e' < sizeOf args := List.sizeOf_lt_of_mem h
    simp only [Expr.call.sizeOf_spec]
    omega
  | un op arg =>
    simp only [Expr.operands] at h
    split at h
    · cases h
    · rw [List.mem_singleton.mp h, Expr.un.sizeOf_spec]
      omega
  | bin | step | index | cast =>
    simp only [Expr.operands, List.mem_cons, List.not_mem_nil, or_false] at h
    rcases h with rfl | rfl <;> simp <;> omega
  | name | slot | const | field | sizeofType | sizeofExpr => cases h

/-- What is true with enough fuel for one step more. -/
theorem eventually_succ {p q : ℕ → Prop} (h : ∀ᶠ n in atTop, p n) (hpq : ∀ n, p n → q (n + 1)) :
    ∀ᶠ n in atTop, q n := by
  obtain ⟨N, hN⟩ := eventually_atTop.mp h
  refine eventually_atTop.mpr ⟨N + 1, fun n hn => ?_⟩
  obtain ⟨n, rfl⟩ := Nat.exists_eq_add_of_le' (Nat.zero_lt_succ N |>.trans_le hn)
  exact hpq n (hN n (Nat.le_of_succ_le_succ hn))

theorem eventually_forall_mem {α : Type} {p : α → ℕ → Prop} (l : List α)
    (h : ∀ a ∈ l, ∀ᶠ n in atTop, p a n) : ∀ᶠ n in atTop, ∀ a ∈ l, p a n :=
  (eventually_all_finite (List.finite_toSet l)).mpr h

/-- What an option holds. -/
theorem eventually_forall_some {α : Type} {p : α → ℕ → Prop} (o : Option α)
    (h : ∀ a, o = some a → ∀ᶠ n in atTop, p a n) : ∀ᶠ n in atTop, ∀ a, o = some a → p a n := by
  cases o with
  | none => exact Eventually.of_forall fun _ => nofun
  | some a =>
    refine (h a rfl).mono fun n hn b hb => ?_
    obtain rfl := Option.some.inj hb
    exact hn

/-- **Expressions end** if the functions end that are called in them. -/
theorem exprEnds {e : Expr} (h : ∀ e' target, e.Inside e' → P.callee e' = some target →
    SegEnds U M P target) : ExprEnds U M P e := by
  induction hsize : sizeOf e using Nat.strongRecOn generalizing e with
  | ind size ih =>
    have hops := eventually_forall_mem e.operands fun e' he' =>
      ih (sizeOf e') (hsize ▸ sizeOf_lt_of_mem_operands he')
        (fun e'' target hin => h e'' target (.operand he' hin)) rfl
    have hcall := eventually_forall_some (P.callee e) fun target htarget =>
      h e target (.refl e) htarget
    refine eventually_succ (hops.and hcall) fun n hn frame scope => ?_
    exact vmCongruence_ends.onFrames.related_evalStep U M P trivial
      (fun e' he' => hn.1 e' he' frame) (fun target htarget frame _ => hn.2 target htarget frame)
      scope

/-- What a statement asks of its expressions, with enough fuel. -/
theorem asked_ends {e : Expr} (h : ∀ e' target, e.Inside e' → P.callee e' = some target →
    SegEnds U M P target) :
    ∀ᶠ n in atTop, Asked P (fun x y => Ends Stop.outOfFuel (fun _ : VmState => True) x y)
      (interp U M P n) (interp U M P n) e := by
  have hops := eventually_forall_mem e.operands fun e' he' =>
    exprEnds (e := e') fun e'' target hin => h e'' target (.operand he' hin)
  have hcall := eventually_forall_some (P.callee e) fun target htarget =>
    h e target (.refl e) htarget
  exact ((exprEnds h).and (hops.and hcall)).mono fun n hn => ⟨hn.1, hn.2.1, hn.2.2⟩

/-! ### Segments -/

/-- **Segments end** if the functions end that are called in them, and their children. -/
theorem segEnds {seg : Segment} (hcalls : ∀ stmt ∈ seg.stmts, ∀ e ∈ stmtExprs U stmt,
      ∀ e' target, e.Inside e' → P.callee e' = some target → SegEnds U M P target)
    (hchildren : ∀ c ∈ buildChildren P.segments seg.id, ∀ child,
      segById P.segments c = some child → SegEnds U M P child) : SegEnds U M P seg := by
  have hasked := eventually_forall_mem seg.stmts fun stmt hstmt =>
    eventually_forall_mem (stmtExprs U stmt) fun e he => asked_ends (hcalls stmt hstmt e he)
  have hrun := eventually_forall_mem (buildChildren P.segments seg.id) fun c hc =>
    eventually_forall_some (segById P.segments c) (hchildren c hc)
  have hcap : ∀ I, EndsVm (vmHandlers U M P I).capUnroll := by
    refine fun I s _ => ⟨trivial, ?_⟩
    show (.ok () : Except Stop Unit) ≠ _
    exact nofun
  refine eventually_succ (hasked.and hrun) fun n hn frame it => ?_
  refine related_execSeg vmCongruence_ends.toCongruence trivial (.refl P (hcap _))
    (fun stmt hstmt => HandlersRelated.onFrames ?_)
    (fun c hc child hchild frame _ => hn.2 c hc child hchild frame) it
  exact related_vmHandlers U M vmCongruence_ends (fun _ _ _ _ _ _ _ _ _ _ => ⟨trivial, nofun⟩)
    (hn.1 stmt hstmt)

/-- A function calls another one: a statement in it evaluates an expression with a call of it. -/
def Calls (U : CharTable) (P : Program) (caller target : Segment) : Prop :=
  ∃ seg ∈ P.segments, Below P.segments caller.id seg.id ∧ ∃ stmt ∈ seg.stmts,
    ∃ e ∈ stmtExprs U stmt, ∃ e', e.Inside e' ∧ P.callee e' = some target

theorem mem_segments_of_callee {e : Expr} {target : Segment} (h : P.callee e = some target) :
    target ∈ P.segments := by
  cases e with
  | call fn args =>
    simp only [Program.callee] at h
    split at h
    · cases h
    · exact List.mem_reverse.mp (List.mem_of_find?_eq_some h)
  | name | slot | const | bin | un | step | index | field | cast | sizeofType | sizeofExpr => cases h

/-- On finitely many segments, calls that make no cycle are well-founded. -/
theorem wellFounded_calls (hacyclic : ∀ fn, ¬ Relation.TransGen (Calls U P) fn fn) :
    WellFounded fun target caller : { seg // seg ∈ P.segments } =>
      Relation.TransGen (Calls U P) caller.1 target.1 := by
  have : Finite { seg // seg ∈ P.segments } := List.finite_toSet P.segments
  have : IsTrans { seg // seg ∈ P.segments } fun target caller =>
      Relation.TransGen (Calls U P) caller.1 target.1 := ⟨fun _ _ _ h h' => h'.trans h⟩
  have : Std.Irrefl fun target caller : { seg // seg ∈ P.segments } =>
      Relation.TransGen (Calls U P) caller.1 target.1 := ⟨fun fn => hacyclic fn.1⟩
  exact Finite.wellFounded_of_trans_of_irrefl _

/-- A bound for the ranks of a forest. -/
theorem exists_rank_le (rank : ℕ → ℕ) (segments : List Segment) :
    ∃ bound, ∀ seg ∈ segments, rank seg.id ≤ bound := by
  obtain ⟨bound, hbound⟩ :=
    (List.finite_toSet (segments.map fun seg => rank seg.id)).bddAbove
  exact ⟨bound, fun seg hseg => hbound (List.mem_map.mpr ⟨seg, hseg, rfl⟩)⟩

/-- **Functions end**, with all that is below them. -/
theorem segEnds_of_below (hforest : Forest P.segments)
    (hacyclic : ∀ fn, ¬ Relation.TransGen (Calls U P) fn fn) {fn : Segment}
    (hfn : fn ∈ P.segments) : ∀ seg ∈ P.segments, Below P.segments fn.id seg.id →
      SegEnds U M P seg := by
  obtain ⟨rank, hrank⟩ := hforest.ranked
  obtain ⟨bound, hbound⟩ := exists_rank_le rank P.segments
  -- outside, along the calls; inside, downwards in the forest
  have houter := fun fn : { seg // seg ∈ P.segments } =>
    (wellFounded_calls hacyclic).induction (C := fun fn => ∀ seg ∈ P.segments,
      Below P.segments fn.1.id seg.id → SegEnds U M P seg) fn
  refine houter ⟨fn, hfn⟩ fun caller ih seg hseg hbelow => ?_
  induction hdepth : bound - rank seg.id using Nat.strongRecOn generalizing seg with
  | ind depth ihdepth =>
    refine segEnds (fun stmt hstmt e he e' target hin htarget => ?_) fun c hc child hchild => ?_
    · have hcall : Calls U P caller.1 target :=
        ⟨seg, hseg, hbelow, stmt, hstmt, e, he, e', hin, htarget⟩
      have hmem := mem_segments_of_callee htarget
      exact ih ⟨target, hmem⟩ (.single hcall) target hmem .refl
    · obtain ⟨seg', hseg', rfl, hparent, hne⟩ := mem_buildChildren.mp hc
      obtain rfl : seg' = child := by
        rw [hforest.segById_eq hseg'] at hchild
        exact Option.some.inj hchild
      have hlt := hrank seg' hseg' hne
      have hle := hbound seg' hseg'
      rw [hparent] at hlt
      refine ihdepth (bound - rank seg'.id) (by omega) seg' hseg' (.step hseg' hne ?_) rfl
      rw [hparent]
      exact hbelow

/-- **Termination.** If the segments form a forest and the calls make no cycle, then every call of a
function ends, in every state, with an amount of fuel that is enough for all of them. The walks
through memory end before their bounds, whatever is in the memory: copying and comparing never runs
out of fuel, and a greater bound changes nothing in a string that is printed, nor in a list that is
copied, if no list contains itself. -/
theorem vm_terminates (hforest : Forest P.segments)
    (hacyclic : ∀ fn, ¬ Relation.TransGen (Calls U P) fn fn) :
    (∀ name, ∃ bound, ∀ fuel, bound ≤ fuel → ∀ args s,
      (callFn U M P fuel name args s).1 ≠ .error .outOfFuel) ∧
    (∀ dst src s, ((memorySize >>= copyChars U dst src) s).1 ≠ .error .outOfFuel) ∧
    (∀ a b s, ((memorySize >>= compareChars U a b) s).1 ≠ .error .outOfFuel) ∧
    (∀ addr s n, s.heap.entries.length + s.addrMap.entries.length + 1 ≤ n →
      readChars U addr n s = (memorySize >>= readChars U addr) s) ∧
    ∀ elemType s rank n, NestedWell s.lists rank → s.lists.length + 1 ≤ n → ∀ items,
      (∀ ref, Value.list ref ∈ items → ref < s.lists.length) →
      listToHeapFrom elemType n items s = listToHeap items elemType s := by
  refine ⟨fun name => ?_, fun dst src s => copyChars_ne _ (keysFrom_lt_memorySize s src),
    fun a b s => compareChars_ne _ (keysFrom_lt_memorySize s a),
    fun addr s n hn => readChars_eq hn (keysFrom_lt_memorySize s addr), ?_⟩
  · have hends : ∀ᶠ n in atTop, ∀ fn, P.fnByName name = some fn →
        ∀ frame it, EndsVm ((interp U M P n).run fn frame it) := by
      refine eventually_forall_some _ fun fn hfn => ?_
      have hmem := List.mem_reverse.mp (List.mem_of_find?_eq_some hfn)
      exact segEnds_of_below hforest hacyclic hmem fn hmem .refl
    obtain ⟨bound, hbound⟩ := eventually_atTop.mp hends
    refine ⟨bound, fun fuel hfuel args s => ?_⟩
    have hcall := related_callFn_of_run vmCongruence_ends U M rfl name args (hbound fuel hfuel)
    exact (hcall s trivial).2
  · intro elemType s rank n hnested hn items hitems
    -- a rank above those of all lists that are there
    obtain ⟨k, hk⟩ := ((List.finite_toSet (List.range s.lists.length)).image rank).bddAbove
    have hcount := List.countP_le_length (p := fun r => decide (rank r < k + 1))
      (l := List.range s.lists.length)
    rw [List.length_range] at hcount
    refine listToHeapFrom_eq hnested elemType hn (k := k + 1) (Nat.lt_succ_of_le hcount)
      (fun ref href => ?_) rfl
    have hlt := hitems ref href
    exact ⟨hlt, Nat.lt_succ_of_le (hk ⟨ref, List.mem_range.mpr hlt, rfl⟩)⟩

/-- A function that calls another one. -/
def callOnce : Program where
  segments :=
    [{ id := 0, parent := 0, type := .function, name := lit "f", scopePath := lit "root.f"
       head := some (lit "int f(int n) {}")
       stmts := [{ raw := lit "return n;", kind := .control, rNames := [lit "n"],
                   expr := some (.name (lit "n")) }] },
     { id := 1, parent := 1, type := .function, name := lit "main", scopePath := lit "root.main"
       head := some (lit "int main() {}")
       stmts := [{ raw := lit "return f(1);", kind := .control,
                   expr := some (.call (lit "f") [.const (.int 1)]) }] }]
  maxUnroll := 5

theorem forest_callOnce : Forest callOnce.segments where
  nodup := by decide
  parent_mem := by decide
  ranked := ⟨id, by decide⟩

/-- Calls go to segments with smaller ids. -/
theorem id_lt_of_calls {caller target : Segment} (h : Calls .ascii callOnce caller target) :
    target.id < caller.id := by
  obtain ⟨seg, hseg, hbelow, stmt, hstmt, e, he, e', hin, htarget⟩ := h
  have htop : caller.id = seg.id := by
    generalize hid : seg.id = t at hbelow
    cases hbelow with
    | refl => rfl
    | @step seg' hseg' hne _ =>
      have hroots : ∀ seg ∈ callOnce.segments, seg.parent = seg.id := by decide
      exact absurd (hroots seg' hseg') hne
  rw [htop]
  simp only [callOnce, List.mem_cons, List.not_mem_nil, or_false] at hseg
  rcases hseg with rfl | rfl
  · obtain rfl := List.mem_singleton.mp hstmt
    obtain rfl := List.mem_singleton.mp he
    cases hin with
    | refl => cases htarget
    | operand hop _ => cases hop
  · obtain rfl := List.mem_singleton.mp hstmt
    obtain rfl := List.mem_singleton.mp he
    cases hin with
    | refl =>
      have hcallee : callOnce.callee (.call (lit "f") [.const (.int 1)])
          = callOnce.segments.head? := rfl
      obtain rfl := Option.some.inj (hcallee.symm.trans htarget)
      exact Nat.zero_lt_one
    | operand hop hin =>
      obtain rfl := List.mem_singleton.mp hop
      cases hin with
      | refl => cases htarget
      | operand hop _ => cases hop

theorem vm_terminates_callOnce : ∃ bound, ∀ fuel, bound ≤ fuel → ∀ args s,
    (callFn .ascii ⟨fun _ _ => .error .valueError⟩ callOnce fuel (lit "main") args s).1
      ≠ .error .outOfFuel := by
  refine (vm_terminates forest_callOnce fun fn hfn => ?_).1 (lit "main")
  have hlt : ∀ fn', Relation.TransGen (Calls .ascii callOnce) fn fn' → fn'.id < fn.id := by
    intro fn' h
    induction h with
    | single h => exact id_lt_of_calls h
    | tail _ h ih => exact (id_lt_of_calls h).trans ih
  exact absurd (hlt fn hfn) (Nat.lt_irrefl _)

end Csc512
