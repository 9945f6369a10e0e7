import Csc512.Cdup.BranchChain
import Csc512.Cdup.HeapBlocks

/-!
# The room that `malloc` makes

A block has one cell for every four bytes, whatever it is made for, and an index steps over one cell
for every element. So there is room for elements of four bytes and more, and for a single element.
What is missing in a block that is too short comes with the next block.

No allocation touches what is below the counter, and no step lowers the counter; so a block keeps
its cells for itself in everything that comes after it.

## Main results

* `mallocRoom_iff` — when the elements of a block have their cells for themselves
* `not_mallocRoom` — two characters
-/

namespace Csc512

open Exec

/-! ### What allocations leave alone -/

/-- The states since the counter was at `base`: the cells below are as they were, and no cell is
gone. -/
structure Beyond (base : ℕ) (heap : Dict ℕ HeapCell) (s : VmState) : Prop where
  counter : base ≤ s.heapCounter
  below : ∀ addr < base, s.heap.get? addr = heap.get? addr
  kept : ∀ addr, (heap.get? addr).isSome → (s.heap.get? addr).isSome

theorem Beyond.refl (s : VmState) : Beyond s.heapCounter s.heap s where
  counter := le_rfl
  below _ _ := rfl
  kept _ h := h

theorem isSome_get?_upsert {heap : Dict ℕ HeapCell} {addr : ℕ} (place : ℕ)
    (f : Option HeapCell → HeapCell) (h : (heap.get? addr).isSome) :
    ((heap.upsert place f).get? addr).isSome := by
  by_cases heq : addr = place
  · rw [heq, Dict.get?_upsert_self]
    rfl
  · rwa [Dict.get?_upsert_of_ne _ _ heq]

section Allocations

variable {base : ℕ} {heap : Dict ℕ HeapCell}

theorem keepsBeyond_setHeap {addr : ℕ} (h : base ≤ addr) (cell : HeapCell) :
    Keeps (Beyond base heap) (setHeap addr cell) (setHeap addr cell) := fun s hs =>
  ⟨hs.counter,
    fun addr' hlt => (Dict.get?_upsert_of_ne _ _ (by omega)).trans (hs.below addr' hlt),
    fun addr' hsome => isSome_get?_upsert _ _ (hs.kept addr' hsome)⟩

theorem keepsBeyond_setHeapCounter {addr : ℕ} (h : base ≤ addr) :
    Keeps (Beyond base heap) (setHeapCounter addr) (setHeapCounter addr) := fun _ hs =>
  ⟨h, hs.below, hs.kept⟩

theorem keepsBeyond_allocHeap (nBytes : ℤ) (elemType : Text) :
    Keeps (Beyond base heap) (allocHeap nBytes elemType) (allocHeap nBytes elemType) := by
  have hR := congruence_keeps Stop.outOfFuel (Beyond base heap)
  refine Keeps.get_bind fun s hs => ?_
  have hplace : ∀ k, base ≤ s.heapCounter + k := fun k => Nat.le_add_right_of_le hs.counter
  exact hR.bind (hR.forM fun i _ => keepsBeyond_setHeap (hplace i) _) fun _ =>
    hR.bind (keepsBeyond_setHeapCounter (hplace _)) fun _ => hR.pure _

theorem keepsBeyond_internString (str : Text) :
    Keeps (Beyond base heap) (internString str) (internString str) := by
  have hR := congruence_keeps Stop.outOfFuel (Beyond base heap)
  refine Keeps.get_bind fun s hs => ?_
  have hplace : ∀ k, base ≤ s.heapCounter + k := fun k => Nat.le_add_right_of_le hs.counter
  refine hR.bind (hR.forM fun p _ => keepsBeyond_setHeap (hplace p.2) _) fun _ => ?_
  refine hR.bind (keepsBeyond_setHeap (hplace _) _) fun _ => ?_
  exact hR.bind (keepsBeyond_setHeapCounter (hplace (str.length + 1))) fun _ => hR.pure _

/-- Rows are copied to places behind the counter as well. -/
theorem keepsBeyond_listToHeapFrom (elemType : Text) (fuel : ℕ) (items : List Value) :
    Keeps (Beyond base heap) (listToHeapFrom elemType fuel items)
      (listToHeapFrom elemType fuel items) := by
  have hR := congruence_keeps Stop.outOfFuel (Beyond base heap)
  induction fuel generalizing items with
  | zero => exact hR.quiet (silent_raise _ _)
  | succ fuel ih =>
    refine Keeps.get_bind fun s hs => ?_
    have hplace : ∀ k, base ≤ s.heapCounter + k := fun k => Nat.le_add_right_of_le hs.counter
    refine hR.bind (hR.forM fun p _ => ?_) fun _ =>
      hR.bind (keepsBeyond_setHeapCounter (hplace _)) fun _ => hR.pure _
    split
    · exact hR.quiet_bind (silent_listItems _) fun items => hR.bind (ih items) fun row =>
        keepsBeyond_setHeap (hplace p.2) _
    · exact keepsBeyond_setHeap (hplace p.2) _

theorem keepsBeyond_listToHeap (items : List Value) (elemType : Text) :
    Keeps (Beyond base heap) (listToHeap items elemType) (listToHeap items elemType) :=
  Keeps.get_bind fun _ _ => keepsBeyond_listToHeapFrom elemType _ items

end Allocations

/-- A block is put on the heap, at an address. -/
inductive Allocates : VmState → ℕ → VmState → Prop
  | alloc {s t : VmState} {base : ℕ} {nBytes : ℤ} {elemType : Text}
    (h : allocHeap nBytes elemType s = (.ok (.int base), t)) : Allocates s base t
  | intern {s t : VmState} {base : ℕ} {str : Text}
    (h : internString str s = (.ok (.int base), t)) : Allocates s base t
  | promote {s t : VmState} {base : ℕ} {items : List Value} {elemType : Text}
    (h : listToHeap items elemType s = (.ok (.int base), t)) : Allocates s base t

/-- A list is copied to the address that the counter is at. -/
theorem listToHeap_base {items : List Value} {elemType : Text} {s t : VmState} {v : Value}
    (h : listToHeap items elemType s = (.ok v, t)) : v = .int s.heapCounter := by
  rw [listToHeap, bind_of_ok (get_apply s), listToHeapFrom, bind_of_ok (get_apply s),
    bind_apply] at h
  split at h
  · exact (Except.ok.inj (congrArg Prod.fst h)).symm
  · cases h

/-- **What an allocation does to the cells that there are**: it puts the block at the counter, and
leaves alone what is below. -/
theorem Allocates.beyond {s t : VmState} {base : ℕ} (h : Allocates s base t) :
    base = s.heapCounter ∧ Beyond s.heapCounter s.heap t := by
  have hs := Beyond.refl s
  cases h with
  | @alloc _ _ nBytes elemType h =>
    have hkept := keepsBeyond_allocHeap nBytes elemType s hs
    obtain ⟨u, heq, -⟩ := allocHeap_apply nBytes elemType s
    rw [h] at heq hkept
    exact ⟨by simpa using congrArg Prod.fst heq, hkept⟩
  | @intern _ _ str h =>
    have hkept := keepsBeyond_internString str s hs
    obtain ⟨u, heq, -⟩ := internString_apply str s
    rw [h] at heq hkept
    exact ⟨by simpa using congrArg Prod.fst heq, hkept⟩
  | @promote _ _ items elemType h =>
    have hkept := keepsBeyond_listToHeap items elemType s hs
    rw [h] at hkept
    exact ⟨by simpa using listToHeap_base h, hkept⟩

/-! ### What later steps leave -/

/-- The states since the counter was at `base` and the heap was `heap`: the counter was not lowered,
and no cell is gone. -/
structure Grown (base : ℕ) (heap : Dict ℕ HeapCell) (s : VmState) : Prop where
  counter : base ≤ s.heapCounter
  kept : ∀ addr, (heap.get? addr).isSome → (s.heap.get? addr).isSome

theorem Grown.trans {base : ℕ} {heap : Dict ℕ HeapCell} {s t : VmState} (h : Grown base heap s)
    (ht : Grown s.heapCounter s.heap t) : Grown base heap t :=
  ⟨h.counter.trans ht.counter, fun addr hsome => ht.kept addr (h.kept addr hsome)⟩

theorem Beyond.grown {base : ℕ} {heap : Dict ℕ HeapCell} {s : VmState} (h : Beyond base heap s) :
    Grown base heap s := ⟨h.counter, h.kept⟩

theorem grown_heapWrite (addr value : Value) (s : VmState) :
    Grown s.heapCounter s.heap (heapWrite addr value s).2 := by
  have hkeeps : Keeps (Grown s.heapCounter s.heap) (heapWrite addr value) (heapWrite addr value) := by
    refine Keeps.get_bind fun t _ => ?_
    split
    · exact fun _ hu => hu
    · split
      case h_2 => exact fun u hu => ⟨hu.counter, fun addr' hsome =>
        isSome_get?_upsert _ _ (hu.kept addr' hsome)⟩
      case h_3 =>
        rename_i frame name _ _ _ _
        intro u hu
        cases hslot : slotIn u.frames frame name with
        | none =>
          rw [writeSlot_of_none hslot]
          exact hu
        | some slot =>
          rw [writeSlot_of_some hslot]
          exact ⟨hu.counter, hu.kept⟩
      all_goals exact fun _ hu => hu
  exact hkeeps s ⟨le_rfl, fun _ h => h⟩

theorem HeapStep.grown {ok : VmState → List Value → Prop} {s t : VmState} (h : HeapStep ok s t) :
    Grown s.heapCounter s.heap t := by
  cases h with
  | alloc nBytes elemType => exact (keepsBeyond_allocHeap nBytes elemType s (.refl s)).grown
  | intern str => exact (keepsBeyond_internString str s (.refl s)).grown
  | promote elemType _ => exact (keepsBeyond_listToHeap _ elemType s (.refl s)).grown
  | write addr value => exact grown_heapWrite addr value s
  | other hheap hcounter => exact ⟨hcounter.ge, fun addr h => hheap ▸ h⟩

/-- **No step of a run lowers the counter or takes a cell away.** -/
theorem Later.grown {U : CharTable} {M : MathLib} {P : Program} {s t : VmState}
    (h : Later U M P s t) : Grown s.heapCounter s.heap t :=
  h.of_heapSteps (fun _ _ hs hstep => hs.trans hstep.grown) ⟨le_rfl, fun _ h => h⟩

/-! ### The room in a block -/

/-- After a step from `s` to `t`, the `n` elements from an address on have their cells for
themselves: the cells are there from now on, they were not there before, and no block that is put on
the heap later has one of them. -/
structure RoomFor (U : CharTable) (M : MathLib) (P : Program) (s t : VmState) (base n : ℕ) :
    Prop where
  valid : ∀ u, Later U M P t u → ∀ i < n, (u.heap.get? (base + i)).isSome
  notBefore : ∀ i < n, s.heap.get? (base + i) = none
  notAfter : ∀ u v next, Later U M P t u → Allocates u next v → ∀ i < n,
    base + i < next ∧ v.heap.get? (base + i) = u.heap.get? (base + i)

section Room

variable {U : CharTable} {M : MathLib} {P : Program}

/-- A new block has room for as many elements as it has cells, and for no more. -/
theorem NewBlock.roomFor_iff {s t : VmState} {cells : List HeapCell} (h : NewBlock s t cells)
    (n : ℕ) : RoomFor U M P s t s.heapCounter n ↔
      n ≤ cells.length ∧ ∀ i < n, s.heap.get? (s.heapCounter + i) = none := by
  constructor
  · intro hroom
    refine ⟨?_, hroom.notBefore⟩
    -- the first element behind the block would be in a cell of `s`
    by_contra hlt
    have hsome := hroom.valid t .refl cells.length (by omega)
    rw [h.heap, get?_setCells_of_notMem (.inr le_rfl),
      hroom.notBefore cells.length (by omega)] at hsome
    cases hsome
  · rintro ⟨hn, hfree⟩
    refine ⟨fun u hu i hi => ?_, hfree, fun u v next hu hnext i hi => ?_⟩
    · refine hu.grown.kept _ ?_
      rw [h.get? (by omega)]
      rfl
    · obtain ⟨rfl, hbeyond⟩ := hnext.beyond
      have hcounter := hu.grown.counter
      rw [h.counter] at hcounter
      have hbelow : s.heapCounter + i < u.heapCounter := by omega
      exact ⟨hbelow, hbeyond.below _ hbelow⟩

end Room

/-- `malloc(count * sizeof(T))`. -/
def mallocCall (count : Expr) (T : Text) : Expr :=
  .call (lit "malloc") [.bin .mul count (.sizeofType T)]

theorem length_blankCells (n k : ℕ) :
    (blankCells ((n : ℤ) * k) (lit "int")).length = max 1 (n * k / 4) := by
  have hint : sizeofType (lit "int") = 4 := by decide +kernel
  rw [blankCells, List.length_replicate, hint]
  omega

theorem le_blankCells_iff {T : Text} {n : ℕ} (hn : 1 ≤ n) :
    n ≤ (blankCells ((n : ℤ) * sizeofType T) (lit "int")).length ↔
      4 ≤ sizeofType T ∨ n = 1 := by
  rw [length_blankCells]
  constructor
  · intro h
    by_contra hnot
    obtain ⟨hsize, hone⟩ := not_or.mp hnot
    have hbytes : n * sizeofType T / 4 < n := by
      rw [Nat.div_lt_iff_lt_mul (by decide)]
      exact Nat.mul_lt_mul_of_pos_left (by omega) (by omega)
    omega
  · rintro (hsize | rfl)
    · have hbytes : n ≤ n * sizeofType T / 4 := by
        rw [Nat.le_div_iff_mul_le (by decide)]
        exact Nat.mul_le_mul_left n hsize
      omega
    · omega

/-! ### Evaluating the call -/

section Eval

variable {U : CharTable} {M : MathLib} {P : Program} {fuel frame : ℕ} {scope : Text}
  {count : Expr} {T : Text} {s s' : VmState} {n : ℕ}

/-- The number of bytes is computed, and then a block is put on the heap. -/
theorem eval_mallocCall
    (hcount : (interp U M P (fuel + 1)).eval frame scope count { s with derefs := [] }
      = (.ok (.int n), s')) :
    ∃ t, (interp U M P (fuel + 3)).eval frame scope (mallocCall count T) s
        = (.ok (.int s'.heapCounter), t) ∧
      NewBlock s' t (blankCells ((n : ℤ) * sizeofType T) (lit "int")) := by
  obtain ⟨t, heq, hblock⟩ := allocHeap_apply ((n : ℤ) * sizeofType T) (lit "int") s'
  refine ⟨{ t with derefs := s.derefs }, ?_, hblock.heap, hblock.counter, hblock.lists⟩
  have hbytes : (interp U M P (fuel + 2)).eval frame scope (.bin .mul count (.sizeofType T))
      { s with derefs := [] } = (.ok (.int ((n : ℤ) * sizeofType T)), s') :=
    bind_of_ok hcount _
  have harg : intArg U (interp U M P (fuel + 2)) [.bin .mul count (.sizeofType T)] 0 (pure 0)
      frame scope { s with derefs := [] } = (.ok ((n : ℤ) * sizeofType T), s') :=
    bind_of_ok hbytes _
  have hcall : evalCall U M P (interp U M P (fuel + 2)) (lit "malloc")
      [.bin .mul count (.sizeofType T)] frame scope { s with derefs := [] }
      = (.ok (.int s'.heapCounter), t) := by
    have hname : builtins.lookup (lit "malloc") = some .malloc := by decide +kernel
    rw [evalCall, hname]
    exact (bind_of_ok harg _).trans heq
  show untraced (evalCall U M P (interp U M P (fuel + 2)) (lit "malloc")
    [.bin .mul count (.sizeofType T)] frame scope) s = _
  rw [untraced, bind_apply, traced_apply, hcall]
  rfl

end Eval

/-- The call makes room for its elements, where `s'` is the state that the block is put on the heap
in. -/
def MakesRoom (U : CharTable) (M : MathLib) (P : Program) (fuel frame : ℕ) (scope : Text)
    (count : Expr) (T : Text) (n : ℕ) (s s' : VmState) : Prop :=
  ∃ (base : ℕ) (t : VmState),
    (interp U M P fuel).eval frame scope (mallocCall count T) s = (.ok (.int base), t) ∧
      RoomFor U M P s' t base n

section Makes

variable {U : CharTable} {M : MathLib} {P : Program} {fuel frame : ℕ} {scope : Text}
  {count : Expr} {T : Text} {s s' : VmState} {n : ℕ}

/-- There is room for as many elements as the block has cells. -/
theorem makesRoom_iff_le
    (hcount : (interp U M P (fuel + 1)).eval frame scope count { s with derefs := [] }
      = (.ok (.int n), s')) :
    MakesRoom U M P (fuel + 3) frame scope count T n s s' ↔
      n ≤ (blankCells ((n : ℤ) * sizeofType T) (lit "int")).length ∧
        ∀ i < n, s'.heap.get? (s'.heapCounter + i) = none := by
  obtain ⟨t, heq, hblock⟩ := eval_mallocCall (T := T) hcount
  rw [← hblock.roomFor_iff (U := U) (M := M) (P := P) n]
  constructor
  · rintro ⟨base, u, heq', hroom⟩
    rw [heq] at heq'
    obtain ⟨hbase, rfl⟩ := Prod.mk.inj heq'
    obtain rfl : s'.heapCounter = base := by simpa using hbase
    exact hroom
  · exact fun hroom => ⟨_, t, heq, hroom⟩

/-- **When `malloc(n * sizeof(T))` makes room for `n` elements**: `T` has four bytes or more, or
there is one element, and the cells behind the counter are free. -/
theorem mallocRoom_iff (hn : 1 ≤ n)
    (hcount : (interp U M P (fuel + 1)).eval frame scope count { s with derefs := [] }
      = (.ok (.int n), s')) :
    MakesRoom U M P (fuel + 3) frame scope count T n s s' ↔
      (4 ≤ sizeofType T ∨ n = 1) ∧ ∀ i < n, s'.heap.get? (s'.heapCounter + i) = none := by
  rw [makesRoom_iff_le hcount, le_blankCells_iff hn]

end Makes

/-- Three numbers of eight bytes. -/
theorem mallocRoom_iff_sample : MakesRoom .ascii noMath ⟨[], 1⟩ 3 0 [] (.const (.int 3))
    (lit "double") 3 {} {} :=
  (mallocRoom_iff (by decide) rfl).mpr ⟨by decide +kernel, fun _ _ => rfl⟩

/-- **Two characters**: the block has no cell for the second one. -/
theorem not_mallocRoom : ¬ MakesRoom .ascii noMath ⟨[], 1⟩ 3 0 [] (.const (.int 2))
    (lit "char") 2 {} {} := by
  intro h
  exact absurd ((makesRoom_iff_le rfl).mp h).1 (by decide +kernel)

end Csc512
