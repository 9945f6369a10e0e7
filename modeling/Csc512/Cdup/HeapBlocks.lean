import Csc512.Cdup.StackAddresses

/-!
# Heap blocks

Three operations put new blocks on the heap, and all of them take their addresses from one counter.
A block is fresh as long as the counter is above every cell. Copying a list keeps it there when the
rows of the list are empty; but a row that is not empty is copied to the address of the list itself,
because the counter has not moved yet, and afterwards the counter can be below its cells.

## Main results

* `allocatesFresh_of_flat` — runs in which no list is copied that has rows with items
* `not_allocatesFresh` — a list of two rows
-/

namespace Csc512

open Exec

/-! ### Blocks -/

/-- Set the cells from an address on. -/
def setCells : ℕ → List HeapCell → Dict ℕ HeapCell → Dict ℕ HeapCell
  | _, [], heap => heap
  | base, cell :: cells, heap => setCells (base + 1) cells (heap.upsert base fun _ => cell)

theorem get?_setCells_of_notMem {base addr : ℕ} {cells : List HeapCell} {heap : Dict ℕ HeapCell}
    (h : addr < base ∨ base + cells.length ≤ addr) :
    (setCells base cells heap).get? addr = heap.get? addr := by
  induction cells generalizing base heap with
  | nil => rfl
  | cons cell cells ih =>
    rw [List.length_cons] at h
    rw [setCells, ih (by omega), Dict.get?_upsert_of_ne _ _ (by omega)]

theorem get?_setCells {base i : ℕ} {cells : List HeapCell} {heap : Dict ℕ HeapCell}
    {cell : HeapCell} (h : cells[i]? = some cell) :
    (setCells base cells heap).get? (base + i) = some cell := by
  induction cells generalizing base i heap with
  | nil => cases h
  | cons c cells ih =>
    cases i with
    | zero =>
      rw [setCells, get?_setCells_of_notMem (by omega), Nat.add_zero, Dict.get?_upsert_self]
      simpa using h
    | succ i =>
      rw [setCells, show base + (i + 1) = base + 1 + i by omega]
      exact ih (by simpa using h)

/-- Cells that are set one after the other. -/
theorem forM_setHeap {α : Type} (base k : ℕ) (cell : α → HeapCell) (l : List α) (s : VmState) :
    (l.zipIdx k).forM (fun p => setHeap (base + p.2) (cell p.1)) s
      = (.ok (), { s with heap := setCells (base + k) (l.map cell) s.heap }) := by
  induction l generalizing k s with
  | nil => rfl
  | cons a l ih =>
    exact ih (k + 1) { s with heap := s.heap.upsert (base + k) fun _ => cell a }

/-- The states before and after a block was put on the heap. -/
structure NewBlock (s t : VmState) (cells : List HeapCell) : Prop where
  heap : t.heap = setCells s.heapCounter cells s.heap
  counter : t.heapCounter = s.heapCounter + cells.length
  lists : t.lists = s.lists

/-- The cells that `allocHeap` makes. -/
def blankCells (nBytes : ℤ) (elemType : Text) : List HeapCell :=
  List.replicate (max 1 (nBytes / sizeofType elemType)).toNat ⟨.int 0, elemType⟩

/-- The cells that `internString` makes. -/
def charCells (str : Text) : List HeapCell :=
  str.map (fun c => ⟨.int c.toNat, lit "char"⟩) ++ [⟨.int 0, lit "char"⟩]

/-- The cell that `listToHeap` makes of an item, if rows are copied to `base`. -/
def itemCell (base : ℕ) (elemType : Text) : Value → HeapCell
  | .list _ => ⟨.int base, elemType ++ ['*']⟩
  | v => ⟨v, elemType⟩

theorem allocHeap_apply (nBytes : ℤ) (elemType : Text) (s : VmState) :
    ∃ t, allocHeap nBytes elemType s = (.ok (.int s.heapCounter), t) ∧
      NewBlock s t (blankCells nBytes elemType) := by
  let n := (max 1 (nBytes / sizeofType elemType)).toNat
  have hrange : List.range n = ((List.replicate n ()).zipIdx).map Prod.snd := by
    rw [List.zipIdx_map_snd, List.length_replicate, List.range_eq_range']
  have hcells : (List.range n).forM (fun i => setHeap (s.heapCounter + i) ⟨.int 0, elemType⟩) s
      = (.ok (), { s with heap := setCells s.heapCounter (blankCells nBytes elemType) s.heap }) := by
    rw [hrange]
    refine (congrFun List.forM_map s).trans ?_
    refine (forM_setHeap s.heapCounter 0 (fun _ => ⟨.int 0, elemType⟩) _ s).trans ?_
    rw [List.map_replicate]
    rfl
  refine ⟨_, bind_of_ok hcells _, rfl, ?_, rfl⟩
  show s.heapCounter + n = _
  rw [blankCells, List.length_replicate]

theorem setCells_concat (base : ℕ) (cells : List HeapCell) (cell : HeapCell)
    (heap : Dict ℕ HeapCell) : setCells base (cells ++ [cell]) heap
      = (setCells base cells heap).upsert (base + cells.length) fun _ => cell := by
  induction cells generalizing base heap with
  | nil => rfl
  | cons c cells ih =>
    show setCells (base + 1) (cells ++ [cell]) _ = _
    rw [ih, List.length_cons, show base + 1 + cells.length = base + (cells.length + 1) by omega]
    rfl

theorem internString_apply (str : Text) (s : VmState) :
    ∃ t, internString str s = (.ok (.int s.heapCounter), t) ∧ NewBlock s t (charCells str) := by
  have hchars := forM_setHeap s.heapCounter 0 (fun c : Char => ⟨.int c.toNat, lit "char"⟩) str s
  refine ⟨_, bind_of_ok hchars _, ?_, ?_, rfl⟩
  · rw [charCells, setCells_concat, List.length_map]
    rfl
  · rw [charCells, List.length_append, List.length_map]
    rfl

/-! ### Lists -/

/-- The rows of a list are empty. -/
def Flat (s : VmState) (items : List Value) : Prop :=
  ∀ ref, Value.list ref ∈ items → s.lists[ref]? = some []

/-- An empty row is copied to the address that the counter is at, and nothing happens. -/
theorem copyRow_apply {ref fuel : ℕ} {t : VmState} (elemType : Text) (hfuel : 0 < fuel)
    (h : t.lists[ref]? = some []) :
    (listItems ref >>= listToHeapFrom elemType fuel) t = (.ok (.int t.heapCounter), t) := by
  obtain ⟨k, rfl⟩ := Nat.exists_eq_succ_of_ne_zero hfuel.ne'
  have hitems : listItems ref t = (.ok [], t) := by
    show (Except.ok (t.lists.getD ref []), t) = _
    rw [List.getD_eq_getElem?_getD, h]
    rfl
  exact bind_of_ok hitems _

theorem listToHeap_apply (elemType : Text) {items : List Value} {s : VmState}
    (h : Flat s items) :
    ∃ t, listToHeap items elemType s = (.ok (.int s.heapCounter), t) ∧
      NewBlock s t (items.map (itemCell s.heapCounter elemType)) := by
  have hsame : (items.zipIdx.forM fun p =>
      match p.1 with
      | .list ref => do
        let items ← listItems ref
        let base ← listToHeapFrom elemType s.lists.length items
        setHeap (s.heapCounter + p.2) ⟨base, elemType ++ ['*']⟩
      | v => setHeap (s.heapCounter + p.2) ⟨v, elemType⟩) s
      = (items.zipIdx.forM fun p =>
        setHeap (s.heapCounter + p.2) (itemCell s.heapCounter elemType p.1)) s := by
    let I (t : VmState) : Prop := t.lists = s.lists ∧ t.heapCounter = s.heapCounter
    have hitem : ∀ p ∈ items.zipIdx, ∀ t, I t → (match p.1 with
        | .list ref => do
          let items ← listItems ref
          let base ← listToHeapFrom elemType s.lists.length items
          setHeap (s.heapCounter + p.2) ⟨base, elemType ++ ['*']⟩
        | v => setHeap (s.heapCounter + p.2) ⟨v, elemType⟩ : Vm Unit) t
        = setHeap (s.heapCounter + p.2) (itemCell s.heapCounter elemType p.1) t := by
      rintro ⟨v, i⟩ hp t ⟨hlists, hcounter⟩
      cases v with
      | list ref =>
        have hrow := h ref (List.fst_mem_of_mem_zipIdx hp)
        have hlt := (List.getElem?_eq_some_iff.mp hrow).1
        have hcopy := copyRow_apply elemType (Nat.zero_lt_of_lt hlt) (hlists ▸ hrow)
        rw [hcounter] at hcopy
        dsimp only
        rw [← bind_assoc']
        exact bind_of_ok hcopy _
      | none | int | float | str => rfl
    refine forM_eq_of_keeps (I := I) (fun p hp t ht => ?_) hitem ⟨rfl, rfl⟩
    rw [hitem p hp t ht]
    exact ht
  refine ⟨_, bind_of_ok (hsame.trans (forM_setHeap _ 0 _ items s)) _, rfl, ?_, rfl⟩
  rw [List.length_map]

/-! ### Runs -/

/-- A step of a run, as the heap sees it: an allocation, a write through a pointer, or something
else, which the heap does not see. The lists that are copied are `ok`. -/
inductive HeapStep (ok : VmState → List Value → Prop) : VmState → VmState → Prop
  | alloc (s : VmState) (nBytes : ℤ) (elemType : Text) :
    HeapStep ok s (allocHeap nBytes elemType s).2
  | intern (s : VmState) (str : Text) : HeapStep ok s (internString str s).2
  | promote (s : VmState) {items : List Value} (elemType : Text) (hok : ok s items) :
    HeapStep ok s (listToHeap items elemType s).2
  | write (s : VmState) (addr value : Value) : HeapStep ok s (heapWrite addr value s).2
  | other {s t : VmState} (hheap : t.heap = s.heap) (hcounter : t.heapCounter = s.heapCounter) :
    HeapStep ok s t

/-- The states of runs, as the heap sees them. -/
inductive HeapRun (ok : VmState → List Value → Prop) : VmState → Prop
  | fresh (lists : List (List Value)) : HeapRun ok { lists }
  | step {s t : VmState} (h : HeapRun ok s) (hstep : HeapStep ok s t) : HeapRun ok t

/-- What the interpreter does to a state is such a step. -/
theorem HeapStep.of_change {s t : VmState} (h : Change s t) : HeapStep (fun _ _ => True) s t := by
  cases h with
  | allocHeap nBytes elemType => exact .alloc _ nBytes elemType
  | internString str => exact .intern _ str
  | listToHeap items elemType => exact .promote _ elemType trivial
  | heapWrite addr value => exact .write _ addr value
  | writeSlot frame name value =>
    cases hslot : slotIn s.frames frame name with
    | none => exact .other (by rw [writeSlot_of_none hslot]) (by rw [writeSlot_of_none hslot])
    | some slot => exact .other (by rw [writeSlot_of_some hslot]) (by rw [writeSlot_of_some hslot])
  | newFrame | allocStackSlot | lists | output | trace => exact .other rfl rfl

/-- The states that calls, segments, expressions and single operations lead to from a state, in any
order. -/
inductive Later (U : CharTable) (M : MathLib) (P : Program) (s : VmState) : VmState → Prop
  | refl : Later U M P s s
  | callFn {t : VmState} (h : Later U M P s t) (fuel : ℕ) (name : Text)
    (args : List (Text × Value)) : Later U M P s (callFn U M P fuel name args t).2
  | run {t : VmState} (h : Later U M P s t) (fuel : ℕ) (seg : Segment) (frame : ℕ)
    (it : Option ℕ) : Later U M P s ((interp U M P fuel).run seg frame it t).2
  | eval {t : VmState} (h : Later U M P s t) (fuel : ℕ) (frame : ℕ) (scope : Text) (e : Expr) :
    Later U M P s ((interp U M P fuel).eval frame scope e t).2
  | change {t u : VmState} (h : Later U M P s t) (hchange : Change t u) : Later U M P s u

theorem Reachable.later {U : CharTable} {M : MathLib} {P : Program} {s : VmState}
    (h : Reachable U M P s) : ∃ lists, Later U M P { lists } s := by
  induction h with
  | fresh lists => exact ⟨lists, .refl⟩
  | callFn _ fuel name args ih => exact ih.imp fun _ h => h.callFn fuel name args
  | run _ fuel seg frame it ih => exact ih.imp fun _ h => h.run fuel seg frame it
  | eval _ fuel frame scope e ih => exact ih.imp fun _ h => h.eval fuel frame scope e
  | change _ hchange ih => exact ih.imp fun _ h => h.change hchange

section Closed

variable {p : VmState → Prop}
  (hp : ∀ s t, p s → HeapStep (fun _ _ => True) s t → p t)

include hp

/-- What heap steps keep is kept by every part of a run. -/
theorem vmCongruence_of_heapSteps : VmCongruence fun x y => Keeps p x y where
  toCongruence := congruence_keeps Stop.outOfFuel _
  traced h s hs := by
    rw [traced_apply]
    exact hp _ _ (h { s with derefs := [] } (hp _ _ hs (.other rfl rfl))) (.other rfl rfl)
  newFrame _ hs := hp _ _ hs (.other rfl rfl)
  allocStackSlot _ _ _ _ _ hs := hp _ _ hs (.other rfl rfl)
  writeSlot frame name value s hs := hp _ _ hs (.of_change (.writeSlot s frame name value))
  newList _ _ hs := hp _ _ hs (.other rfl rfl)
  setItem _ _ _ _ hs := hp _ _ hs (.other rfl rfl)
  allocHeap nBytes elemType s hs := hp _ _ hs (.alloc s nBytes elemType)
  internString str s hs := hp _ _ hs (.intern s str)
  listToHeap items elemType s hs := hp _ _ hs (.promote s elemType trivial)
  heapWrite addr value s hs := hp _ _ hs (.write s addr value)
  noteDeref _ _ _ hs := hp _ _ hs (.other rfl rfl)
  print _ _ hs := hp _ _ hs (.other rfl rfl)
  copyChars := related_copyChars (congruence_keeps Stop.outOfFuel _) (fun _ hs => hs)
    fun addr value s hs => hp _ _ hs (.write s addr value)
  compareChars := related_compareChars (congruence_keeps Stop.outOfFuel _) fun _ hs => hs

/-- **Every run of the interpreter is a sequence of heap steps.** -/
theorem Later.of_heapSteps {U : CharTable} {M : MathLib} {P : Program} {s t : VmState}
    (h : Later U M P s t) (hs : p s) : p t := by
  have hrecord : ∀ stmt seg it rs ws taken reads writes, Keeps p
      (record P stmt seg it rs ws taken reads writes)
      (record P stmt seg it rs ws taken reads writes) :=
    fun _ _ _ _ _ _ _ _ _ hs => hp _ _ hs (.other rfl rfl)
  have hcap : ∀ I I', Bounds (fun x y => Keeps p x y) P P
      (vmHandlers U M P I) (vmHandlers U M P I') :=
    fun _ _ => .refl P fun _ hs => hp _ _ hs (.other rfl rfl)
  have hfuel := Fuels.refl (R := fun x y => Keeps p x y) fun _ hs => hs
  have hkeeps := vmCongruence_of_heapSteps hp
  have hinterp := fun fuel => related_interp hkeeps U M (P := P) hrecord hcap (hfuel fuel)
  induction h with
  | refl => exact hs
  | callFn _ fuel name args ih =>
    exact related_callFn hkeeps U M hrecord hcap (hfuel fuel) name args _ ih
  | run _ fuel seg frame it ih => exact (hinterp fuel).2 seg frame it _ ih
  | eval _ fuel frame scope e ih => exact (hinterp fuel).1 frame scope e _ ih
  | change _ hchange ih => exact hp _ _ ih (.of_change hchange)

end Closed

theorem heapRun_of_reachable {U : CharTable} {M : MathLib} {P : Program} {s : VmState}
    (h : Reachable U M P s) : HeapRun (fun _ _ => True) s := by
  obtain ⟨lists, hlater⟩ := h.later
  exact hlater.of_heapSteps (fun _ _ => HeapRun.step) (.fresh lists)

/-- Between the states, a block was put on the heap: its cells were not there before, and the cells
that were there before are as they were. -/
structure FreshBlock (s t : VmState) (base size : ℕ) : Prop where
  notBefore : ∀ i < size, s.heap.get? (base + i) = none
  after : ∀ i < size, (t.heap.get? (base + i)).isSome
  kept : ∀ addr cell, s.heap.get? addr = some cell → t.heap.get? addr = some cell

/-- A list can be read at an address: its items are in the cells from there on, and its rows at the
addresses that are there in their place. -/
inductive ReadsBack (U : CharTable) (t : VmState) : List Value → ℕ → Prop
  | intro {items : List Value} {base : ℕ} (rowAddr : ℕ → ℕ)
    (plain : ∀ (i : ℕ) v, items[i]? = some v → (∀ ref, v ≠ .list ref) →
      heapRead U (.int (base + i : ℕ)) t = (.ok v, t))
    (addr : ∀ (i : ℕ) ref, items[i]? = some (.list ref) →
      heapRead U (.int (base + i : ℕ)) t = (.ok (.int (rowAddr i)), t))
    (row : ∀ (i : ℕ) ref, items[i]? = some (.list ref) →
      ReadsBack U t (t.lists.getD ref []) (rowAddr i)) : ReadsBack U t items base

/-- What is expected of every allocation in a state. -/
def AllocatesFresh (U : CharTable) (ok : VmState → List Value → Prop) (s : VmState) : Prop :=
  (∀ nBytes elemType, ∃ (base : ℕ) (t : VmState), allocHeap nBytes elemType s = (.ok (.int base), t) ∧
    FreshBlock s t base (max 1 (nBytes / sizeofType elemType)).toNat) ∧
  (∀ str, ∃ (base : ℕ) (t : VmState), internString str s = (.ok (.int base), t) ∧
    FreshBlock s t base (str.length + 1)) ∧
  ∀ items elemType, ok s items → ∃ (base : ℕ) (t : VmState),
    listToHeap items elemType s = (.ok (.int base), t) ∧
    FreshBlock s t base items.length ∧ ReadsBack U t items base

/-- The counter is above every cell. -/
structure HeapBelow (s : VmState) : Prop where
  pos : 0 < s.heapCounter
  below : ∀ addr cell, s.heap.get? addr = some cell → addr < s.heapCounter

theorem NewBlock.get? {s t : VmState} {cells : List HeapCell} (h : NewBlock s t cells) {i : ℕ}
    (hi : i < cells.length) : t.heap.get? (s.heapCounter + i) = some cells[i] := by
  rw [h.heap]
  exact get?_setCells (List.getElem?_eq_getElem hi)

theorem NewBlock.heapBelow {s t : VmState} {cells : List HeapCell} (h : NewBlock s t cells)
    (hs : HeapBelow s) : HeapBelow t where
  pos := h.counter ▸ Nat.add_pos_left hs.pos _
  below addr cell hcell := by
    rw [h.counter]
    by_contra hle
    rw [h.heap, get?_setCells_of_notMem (.inr (Nat.le_of_not_lt hle))] at hcell
    have hlt := hs.below addr cell hcell
    omega

/-- **A block above every cell is fresh.** -/
theorem NewBlock.freshBlock {s t : VmState} {cells : List HeapCell} (h : NewBlock s t cells)
    (hs : HeapBelow s) : FreshBlock s t s.heapCounter cells.length where
  notBefore i _ := by
    by_contra hne
    obtain ⟨cell, hcell⟩ := Option.ne_none_iff_exists'.mp hne
    have hlt := hs.below _ cell hcell
    omega
  after i hi := by
    rw [h.get? hi]
    rfl
  kept addr cell hcell := by
    rw [h.heap, get?_setCells_of_notMem (.inl (hs.below addr cell hcell))]
    exact hcell

theorem HeapBelow.setHeap {s : VmState} (h : HeapBelow s) {addr : ℕ} (haddr : addr < s.heapCounter)
    (cell : HeapCell) : HeapBelow { s with heap := s.heap.upsert addr fun _ => cell } := by
  refine ⟨h.pos, fun addr' cell' hcell => ?_⟩
  by_cases heq : addr' = addr
  · exact heq ▸ haddr
  · exact h.below addr' cell' ((Dict.get?_upsert_of_ne _ _ heq).symm.trans hcell)

theorem HeapBelow.cell_lt {s : VmState} (h : HeapBelow s) {key : Option ℤ} {cell : HeapCell}
    (hcell : key.bind s.cell? = some cell) : (key.getD 0).toNat < s.heapCounter := by
  obtain ⟨addr, rfl, hfound⟩ := Option.bind_eq_some_iff.mp hcell
  rw [VmState.cell?] at hfound
  split at hfound
  · exact h.below _ _ hfound
  · cases hfound

theorem heapCounter_writeSlot (frame : ℕ) (name : Text) (value : Value) (s : VmState) :
    (writeSlot frame name value s).2.heapCounter = s.heapCounter := by
  cases hslot : slotIn s.frames frame name with
  | none => rw [writeSlot_of_none hslot]
  | some slot => rw [writeSlot_of_some hslot]

theorem heapBelow_writeSlot (frame : ℕ) (name : Text) (value : Value) {s : VmState}
    (h : HeapBelow s) : HeapBelow (writeSlot frame name value s).2 := by
  cases hslot : slotIn s.frames frame name with
  | none =>
    rw [writeSlot_of_none hslot]
    exact h
  | some slot =>
    rw [writeSlot_of_some hslot]
    exact ⟨h.pos, h.below⟩

theorem heapBelow_heapWrite (addr value : Value) {s : VmState} (h : HeapBelow s) :
    HeapBelow (heapWrite addr value s).2 := by
  -- a write leaves the counter where it is, and sets no cell that was not there
  have hkeeps : Keeps (fun t => HeapBelow t ∧ t.heapCounter = s.heapCounter)
      (heapWrite addr value) (heapWrite addr value) := by
    refine Keeps.get_bind fun t ht => ?_
    split
    · exact fun _ hu => hu
    · split
      case h_2 hcell =>
        have hlt := ht.1.cell_lt hcell
        rw [ht.2] at hlt
        exact fun u hu => ⟨hu.1.setHeap (hu.2.symm ▸ hlt) _, hu.2⟩
      case h_3 => exact fun u hu => ⟨heapBelow_writeSlot _ _ _ hu.1,
        (heapCounter_writeSlot _ _ _ u).trans hu.2⟩
      all_goals exact fun _ hu => hu
  exact (hkeeps s ⟨h, rfl⟩).1

theorem HeapBelow.step {s t : VmState} (h : HeapBelow s) (hstep : HeapStep Flat s t) :
    HeapBelow t := by
  cases hstep with
  | alloc nBytes elemType =>
    obtain ⟨t, heq, hblock⟩ := allocHeap_apply nBytes elemType s
    rw [heq]
    exact hblock.heapBelow h
  | intern str =>
    obtain ⟨t, heq, hblock⟩ := internString_apply str s
    rw [heq]
    exact hblock.heapBelow h
  | promote elemType hok =>
    obtain ⟨t, heq, hblock⟩ := listToHeap_apply elemType hok
    rw [heq]
    exact hblock.heapBelow h
  | write addr value => exact heapBelow_heapWrite addr value h
  | other hheap hcounter =>
    exact ⟨hcounter ▸ h.pos, fun addr cell hcell => hcounter ▸ h.below addr cell (hheap ▸ hcell)⟩

theorem heapBelow_of_heapRun {s : VmState} (h : HeapRun Flat s) : HeapBelow s := by
  induction h with
  | fresh lists => exact ⟨Nat.succ_pos _, fun _ _ hcell => nomatch hcell⟩
  | step _ hstep ih => exact ih.step hstep

theorem heapRead_cell (U : CharTable) {t : VmState} {addr : ℕ} {cell : HeapCell}
    (hpos : 0 < addr) (hcell : t.heap.get? addr = some cell) :
    heapRead U (.int addr) t = (.ok cell.value, t) := by
  have hfound : t.cell? addr = some cell := by
    rw [VmState.cell?, if_pos (Int.natCast_nonneg addr), Int.toNat_natCast]
    exact hcell
  rw [heapRead_int, if_neg (by omega), hfound]
  rfl

/-- To write at an address that is an integer. -/
theorem heapWrite_int (addr : ℤ) (v : Value) (s : VmState) :
    heapWrite (.int addr) v s = (if addr = 0 then
        raise .runtimeError (lit "Null pointer dereference")
      else match s.cell? addr, s.place? addr with
        | some cell, _ => setHeap addr.toNat { cell with value := v }
        | none, some (frame, name) => writeSlot frame name v
        | none, none =>
          raise .runtimeError (lit "Invalid write at address 0x" ++ intHexText addr) : Vm Unit) s := by
  have hkey : (addrKey (.int addr)).bind s.cell? = s.cell? addr ∧
      (addrKey (.int addr)).bind s.place? = s.place? addr := ⟨rfl, rfl⟩
  have hzero : addrKey (.int addr) = some 0 ↔ addr = 0 := by simp [addrKey]
  rw [heapWrite, bind_of_ok (get_apply s), hkey.1, hkey.2]
  by_cases h : addr = 0
  · rw [if_pos h, if_pos (hzero.mpr h)]
  · rw [if_neg h, if_neg (hzero.not.mpr h)]
    rcases s.cell? addr with _ | cell
    · rcases s.place? addr with _ | ⟨frame, name⟩ <;> rfl
    · rfl

theorem heapWrite_cell {t : VmState} {addr : ℕ} {cell : HeapCell} (hpos : 0 < addr)
    (hcell : t.heap.get? addr = some cell) (v : Value) : heapWrite (.int addr) v t
      = (.ok (), { t with heap := t.heap.upsert addr fun _ => { cell with value := v } }) := by
  have hfound : t.cell? addr = some cell := by
    rw [VmState.cell?, if_pos (Int.natCast_nonneg addr), Int.toNat_natCast]
    exact hcell
  rw [heapWrite_int, if_neg (by omega), hfound]
  rfl

theorem NewBlock.readsBack (U : CharTable) {s t : VmState} {elemType : Text} {items : List Value}
    (hflat : Flat s items) (hs : HeapBelow s)
    (h : NewBlock s t (items.map (itemCell s.heapCounter elemType))) :
    ReadsBack U t items s.heapCounter := by
  have hread : ∀ (i : ℕ) v, items[i]? = some v →
      heapRead U (.int (s.heapCounter + i : ℕ)) t
        = (.ok (itemCell s.heapCounter elemType v).value, t) := by
    intro i v hv
    refine heapRead_cell U (Nat.add_pos_left hs.pos i) ?_
    rw [h.heap]
    exact get?_setCells (by rw [List.getElem?_map, hv]; rfl)
  refine .intro (fun _ => s.heapCounter) (fun i v hv hplain => ?_) (fun i ref hv => hread i _ hv)
    fun i ref hv => ?_
  · rw [hread i v hv]
    cases v with
    | list ref => exact absurd rfl (hplain ref)
    | none | int | float | str => rfl
  · rw [h.lists, List.getD_eq_getElem?_getD, hflat ref (List.mem_of_getElem? hv)]
    exact .intro (fun _ => 0) (fun _ _ hv => nomatch hv) (fun _ _ hv => nomatch hv)
      fun _ _ hv => nomatch hv

/-- **Allocations are fresh** in runs in which the rows of all lists that are copied are empty. -/
theorem allocatesFresh_of_flat (U : CharTable) {s : VmState} (h : HeapRun Flat s) :
    AllocatesFresh U Flat s := by
  have hs := heapBelow_of_heapRun h
  refine ⟨fun nBytes elemType => ?_, fun str => ?_, fun items elemType hflat => ?_⟩
  · obtain ⟨t, heq, hblock⟩ := allocHeap_apply nBytes elemType s
    refine ⟨_, t, heq, ?_⟩
    simpa [blankCells] using hblock.freshBlock hs
  · obtain ⟨t, heq, hblock⟩ := internString_apply str s
    refine ⟨_, t, heq, ?_⟩
    simpa [charCells] using hblock.freshBlock hs
  · obtain ⟨t, heq, hblock⟩ := listToHeap_apply elemType hflat
    refine ⟨_, t, heq, ?_, hblock.readsBack U hflat hs⟩
    simpa using hblock.freshBlock hs

/-- A string and a list with an empty row, after an allocation of two cells. -/
theorem allocatesFresh_of_flat_sample : ∃ s : VmState, s.heapCounter = heapBase + 2 ∧
    AllocatesFresh .ascii Flat s ∧ Flat s [.int 7, .list 0] := by
  let s : VmState := (allocHeap 8 (lit "int") { lists := [[]] }).2
  have hrun : HeapRun Flat s := .step (.fresh [[]]) (.alloc _ 8 (lit "int"))
  refine ⟨s, by decide +kernel, allocatesFresh_of_flat .ascii hrun, fun ref href => ?_⟩
  have hzero : ref = 0 := by simpa using href
  subst hzero
  rfl

/-! ### Rows -/

/-- A list of two rows. -/
def gridRows : List Value := [.list 0, .list 1]

/-- The state before that list is copied. -/
def beforeGrid : VmState := { lists := [[.int 1, .int 2], [.int 3, .int 4]] }

/-- The state after it was copied. -/
def afterGrid : VmState := (listToHeap gridRows (lit "int") beforeGrid).2

/-- **A list of rows is not copied to fresh cells.** It cannot be read back, because its first row
is where the list itself is; and the next allocation gets a cell that the second row is in. -/
theorem not_allocatesFresh :
    HeapRun (fun _ items => items = gridRows) beforeGrid ∧
    ¬ AllocatesFresh .ascii (fun _ items => items = gridRows) beforeGrid ∧
    HeapRun (fun _ items => items = gridRows) afterGrid ∧
    ∀ base t, allocHeap 4 (lit "int") afterGrid = (.ok (.int base), t) →
      (afterGrid.heap.get? base.toNat).map HeapCell.value = some (.int 3) ∧
      (t.heap.get? base.toNat).map HeapCell.value = some (.int 0) := by
  have hbefore : HeapRun (fun _ items => items = gridRows) beforeGrid := .fresh _
  refine ⟨hbefore, fun hfresh => ?_, .step hbefore (.promote _ _ rfl), fun base t heq => ?_⟩
  · obtain ⟨base, t, heq, -, hback⟩ := hfresh.2.2 gridRows (lit "int") rfl
    have hbase : (listToHeap gridRows (lit "int") beforeGrid).1 = .ok (.int heapBase) := by
      decide +kernel
    have ht : t = afterGrid := by rw [afterGrid, heq]
    rw [heq] at hbase
    obtain rfl : base = heapBase := by simpa using hbase
    subst ht
    obtain ⟨rowAddr, -, haddr, hrow⟩ := hback
    have hread : (heapRead .ascii (.int heapBase) afterGrid).1 = .ok (.int heapBase) := by
      decide +kernel
    have hlists : afterGrid.lists = beforeGrid.lists := by decide +kernel
    have hrow0 := hrow 0 0 rfl
    have haddr0 : (heapRead .ascii (.int heapBase) afterGrid).1 = .ok (.int (rowAddr 0)) :=
      congrArg Prod.fst (haddr 0 0 rfl)
    have hplace : rowAddr 0 = heapBase := by
      rw [hread] at haddr0
      simpa using haddr0.symm
    rw [hplace, hlists] at hrow0
    obtain ⟨-, hplain, -, -⟩ := hrow0
    have hone : (heapRead .ascii (.int heapBase) afterGrid).1 = .ok (.int 1) :=
      congrArg Prod.fst (hplain 0 (.int 1) rfl nofun)
    rw [hread] at hone
    exact absurd hone (by decide)
  · have hbase : (allocHeap 4 (lit "int") afterGrid).1 = .ok (.int (heapBase + 2)) := by
      decide +kernel
    have ht : t = (allocHeap 4 (lit "int") afterGrid).2 := by rw [heq]
    rw [heq] at hbase
    obtain rfl : base = heapBase + 2 := by simpa using hbase
    subst ht
    exact ⟨by decide +kernel, by decide +kernel⟩

end Csc512
