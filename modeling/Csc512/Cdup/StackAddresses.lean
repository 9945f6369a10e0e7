import Csc512.Cdup.InterpCongruence

/-!
# Stack addresses

Every slot has an address, and a map leads from the address back to the slot. That holds in every
state that a run passes: a slot that is declared again gets a new address, and its old address still
leads to it; nothing else changes addresses. Stack and heap stay apart as long as the addresses of
the stack do not grow into the heap.

## Main results

* `keeps_stackOk` — every part of a run keeps the addresses in order
* `stack_addresses` — what this means for reading and writing through `&x`
-/

namespace Csc512

open Exec

/-- The slot with a name in a frame. -/
def slotIn (frames : List Frame) (frame : ℕ) (name : Text) : Option SlotDesc :=
  frames[frame]?.bind fun d => d.get? name

/-- The first address of the heap. -/
def heapBase : ℕ := 0x80000000

/-- The addresses are in order: the map leads from the address of a slot to the slot, and stack and
heap have addresses of their own. -/
structure StackOk (s : VmState) : Prop where
  owner : ∀ frame name slot, slotIn s.frames frame name = some slot →
    s.addrMap.get? slot.addr = some (frame, name)
  inStack : ∀ addr place, s.addrMap.get? addr = some place →
    0x1000 ≤ addr ∧ addr < s.stackCounter
  counter : 0x1000 ≤ s.stackCounter
  inHeap : ∀ addr cell, s.heap.get? addr = some cell → heapBase ≤ addr
  heapCounter : heapBase ≤ s.heapCounter

/-! ### Frames -/

theorem slotIn_modify_self {frames : List Frame} {frame : ℕ} (h : frame < frames.length)
    (name : Text) (slot : SlotDesc) :
    slotIn (frames.modify frame fun d => d.upsert name fun _ => slot) frame name = some slot := by
  simp [slotIn, List.getElem?_eq_getElem h]

theorem slotIn_modify_of_ne (frames : List Frame) {frame frame' : ℕ} {name name' : Text}
    (h : (frame', name') ≠ (frame, name)) (slot : SlotDesc) :
    slotIn (frames.modify frame fun d => d.upsert name fun _ => slot) frame' name'
      = slotIn frames frame' name' := by
  unfold slotIn
  rw [List.getElem?_modify]
  by_cases hf : frame = frame'
  · subst hf
    have hname : name' ≠ name := fun hn => h (by rw [hn])
    cases frames[frame]? with
    | none => rfl
    | some d => simp [Dict.get?_upsert_of_ne _ _ hname]
  · cases frames[frame']? with
    | none => rfl
    | some d => simp [hf]

/-- A slot of changed frames is the one that was set, or was there before. -/
theorem slotIn_modify {frames : List Frame} {frame frame' : ℕ} {name name' : Text}
    {slot slot' : SlotDesc}
    (h : slotIn (frames.modify frame fun d => d.upsert name fun _ => slot) frame' name'
      = some slot') :
    (frame', name') = (frame, name) ∧ slot' = slot ∨ slotIn frames frame' name' = some slot' := by
  by_cases heq : (frame', name') = (frame, name)
  · refine .inl ⟨heq, ?_⟩
    obtain ⟨rfl, rfl⟩ := Prod.mk.inj heq
    by_cases hlt : frame' < frames.length
    · rw [slotIn_modify_self hlt] at h
      exact (Option.some.inj h).symm
    · rw [slotIn, List.getElem?_eq_none (by rw [List.length_modify]; omega)] at h
      cases h
  · rw [slotIn_modify_of_ne frames heq] at h
    exact .inr h

theorem slotIn_append_empty {frames : List Frame} {frame : ℕ} {name : Text} {slot : SlotDesc}
    (h : slotIn (frames ++ [Dict.empty]) frame name = some slot) :
    slotIn frames frame name = some slot := by
  unfold slotIn at h ⊢
  rcases Nat.lt_trichotomy frame frames.length with hlt | rfl | hgt
  · rwa [List.getElem?_append_left hlt] at h
  · rw [List.getElem?_concat_length] at h
    cases h
  · rw [List.getElem?_eq_none (by simp; omega)] at h
    cases h

/-! ### Operations -/

theorem StackOk.fresh (lists : List (List Value)) : StackOk { lists } where
  owner _ _ _ h := nomatch h
  inStack _ _ h := nomatch h
  counter := le_rfl
  inHeap _ _ h := nomatch h
  heapCounter := le_rfl

/-- Changes of other parts of the state do not matter. -/
theorem StackOk.of_eq {s t : VmState} (h : StackOk s) (hframes : t.frames = s.frames)
    (haddr : t.addrMap = s.addrMap) (hcounter : t.stackCounter = s.stackCounter)
    (hheap : t.heap = s.heap) (hheapCounter : t.heapCounter = s.heapCounter) : StackOk t := by
  obtain ⟨owner, inStack, counter, inHeap, heapCounter⟩ := h
  rw [← hframes, ← haddr] at owner
  rw [← haddr, ← hcounter] at inStack
  rw [← hcounter] at counter
  rw [← hheap] at inHeap
  rw [← hheapCounter] at heapCounter
  exact ⟨owner, inStack, counter, inHeap, heapCounter⟩

theorem StackOk.newFrame {s : VmState} (h : StackOk s) :
    StackOk { s with frames := s.frames ++ [Dict.empty] } :=
  { h with owner := fun frame name slot hslot => h.owner frame name slot (slotIn_append_empty hslot) }

/-- A new slot gets an address that no slot had. -/
theorem StackOk.alloc {s : VmState} (h : StackOk s) (frame : ℕ) (name : Text) (value : Value)
    (type : Text) : StackOk { s with
      stackCounter := s.stackCounter + 1
      frames := s.frames.modify frame fun d =>
        d.upsert name fun _ => ⟨s.stackCounter, value, type⟩
      addrMap := s.addrMap.upsert s.stackCounter fun _ => (frame, name) } where
  owner frame' name' slot' hslot := by
    rcases slotIn_modify hslot with ⟨heq, rfl⟩ | hold
    · rw [heq]
      exact Dict.get?_upsert_self _ _ _
    · have howner := h.owner frame' name' slot' hold
      have hlt := (h.inStack _ _ howner).2
      exact (Dict.get?_upsert_of_ne _ _ (Nat.ne_of_lt hlt)).trans howner
  inStack addr place haddr := by
    have hcounter := h.counter
    by_cases heq : addr = s.stackCounter
    · subst heq
      exact ⟨hcounter, Nat.lt_succ_self _⟩
    · obtain ⟨hle, hlt⟩ := h.inStack addr place
        ((Dict.get?_upsert_of_ne _ _ heq).symm.trans haddr)
      exact ⟨hle, Nat.lt_succ_of_lt hlt⟩
  counter := Nat.le_succ_of_le h.counter
  inHeap := h.inHeap
  heapCounter := h.heapCounter

/-- A slot that is written to keeps its address. -/
theorem StackOk.write {s : VmState} (h : StackOk s) {frame : ℕ} {name : Text} {slot : SlotDesc}
    (hslot : slotIn s.frames frame name = some slot) (value : Value) :
    StackOk { s with
      frames := s.frames.modify frame fun d => d.upsert name fun _ => { slot with value } } := by
  refine { h with owner := fun frame' name' slot' hslot' => ?_ }
  rcases slotIn_modify hslot' with ⟨heq, rfl⟩ | hold
  · rw [heq]
    exact h.owner frame name slot hslot
  · exact h.owner frame' name' slot' hold

theorem StackOk.setHeap {s : VmState} (h : StackOk s) {addr : ℕ} (haddr : heapBase ≤ addr)
    (cell : HeapCell) : StackOk { s with heap := s.heap.upsert addr fun _ => cell } := by
  refine { h with inHeap := fun addr' cell' hcell => ?_ }
  by_cases heq : addr' = addr
  · exact heq ▸ haddr
  · exact h.inHeap addr' cell' ((Dict.get?_upsert_of_ne _ _ heq).symm.trans hcell)

theorem writeSlot_of_some {s : VmState} {frame : ℕ} {name : Text} {slot : SlotDesc}
    (h : slotIn s.frames frame name = some slot) (value : Value) :
    writeSlot frame name value s = (.ok (), { s with
      frames := s.frames.modify frame fun d => d.upsert name fun _ => { slot with value } }) := by
  have hslot : slot? frame name s = (.ok (some slot), s) := by
    show (_, _) = _
    rw [← h]
    rfl
  exact bind_of_ok hslot _

theorem writeSlot_of_none {s : VmState} {frame : ℕ} {name : Text}
    (h : slotIn s.frames frame name = none) (value : Value) :
    writeSlot frame name value s = (.error (.raised ⟨.keyError, []⟩), s) := by
  have hslot : slot? frame name s = (.ok none, s) := by
    show (_, _) = _
    rw [← h]
    rfl
  exact bind_of_ok hslot _

/-! ### Runs -/

/-- The operation keeps the addresses in order. -/
abbrev KeepsStack {α : Type} (x : Vm α) : Prop := Keeps StackOk x x

theorem keepsStack_writeSlot (frame : ℕ) (name : Text) (value : Value) :
    KeepsStack (writeSlot frame name value) := by
  intro s hs
  cases hslot : slotIn s.frames frame name with
  | none =>
    rw [writeSlot_of_none hslot]
    exact hs
  | some slot =>
    rw [writeSlot_of_some hslot]
    exact hs.write hslot value

theorem keepsStack_setHeap {addr : ℕ} (haddr : heapBase ≤ addr) (cell : HeapCell) :
    KeepsStack (setHeap addr cell) :=
  fun _ hs => hs.setHeap haddr cell

theorem keepsStack_setHeapCounter {addr : ℕ} (haddr : heapBase ≤ addr) :
    KeepsStack (setHeapCounter addr) :=
  fun _ hs => { hs with heapCounter := haddr }

theorem keepsStack_listToHeapFrom (elemType : Text) (fuel : ℕ) (items : List Value) :
    KeepsStack (listToHeapFrom elemType fuel items) := by
  have hR := congruence_keeps Stop.outOfFuel StackOk
  induction fuel generalizing items with
  | zero => exact hR.quiet (silent_raise _ _)
  | succ fuel ih =>
    refine Keeps.get_bind fun s hs => hR.bind (hR.forM fun p _ => ?_) fun _ =>
      hR.bind (keepsStack_setHeapCounter (Nat.le_add_right_of_le hs.heapCounter)) fun _ => hR.pure _
    have hplace : heapBase ≤ s.heapCounter + p.2 := Nat.le_add_right_of_le hs.heapCounter
    split
    · exact hR.quiet_bind (silent_listItems _) fun items => hR.bind (ih items) fun base =>
        keepsStack_setHeap hplace _
    · exact keepsStack_setHeap hplace _

theorem keepsStack_allocHeap (nBytes : ℤ) (elemType : Text) :
    KeepsStack (allocHeap nBytes elemType) := by
  have hR := congruence_keeps Stop.outOfFuel StackOk
  exact Keeps.get_bind fun s hs =>
    hR.bind (hR.forM fun i _ => keepsStack_setHeap (Nat.le_add_right_of_le hs.heapCounter) _) fun _ =>
      hR.bind (keepsStack_setHeapCounter (Nat.le_add_right_of_le hs.heapCounter)) fun _ => hR.pure _

theorem keepsStack_internString (str : Text) : KeepsStack (internString str) := by
  have hR := congruence_keeps Stop.outOfFuel StackOk
  refine Keeps.get_bind fun s hs =>
    hR.bind (hR.forM fun p _ => keepsStack_setHeap (Nat.le_add_right_of_le hs.heapCounter) _) fun _ => ?_
  refine hR.bind (keepsStack_setHeap (Nat.le_add_right_of_le hs.heapCounter) _) fun _ => ?_
  exact hR.bind
    (keepsStack_setHeapCounter (Nat.le_add_right_of_le (Nat.le_add_right_of_le hs.heapCounter)))
    fun _ => hR.pure _

/-- A heap cell that there is has an address in the heap. -/
theorem StackOk.heapBase_le {s : VmState} (h : StackOk s) {key : Option ℤ} {cell : HeapCell}
    (hcell : key.bind s.cell? = some cell) : heapBase ≤ (key.getD 0).toNat := by
  obtain ⟨addr, rfl, hfound⟩ := Option.bind_eq_some_iff.mp hcell
  rw [VmState.cell?] at hfound
  split at hfound
  · exact h.inHeap _ _ hfound
  · cases hfound

theorem keepsStack_heapWrite (addr value : Value) : KeepsStack (heapWrite addr value) := by
  refine Keeps.get_bind fun s hs => ?_
  split
  · exact fun _ ht => ht
  · split
    case h_2 hcell => exact keepsStack_setHeap (hs.heapBase_le hcell) _
    case h_3 => exact keepsStack_writeSlot _ _ _
    all_goals exact fun _ ht => ht

theorem keepsStack_traced {α : Type} {x y : Vm α} (h : Keeps StackOk x y) :
    Keeps StackOk (traced x) (traced y) := by
  intro s hs
  rw [traced_apply]
  exact (h { s with derefs := [] } (hs.of_eq rfl rfl rfl rfl rfl)).of_eq rfl rfl rfl rfl rfl

/-- **The addresses stay in order** in every part of a run. -/
theorem vmCongruence_keepsStack : VmCongruence fun x y => Keeps StackOk x y where
  toCongruence := congruence_keeps Stop.outOfFuel StackOk
  traced := keepsStack_traced
  newFrame _ hs := hs.newFrame
  allocStackSlot frame name value type _ hs := hs.alloc frame name value type
  writeSlot := keepsStack_writeSlot
  newList _ _ hs := hs.of_eq rfl rfl rfl rfl rfl
  setItem _ _ _ _ hs := hs.of_eq rfl rfl rfl rfl rfl
  allocHeap := keepsStack_allocHeap
  internString := keepsStack_internString
  listToHeap items elemType :=
    Keeps.get_bind fun _ _ => keepsStack_listToHeapFrom elemType _ items
  heapWrite := keepsStack_heapWrite
  noteDeref _ _ _ hs := hs.of_eq rfl rfl rfl rfl rfl
  print _ _ hs := hs.of_eq rfl rfl rfl rfl rfl
  copyChars := related_copyChars (congruence_keeps Stop.outOfFuel StackOk) (fun _ hs => hs)
    keepsStack_heapWrite
  compareChars := related_compareChars (congruence_keeps Stop.outOfFuel StackOk) fun _ hs => hs

theorem keepsStack_record {P : Program} (stmt : Statement) (seg : Segment) (iteration : Option ℕ)
    (readSnap writeSnap : Dict Text Snapshot) (taken : Option Bool)
    (reads writes : List (Value × Value)) :
    KeepsStack (record P stmt seg iteration readSnap writeSnap taken reads writes) :=
  fun _ hs => hs.of_eq rfl rfl rfl rfl rfl

/-- What the interpreter does to a state, operation by operation. -/
inductive Change : VmState → VmState → Prop
  | newFrame (s : VmState) : Change s (newFrame s).2
  | allocStackSlot (s : VmState) (frame : ℕ) (name : Text) (value : Value) (type : Text) :
    Change s (allocStackSlot frame name value type s).2
  | writeSlot (s : VmState) (frame : ℕ) (name : Text) (value : Value) :
    Change s (writeSlot frame name value s).2
  | lists (s : VmState) (lists : List (List Value)) : Change s { s with lists }
  | allocHeap (s : VmState) (nBytes : ℤ) (elemType : Text) :
    Change s (allocHeap nBytes elemType s).2
  | internString (s : VmState) (str : Text) : Change s (internString str s).2
  | listToHeap (s : VmState) (items : List Value) (elemType : Text) :
    Change s (listToHeap items elemType s).2
  | heapWrite (s : VmState) (addr value : Value) : Change s (heapWrite addr value s).2
  | output (s : VmState) (output : List Text) : Change s { s with output }
  | trace (s : VmState) (trace : List TraceEvent) (unrollCapped : Bool)
    (derefs : List (Value × Value)) : Change s { s with trace, unrollCapped, derefs }

/-- The states of runs: what calls, segments, expressions and single operations lead to from fresh
states, in any order. -/
inductive Reachable (U : CharTable) (M : MathLib) (P : Program) : VmState → Prop
  | fresh (lists : List (List Value)) : Reachable U M P { lists }
  | callFn {s : VmState} (h : Reachable U M P s) (fuel : ℕ) (name : Text)
    (args : List (Text × Value)) : Reachable U M P (callFn U M P fuel name args s).2
  | run {s : VmState} (h : Reachable U M P s) (fuel : ℕ) (seg : Segment) (frame : ℕ)
    (it : Option ℕ) : Reachable U M P ((interp U M P fuel).run seg frame it s).2
  | eval {s : VmState} (h : Reachable U M P s) (fuel : ℕ) (frame : ℕ) (scope : Text) (e : Expr) :
    Reachable U M P ((interp U M P fuel).eval frame scope e s).2
  | change {s t : VmState} (h : Reachable U M P s) (hchange : Change s t) : Reachable U M P t

theorem StackOk.change {s t : VmState} (h : StackOk s) (hchange : Change s t) : StackOk t := by
  cases hchange with
  | newFrame => exact h.newFrame
  | allocStackSlot frame name value type => exact h.alloc frame name value type
  | writeSlot frame name value => exact keepsStack_writeSlot frame name value s h
  | allocHeap nBytes elemType => exact keepsStack_allocHeap nBytes elemType s h
  | internString str => exact keepsStack_internString str s h
  | listToHeap items elemType => exact vmCongruence_keepsStack.listToHeap items elemType s h
  | heapWrite addr value => exact keepsStack_heapWrite addr value s h
  | lists | output | trace => exact h.of_eq rfl rfl rfl rfl rfl

theorem stackOk_of_reachable {U : CharTable} {M : MathLib} {P : Program} {s : VmState}
    (h : Reachable U M P s) : StackOk s := by
  have hcap : ∀ I I', Bounds (fun x y => Keeps StackOk x y) P P (vmHandlers U M P I)
      (vmHandlers U M P I') :=
    fun _ _ => .refl P fun _ hs => hs.of_eq rfl rfl rfl rfl rfl
  have hfuel := Fuels.refl (R := fun x y => Keeps StackOk x y) (fun _ hs => hs)
  have hinterp := fun fuel =>
    related_interp vmCongruence_keepsStack U M (P := P) keepsStack_record hcap (hfuel fuel)
  induction h with
  | fresh lists => exact .fresh lists
  | callFn _ fuel name args ih =>
    exact related_callFn vmCongruence_keepsStack U M keepsStack_record hcap (hfuel fuel) name args
      _ ih
  | run _ fuel seg frame it ih => exact (hinterp fuel).2 seg frame it _ ih
  | eval _ fuel frame scope e ih => exact (hinterp fuel).1 frame scope e _ ih
  | change _ hchange ih => exact ih.change hchange

/-! ### Addresses of slots -/

theorem frame_lt_of_slotIn {s : VmState} {frame : ℕ} {name : Text} {slot : SlotDesc}
    (h : slotIn s.frames frame name = some slot) : frame < s.frames.length := by
  obtain ⟨d, hd, -⟩ := Option.bind_eq_some_iff.mp h
  exact (List.getElem?_eq_some_iff.mp hd).1

/-- Where a slot is, seen from its address. -/
theorem StackOk.at_addr {s : VmState} (h : StackOk s) (hcount : s.stackCounter ≤ heapBase)
    {addr : ℕ} {place : ℕ × Text} (haddr : s.addrMap.get? addr = some place) :
    (addr : ℤ) ≠ 0 ∧ s.cell? addr = none ∧ s.place? addr = some place := by
  obtain ⟨hle, hlt⟩ := h.inStack addr place haddr
  refine ⟨by omega, ?_, ?_⟩
  · rw [VmState.cell?, if_pos (Int.natCast_nonneg addr), Int.toNat_natCast]
    by_contra hne
    obtain ⟨cell, hcell⟩ := Option.ne_none_iff_exists'.mp hne
    have hheap := h.inHeap addr cell hcell
    omega
  · rw [VmState.place?, if_pos (Int.natCast_nonneg addr), Int.toNat_natCast]
    exact haddr

theorem heapRead_slot {s : VmState} (h : StackOk s) (hcount : s.stackCounter ≤ heapBase)
    (U : CharTable) {frame : ℕ} {name : Text} {slot : SlotDesc}
    (hslot : slotIn s.frames frame name = some slot) :
    heapRead U (.int slot.addr) s = (.ok slot.value, s) := by
  obtain ⟨hne, hcell, hplace⟩ := h.at_addr hcount (h.owner _ _ _ hslot)
  have hread : heapRead U (.int slot.addr) s = fget frame name s := by
    rw [heapRead_int, if_neg hne, hcell, hplace]
  rw [hread]
  have hfound : slot? frame name s = (.ok (some slot), s) := by
    show (_, _) = _
    rw [← hslot]
    rfl
  exact bind_of_ok hfound _

theorem heapWrite_slot {s : VmState} (h : StackOk s) (hcount : s.stackCounter ≤ heapBase)
    {frame : ℕ} {name : Text} {slot : SlotDesc} (hslot : slotIn s.frames frame name = some slot)
    (value : Value) : heapWrite (.int slot.addr) value s = writeSlot frame name value s := by
  obtain ⟨hne, hcell, hplace⟩ := h.at_addr hcount (h.owner _ _ _ hslot)
  have hkey : addrKey (.int slot.addr) ≠ some 0 := fun heq => hne (Option.some.inj heq)
  have hnone : (addrKey (.int slot.addr)).bind s.cell? = none := hcell
  have hsome : (addrKey (.int slot.addr)).bind s.place? = some (frame, name) := hplace
  rw [heapWrite, bind_of_ok (get_apply s), if_neg hkey, hnone, hsome]

/-- **Stack addresses.** As long as the stack has not grown into the heap, the address map leads
from every slot's address to the slot, different slots have different addresses, no address of the
stack is null or in the heap, and `&x` can be read and written like `x` itself. -/
theorem stack_addresses {U : CharTable} {M : MathLib} {P : Program} {s : VmState}
    (h : Reachable U M P s) (hcount : s.stackCounter - 0x1000 < 2 ^ 31 - 0x1000) :
    (∀ frame name slot, slotIn s.frames frame name = some slot →
      s.addrMap.get? slot.addr = some (frame, name)) ∧
    (∀ frame name slot frame' name' slot', slotIn s.frames frame name = some slot →
      slotIn s.frames frame' name' = some slot' → (frame, name) ≠ (frame', name') →
      slot.addr ≠ slot'.addr) ∧
    (∀ addr place, s.addrMap.get? addr = some place → addr ≠ 0 ∧ s.heap.get? addr = none) ∧
    ∀ frame name slot, slotIn s.frames frame name = some slot →
      (∀ fuel scope e, stripScope (operandName e) scope = name →
        (interp U M P (fuel + 1)).eval frame scope (.un .addrOf e) s
          = (.ok (.int slot.addr), s)) ∧
      heapRead U (.int slot.addr) s = (.ok slot.value, s) ∧
      ∀ value, ∃ frames, heapWrite (.int slot.addr) value s = (.ok (), { s with frames }) ∧
        slotIn frames frame name = some { slot with value } ∧
        ∀ frame' name', (frame', name') ≠ (frame, name) →
          slotIn frames frame' name' = slotIn s.frames frame' name' := by
  have hok := stackOk_of_reachable h
  have hcounter := hok.counter
  have hbase : s.stackCounter ≤ heapBase := by
    unfold heapBase
    omega
  refine ⟨hok.owner, ?_, ?_, ?_⟩
  · intro frame name slot frame' name' slot' hslot hslot' hne heq
    have howner := hok.owner frame name slot hslot
    rw [heq, hok.owner frame' name' slot' hslot'] at howner
    exact hne (Option.some.inj howner).symm
  · intro addr place haddr
    obtain ⟨hne, hcell, -⟩ := hok.at_addr hbase haddr
    rw [VmState.cell?, if_pos (Int.natCast_nonneg addr), Int.toNat_natCast] at hcell
    exact ⟨fun heq => hne (congrArg Nat.cast heq), hcell⟩
  · intro frame name slot hslot
    refine ⟨?_, heapRead_slot hok hbase U hslot, fun value => ?_⟩
    · rintro fuel scope e rfl
      have hfound : slot? frame (stripScope (operandName e) scope) s = (.ok (some slot), s) := by
        show (_, _) = _
        rw [← hslot]
        rfl
      exact bind_of_ok hfound _
    · rw [heapWrite_slot hok hbase hslot, writeSlot_of_some hslot]
      exact ⟨_, rfl, slotIn_modify_self (frame_lt_of_slotIn hslot) _ _,
        fun frame' name' hne => slotIn_modify_of_ne s.frames hne _⟩

/-- A function that takes its parameter's address. -/
def takeAddress : Program where
  segments := [{
    id := 0, parent := 0, type := .function, name := lit "f", scopePath := lit "root.f"
    head := some (lit "void f(int n) {}")
    stmts := [{ raw := lit "int *p = &n;", kind := .decl, lName := some (lit "p"),
                rNames := [lit "n"], expr := some (.un .addrOf (.name (lit "n"))),
                type := some (lit "int*") }] }]
  maxUnroll := 10

/-- The state after a call of that function. -/
def afterTakeAddress (M : MathLib) : VmState :=
  (callFn .ascii M takeAddress 3 (lit "f") [(lit "n", .int 7)] { lists := [] }).2

theorem stack_addresses_takeAddress : ∃ s : VmState,
    (slotIn s.frames 0 (lit "p")).map SlotDesc.value = some (.int 0x1000) ∧
    s.addrMap.get? 0x1000 = some (0, lit "n") ∧
    heapRead .ascii (.int 0x1000) s = (.ok (.int 7), s) := by
  let s := afterTakeAddress ⟨fun _ _ => .error .valueError⟩
  have hreach : Reachable .ascii ⟨fun _ _ => .error .valueError⟩ takeAddress s :=
    .callFn (.fresh []) 3 (lit "f") [(lit "n", .int 7)]
  have hslot : slotIn s.frames 0 (lit "n") = some ⟨0x1000, .int 7, lit "int"⟩ := by decide +kernel
  obtain ⟨howner, -, -, hread⟩ := stack_addresses hreach (by decide +kernel)
  exact ⟨s, by decide +kernel, howner 0 _ _ hslot, (hread 0 _ _ hslot).2.1⟩

end Csc512
