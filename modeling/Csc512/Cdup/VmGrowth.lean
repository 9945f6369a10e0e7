import Csc512.Cdup.StackAddresses

/-!
# What a run never takes back

The interpreter has no operation that gives memory back: frames stay when a call returns, an address
is used for one slot only, and freed cells are not removed. So whatever part of a run is executed,
and however it ends, everything that was there before is still there: slots, addresses, heap cells,
lists with their lengths, and what was printed and traced.

## Main results

* `vmCongruence_extends` — every operation only adds
* `extends_of_reachable` — so do calls, segments and expressions, from every state of a run
-/

namespace Csc512

open Exec

/-- The second state has all that the first one has. Values may differ, and a name may have got a
new slot, but an address that led to a name still does. -/
structure VmState.Extends (s t : VmState) : Prop where
  frames : s.frames.length ≤ t.frames.length
  slots : ∀ frame name, (slotIn s.frames frame name).isSome → (slotIn t.frames frame name).isSome
  places : ∀ addr place, s.addrMap.get? addr = some place → t.addrMap.get? addr = some place
  cells : ∀ addr, (s.heap.get? addr).isSome → (t.heap.get? addr).isSome
  lists : ∀ (ref : ℕ) (items : List Value), s.lists[ref]? = some items →
    ∃ items', t.lists[ref]? = some items' ∧ items'.length = items.length
  stackCounter : s.stackCounter ≤ t.stackCounter
  heapCounter : s.heapCounter ≤ t.heapCounter
  output : s.output <+: t.output
  trace : s.trace <+: t.trace
  unrollCapped : s.unrollCapped = true → t.unrollCapped = true

theorem VmState.Extends.refl (s : VmState) : s.Extends s where
  frames := le_rfl
  slots _ _ h := h
  places _ _ h := h
  cells _ h := h
  lists _ items h := ⟨items, h, rfl⟩
  stackCounter := le_rfl
  heapCounter := le_rfl
  output := List.prefix_rfl
  trace := List.prefix_rfl
  unrollCapped h := h

/-! ### Operations -/

section Operations

variable {s t : VmState}

theorem isSome_upsert {κ ν : Type} [DecidableEq κ] {d : Dict κ ν} {k k' : κ} {f : Option ν → ν}
    (h : (d.get? k').isSome) : ((d.upsert k f).get? k').isSome := by
  by_cases hk : k' = k
  · subst hk
    rw [Dict.get?_upsert_self]
    rfl
  · rwa [Dict.get?_upsert_of_ne _ _ hk]

theorem lt_of_isSome_slotIn {frames : List Frame} {frame : ℕ} {name : Text}
    (h : (slotIn frames frame name).isSome) : frame < frames.length := by
  obtain ⟨slot, hslot⟩ := Option.isSome_iff_exists.mp h
  obtain ⟨d, hd, -⟩ := Option.bind_eq_some_iff.mp hslot
  exact (List.getElem?_eq_some_iff.mp hd).1

theorem isSome_slotIn_append {frames : List Frame} {frame : ℕ} {name : Text}
    (h : (slotIn frames frame name).isSome) :
    (slotIn (frames ++ [Dict.empty]) frame name).isSome := by
  have hlt := lt_of_isSome_slotIn h
  unfold slotIn
  rw [List.getElem?_append_left hlt]
  exact h

theorem isSome_slotIn_modify {frames : List Frame} {frame frame' : ℕ} {name name' : Text}
    {slot : SlotDesc} (h : (slotIn frames frame' name').isSome) :
    (slotIn (frames.modify frame fun d => d.upsert name fun _ => slot) frame' name').isSome := by
  by_cases heq : (frame', name') = (frame, name)
  · obtain ⟨rfl, rfl⟩ := Prod.mk.inj heq
    rw [slotIn_modify_self (lt_of_isSome_slotIn h)]
    rfl
  · rwa [slotIn_modify_of_ne frames heq]

theorem VmState.Extends.newFrame (h : s.Extends t) :
    s.Extends { t with frames := t.frames ++ [Dict.empty] } :=
  { h with
    frames := h.frames.trans (by simp)
    slots := fun frame name hslot => isSome_slotIn_append (h.slots frame name hslot) }

/-- The address of a new slot is not one that was there. -/
theorem VmState.Extends.alloc (hok : StackOk s) (h : s.Extends t) (frame : ℕ) (name : Text)
    (value : Value) (type : Text) : s.Extends { t with
      stackCounter := t.stackCounter + 1
      frames := t.frames.modify frame fun d =>
        d.upsert name fun _ => ⟨t.stackCounter, value, type⟩
      addrMap := t.addrMap.upsert t.stackCounter fun _ => (frame, name) } :=
  { h with
    frames := h.frames.trans (by simp)
    slots := fun frame' name' hslot => isSome_slotIn_modify (h.slots frame' name' hslot)
    places := fun addr place hplace => by
      have hlt := (hok.inStack addr place hplace).2
      have hle := h.stackCounter
      exact (Dict.get?_upsert_of_ne _ _ (by omega)).trans (h.places addr place hplace)
    stackCounter := Nat.le_succ_of_le h.stackCounter }

theorem VmState.Extends.write (h : s.Extends t) (frame : ℕ) (name : Text) (slot : SlotDesc) :
    s.Extends { t with frames := t.frames.modify frame fun d => d.upsert name fun _ => slot } :=
  { h with
    frames := h.frames.trans (by simp)
    slots := fun frame' name' hslot => isSome_slotIn_modify (h.slots frame' name' hslot) }

theorem VmState.Extends.newList (h : s.Extends t) (items : List Value) :
    s.Extends { t with lists := t.lists ++ [items] } :=
  { h with
    lists := fun ref items' href => by
      obtain ⟨items'', hget, hlen⟩ := h.lists ref items' href
      refine ⟨items'', ?_, hlen⟩
      rw [List.getElem?_append_left (List.getElem?_eq_some_iff.mp hget).1, hget] }

theorem VmState.Extends.setItem (h : s.Extends t) (ref place : ℕ) (v : Value) :
    s.Extends { t with lists := t.lists.modify ref fun items => items.set place v } :=
  { h with
    lists := fun ref' items' href => by
      obtain ⟨items'', hget, hlen⟩ := h.lists ref' items' href
      rw [List.getElem?_modify, hget]
      by_cases hr : ref = ref'
      · exact ⟨items''.set place v, by simp [hr], by simp [hlen]⟩
      · exact ⟨items'', by simp [hr], hlen⟩ }

/-- A computation that takes nothing back of what `s` has. -/
abbrev KeepsAll (s : VmState) {α : Type} (x : Vm α) : Prop := Keeps s.Extends x x

theorem keepsAll_setHeap (addr : ℕ) (cell : HeapCell) : KeepsAll s (setHeap addr cell) :=
  fun _ h => { h with cells := fun addr' hcell => isSome_upsert (h.cells addr' hcell) }

theorem keepsAll_setHeapCounter {addr : ℕ} (haddr : s.heapCounter ≤ addr) :
    KeepsAll s (setHeapCounter addr) :=
  fun _ h => { h with heapCounter := haddr }

theorem keepsAll_writeSlot (frame : ℕ) (name : Text) (value : Value) :
    KeepsAll s (writeSlot frame name value) := by
  intro t h
  cases hslot : slotIn t.frames frame name with
  | none =>
    rw [writeSlot_of_none hslot]
    exact h
  | some slot =>
    rw [writeSlot_of_some hslot]
    exact h.write frame name _

theorem keepsAll_allocHeap (nBytes : ℤ) (elemType : Text) :
    KeepsAll s (allocHeap nBytes elemType) := by
  have hR := congruence_keeps Stop.outOfFuel s.Extends
  exact Keeps.get_bind fun t h => hR.bind (hR.forM fun i _ => keepsAll_setHeap _ _) fun _ =>
    hR.bind (keepsAll_setHeapCounter (Nat.le_add_right_of_le h.heapCounter)) fun _ => hR.pure _

theorem keepsAll_internString (str : Text) : KeepsAll s (internString str) := by
  have hR := congruence_keeps Stop.outOfFuel s.Extends
  refine Keeps.get_bind fun t h => hR.bind (hR.forM fun p _ => keepsAll_setHeap _ _) fun _ => ?_
  refine hR.bind (keepsAll_setHeap _ _) fun _ => ?_
  exact hR.bind
    (keepsAll_setHeapCounter (Nat.le_add_right_of_le (Nat.le_add_right_of_le h.heapCounter)))
    fun _ => hR.pure _

/-- The lists in a list are copied to where the list itself begins, and the next address is set back
to the end of the list, but not to where it was before. -/
theorem keepsAll_listToHeapFrom (elemType : Text) (fuel : ℕ) (items : List Value) :
    KeepsAll s (listToHeapFrom elemType fuel items) := by
  have hR := congruence_keeps Stop.outOfFuel s.Extends
  induction fuel generalizing items with
  | zero => exact hR.quiet (silent_raise _ _)
  | succ fuel ih =>
    refine Keeps.get_bind fun t h => hR.bind (hR.forM fun p _ => ?_) fun _ =>
      hR.bind (keepsAll_setHeapCounter (Nat.le_add_right_of_le h.heapCounter)) fun _ => hR.pure _
    split
    · exact hR.quiet_bind (silent_listItems _) fun items => hR.bind (ih items) fun base =>
        keepsAll_setHeap _ _
    · exact keepsAll_setHeap _ _

theorem keepsAll_heapWrite (addr value : Value) : KeepsAll s (heapWrite addr value) := by
  refine Keeps.get_bind fun t h => ?_
  split
  · exact fun _ ht => ht
  · split
    case h_2 => exact keepsAll_setHeap _ _
    case h_3 => exact keepsAll_writeSlot _ _ _
    all_goals exact fun _ ht => ht

/-- Nothing but the counters, the memory, the lists and the texts matters. -/
theorem VmState.Extends.noted (h : s.Extends t) (derefs : List (Value × Value)) :
    s.Extends { t with derefs } :=
  { h with }

theorem keepsAll_traced {α : Type} {x y : Vm α} (h : Keeps s.Extends x y) :
    Keeps s.Extends (traced x) (traced y) := by
  intro t ht
  rw [traced_apply]
  exact (h { t with derefs := [] } (ht.noted [])).noted _

/-- **Every operation only adds.** -/
theorem vmCongruence_extends (hok : StackOk s) : VmCongruence fun x y => Keeps s.Extends x y where
  toCongruence := congruence_keeps Stop.outOfFuel s.Extends
  traced := keepsAll_traced
  newFrame _ h := h.newFrame
  allocStackSlot frame name value type _ h := h.alloc hok frame name value type
  writeSlot := keepsAll_writeSlot
  newList items _ h := h.newList items
  setItem ref place v _ h := h.setItem ref place v
  allocHeap := keepsAll_allocHeap
  internString := keepsAll_internString
  listToHeap items elemType :=
    Keeps.get_bind fun _ _ => keepsAll_listToHeapFrom elemType _ items
  heapWrite := keepsAll_heapWrite
  noteDeref _ _ _ h := h.noted _
  print _ _ h := { h with output := h.output.trans (List.prefix_append _ _) }
  copyChars := related_copyChars (congruence_keeps Stop.outOfFuel s.Extends) (fun _ h => h)
    keepsAll_heapWrite
  compareChars := related_compareChars (congruence_keeps Stop.outOfFuel s.Extends) fun _ h => h

theorem keepsAll_record {P : Program} (stmt : Statement) (seg : Segment) (iteration : Option ℕ)
    (readSnap writeSnap : Dict Text Snapshot) (taken : Option Bool)
    (reads writes : List (Value × Value)) :
    KeepsAll s (record P stmt seg iteration readSnap writeSnap taken reads writes) :=
  fun _ h => { h with trace := h.trace.trans (List.prefix_append _ _) }

end Operations

/-! ### Runs -/

/-- **A run takes nothing back.** Whatever is executed in a state of a run, and however it ends, the
state after it has all that was there: slots, addresses, heap cells, lists, output and trace. -/
theorem extends_of_reachable {U : CharTable} {M : MathLib} {P : Program} {s : VmState}
    (h : Reachable U M P s) (fuel : ℕ) :
    (∀ name args, s.Extends (callFn U M P fuel name args s).2) ∧
    (∀ seg frame it, s.Extends ((interp U M P fuel).run seg frame it s).2) ∧
    ∀ frame scope e, s.Extends ((interp U M P fuel).eval frame scope e s).2 := by
  have hR := vmCongruence_extends (stackOk_of_reachable h)
  have hcap : ∀ I I', Bounds (fun x y => Keeps s.Extends x y) P P (vmHandlers U M P I)
      (vmHandlers U M P I') :=
    fun _ _ => .refl P fun _ h => { h with unrollCapped := fun _ => rfl }
  have hfuel := Fuels.refl (R := fun x y => Keeps s.Extends x y) (fun _ h => h) fuel
  obtain ⟨heval, hrun⟩ := related_interp hR U M (P := P) keepsAll_record hcap hfuel
  refine ⟨fun name args => ?_, fun seg frame it => hrun seg frame it s (.refl s),
    fun frame scope e => heval frame scope e s (.refl s)⟩
  exact related_callFn hR U M keepsAll_record hcap hfuel name args s (.refl s)

/-- Another call after that of a function that takes its parameter's address: the address still
leads to the parameter. -/
theorem extends_after_takeAddress :
    (afterTakeAddress ⟨fun _ _ => .error .valueError⟩).Extends
      (callFn .ascii ⟨fun _ _ => .error .valueError⟩ takeAddress 3 (lit "f") [(lit "n", .int 8)]
        (afterTakeAddress ⟨fun _ _ => .error .valueError⟩)).2 :=
  (extends_of_reachable (.callFn (.fresh []) 3 (lit "f") [(lit "n", .int 7)]) 3).1 _ _

end Csc512
