import Csc512.Cdup.ArrayText
import Csc512.Cdup.HeapRoom

/-!
# The cells of arrays

What the interpreter does at the declaration of an array. It does not look at the size. Without an
initialiser the declaration is one of a single variable, and no cell is put on the heap; with one
there is a cell for every integer that is written out. So an array has its cells only when all of
its elements are initialised.

## Main results

* `declaresArray_iff` — when a declaration gives an array its cells
* `not_declaresArray` — an array of three integers without an initialiser
-/

namespace Csc512

open Exec

/-! ### Initialisers -/

theorem loadInits_ints (vs : List ℤ) (s : VmState) :
    loadInits (vs.map .int) s = (.ok (vs.map .int), s) := by
  induction vs with
  | nil => rfl
  | cons v vs ih => exact bind_of_ok ih _

/-- The fields of a structure are slots, and need no cell. -/
theorem initFields_apply (frame : ℕ) (lName : Text) (fields : List Slot) (vals : List Value)
    (s : VmState) : ∃ keys t, initFields frame lName fields vals s = (.ok keys, t) ∧
      t.heap = s.heap := by
  induction fields generalizing vals s with
  | nil => exact ⟨[], s, rfl, rfl⟩
  | cons field fields ih =>
    obtain ⟨keys, t, heq, hheap⟩ := ih (vals.drop 1) (allocStackSlot frame
      (lName ++ '.' :: field.name) (vals.headD (.int 0)) field.type s).2
    exact ⟨_ :: keys, t, bind_of_ok heq _, hheap⟩

/-- The cells of an initialiser. -/
def intCells (vs : List ℤ) (elemType : Text) : List HeapCell := vs.map fun v => ⟨.int v, elemType⟩

/-- The integers are put on the heap, and their address in a slot. -/
theorem initArray_apply (frame : ℕ) (base type : Text) {vs : List ℤ} (hvs : vs ≠ [])
    (s : VmState) : ∃ t slot, initArray frame base type (vs.map .int) s = (.ok (), t) ∧
      NewBlock s t (intCells vs (pointeeType type)) ∧ slot.value = .int s.heapCounter ∧
      t.frames = s.frames.modify frame fun d => d.upsert base fun _ => slot := by
  have hflat : Flat s (vs.map .int) := by
    intro ref hmem
    obtain ⟨v, -, hv⟩ := List.mem_map.mp hmem
    cases hv
  obtain ⟨u, hcopy, hblock⟩ := listToHeap_apply (pointeeType type) hflat
  have hcells : (vs.map Value.int).map (itemCell s.heapCounter (pointeeType type))
      = intCells vs (pointeeType type) := by
    rw [List.map_map]
    rfl
  rw [hcells] at hblock
  have hframes : u.frames = s.frames := by
    obtain ⟨⟨heap, counter, hu⟩, -⟩ := heapOnly_listToHeap (vs.map .int) (pointeeType type) s
    rw [hcopy] at hu
    exact (congrArg VmState.frames hu).trans rfl
  obtain ⟨v, ws, rfl⟩ := List.exists_cons_of_ne_nil hvs
  refine ⟨_, ⟨u.stackCounter, .int s.heapCounter, type ++ ['*']⟩, bind_of_ok hcopy _,
    ⟨hblock.heap, hblock.counter, hblock.lists⟩, rfl, ?_⟩
  rw [← hframes]

/-! ### Executing a declaration -/

section Run

variable (U : CharTable) (P : Program) (I : Interp) {d : ArrayDecl} {stmt : Statement}
  (frame : ℕ) (seg : Segment) (iteration : Option ℕ)

/-- The type of a statement, as the slots show it. -/
def slotType (stmt : Statement) : Text :=
  if stmt.type.getD [] = [] then lit "int" else stmt.type.getD []

theorem ArrayDecl.mem_body (d : ArrayDecl) : '[' ∈ d.body := by
  have hfront : '[' ∈ d.front := by
    rw [ArrayDecl.front]
    induction d.moreWords with
    | nil => simp [ArrayDecl.declarator]
    | cons w ws ih => exact List.mem_append_right _ (List.mem_cons_of_mem _ ih)
  simp [ArrayDecl.body, hfront]

/-- Without an initialiser a single variable is declared. -/
theorem ArrayDecl.Parsed.exec_none (h : d.Parsed stmt) (hitems : d.items = none) (s : VmState) :
    ∃ t, execDeclAssign U P I stmt frame seg iteration s = (.ok (), t) ∧ t.heap = s.heap := by
  have hnot : ∀ {x : Char}, ArrayDecl.isFrontChar x = false → x ≠ ';' → x ∉ d.text := by
    intro x hx hne hmem
    rcases List.mem_append.mp hmem with hmem | hmem
    · exact d.notMem_body_of_none hitems hx hmem
    · exact hne (List.mem_singleton.mp hmem)
  have hequals : '=' ∉ stmt.raw := h.raw ▸ hnot (by decide) (by decide)
  have hbrace : '{' ∉ stmt.raw := h.raw ▸ hnot (by decide) (by decide)
  have hstruct : (P.structByName (stmt.type.getD [])).filter (fun _ => decide ('{' ∈ stmt.raw))
      = none := by
    rw [Option.filter_eq_none_iff]
    simp [hbrace]
  have hexec : execDeclAssign U P I stmt frame seg iteration = (do
      let _ ← snapReads frame stmt.rNames
      allocStackSlot frame d.declared (.int 0) (slotType stmt)
      record P stmt seg iteration Dict.empty (snapOne d.declared (.int 0))) := by
    rw [execDeclAssign, h.lName]
    dsimp only
    rw [hstruct]
    simp only [h.expr hitems, hequals, h.kind, false_and, and_false, if_false, not_false_eq_true,
      and_self, if_true]
    rfl
  rw [hexec]
  exact ⟨_, rfl, rfl⟩

theorem ArrayDecl.mem_text {vs : List ℤ} (hitems : d.items = some vs) :
    '[' ∈ d.text ∧ '=' ∈ d.text ∧ '{' ∈ d.text := by
  have hbody : ∀ x, x ∈ d.body → x ∈ d.text := fun x hx => List.mem_append_left _ hx
  refine ⟨hbody _ d.mem_body, hbody _ ?_, hbody _ ?_⟩
  all_goals
    rw [d.body_of_some hitems]
    simp

theorem ArrayDecl.braceRhs_eq {vs : List ℤ} (hitems : d.items = some vs) :
    (extractRhs d.text).filter (fun rhs => decide (rhs.head? = some '{'))
      = some ('{' :: (listText vs ++ ['}'])) := by
  rw [d.extractRhs_text hitems]
  rfl

/-- A structure is initialised field by field. -/
theorem ArrayDecl.Parsed.exec_struct (h : d.Parsed stmt) {vs : List ℤ} (hitems : d.items = some vs)
    {struct : Segment} (hstruct : P.structByName d.typeWord = some struct) (s : VmState) :
    ∃ t, execDeclAssign U P I stmt frame seg iteration s = (.ok (), t) ∧ t.heap = s.heap := by
  obtain ⟨hvs, -⟩ := d.items_fit vs hitems
  obtain ⟨keys, t, hinit, hheap⟩ := initFields_apply frame d.declared struct.memory (vs.map .int) s
  have hfilter : (P.structByName (stmt.type.getD [])).filter (fun _ => decide ('{' ∈ stmt.raw))
      = some struct := by
    rw [h.type, h.raw, Option.getD_some, hstruct]
    simp [(d.mem_text hitems).2.2]
  have hexec : execDeclAssign U P I stmt frame seg iteration = (do
      let readSnap ← snapReads frame stmt.rNames
      let vals ← loadInits (vs.map .int)
      let written ← initFields frame d.declared struct.memory vals
      let writeSnap ← snapReads frame written
      record P stmt seg iteration readSnap writeSnap) := by
    rw [execDeclAssign, h.lName]
    dsimp only
    rw [hfilter, h.raw, d.braceRhs_eq hitems]
    dsimp only
    rw [parseBrace_ints U hvs]
  rw [hexec]
  refine ⟨_, (bind_of_ok (loadInits_ints vs s) _).trans (bind_of_ok hinit _), ?_⟩
  exact hheap

/-- There is a cell for every integer that is written out. -/
theorem ArrayDecl.Parsed.exec_some (h : d.Parsed stmt) {vs : List ℤ} (hitems : d.items = some vs)
    (hstruct : P.structByName d.typeWord = none) (s : VmState) :
    ∃ t slot, execDeclAssign U P I stmt frame seg iteration s = (.ok (), t) ∧
      NewBlock s t (intCells vs (pointeeType (slotType stmt))) ∧
      slot.value = .int s.heapCounter ∧
      t.frames = s.frames.modify frame fun f => f.upsert d.declared fun _ => slot := by
  obtain ⟨hvs, -⟩ := d.items_fit vs hitems
  obtain ⟨hbracket, hequals, hbrace⟩ := d.mem_text hitems
  obtain ⟨t, slot, hinit, hblock, hslot, hframes⟩ :=
    initArray_apply frame d.declared (slotType stmt) hvs s
  have hbase : d.declared.takeWhile (fun c => decide (c ≠ '[')) = d.declared := by
    rw [List.takeWhile_eq_self_iff]
    intro c hc
    have hne : c ≠ '[' := by
      rintro rfl
      exact ne_of_mem_identifier d.isIdentifier_declared (by decide) (by decide) hc
    simpa using hne
  have hfilter : (P.structByName (stmt.type.getD [])).filter (fun _ => decide ('{' ∈ stmt.raw))
      = none := by
    rw [h.type, Option.getD_some, hstruct]
    rfl
  have hexec : execDeclAssign U P I stmt frame seg iteration = (do
      let readSnap ← snapReads frame stmt.rNames
      let vals ← loadInits (vs.map .int)
      initArray frame d.declared (slotType stmt) vals
      let writeSnap ← snapReads frame [d.declared]
      record P stmt seg iteration readSnap writeSnap) := by
    rw [execDeclAssign, h.lName]
    dsimp only
    rw [hfilter]
    simp only [h.raw, hbracket, hequals, hbrace, and_self, if_true, d.braceRhs_eq hitems,
      parseBrace_ints U hvs, hbase]
    rfl
  rw [hexec]
  refine ⟨_, slot, (bind_of_ok (loadInits_ints vs s) _).trans (bind_of_ok hinit _), ?_, hslot, ?_⟩
  · exact ⟨hblock.heap, hblock.counter, hblock.lists⟩
  · exact hframes

end Run

/-! ### The cells of an array -/

/-- After a step from `s` to `t`, the array that is declared has its cells: its name has the address
of a place with room for its elements, where no slot was, and where the initialisers are, with
zeros behind them. -/
structure ArrayReady (U : CharTable) (M : MathLib) (P : Program) (d : ArrayDecl) (frame : ℕ)
    (s t : VmState) (base : ℕ) : Prop where
  points : (slotIn t.frames frame d.name).map SlotDesc.value = some (.int base)
  room : RoomFor U M P s t base d.size
  noSlot : ∀ i < d.size, s.addrMap.get? (base + i) = none
  values : ∀ vs ∈ d.items, ∀ i < d.size,
    (t.heap.get? (base + i)).map HeapCell.value = some (.int (vs.getD i 0))

section Ready

variable {U : CharTable} {M : MathLib} {P : Program} {d : ArrayDecl} {frame base n : ℕ}
  {s t : VmState} {cells : List HeapCell}

/-- There is no room on a heap that was left alone. -/
theorem RoomFor.heap_ne (h : RoomFor U M P s t base n) (hn : 1 ≤ n) : t.heap ≠ s.heap := by
  intro hheap
  have hsome := h.valid t .refl 0 hn
  rw [hheap, h.notBefore 0 hn] at hsome
  cases hsome

/-- If all the room there is comes with a new block, and is not smaller than the block, then it is
the block. -/
theorem RoomFor.eq_block (h : RoomFor U M P s t base n) (hblock : NewBlock s t cells)
    (hn : 1 ≤ n) (hle : cells.length ≤ n) : base = s.heapCounter ∧ cells.length = n := by
  have hinside : ∀ i < n, s.heapCounter ≤ base + i ∧ base + i < s.heapCounter + cells.length := by
    intro i hi
    by_contra hout
    have hsome := h.valid t .refl i hi
    rw [hblock.heap, get?_setCells_of_notMem (by omega), h.notBefore i hi] at hsome
    cases hsome
  have hfirst := hinside 0 hn
  have hlast := hinside (n - 1) (by omega)
  omega

/-- **When a block is an array**: it has a cell for every element, the name of the array has its
address, and nothing was where it is. -/
theorem arrayReady_iff {vs : List ℤ} {elemType : Text} (hitems : d.items = some vs)
    (hblock : NewBlock s t (intCells vs elemType)) :
    (∃ base, ArrayReady U M P d frame s t base) ↔ vs.length = d.size ∧
      (slotIn t.frames frame d.name).map SlotDesc.value = some (.int s.heapCounter) ∧
      ∀ i < d.size, s.heap.get? (s.heapCounter + i) = none ∧
        s.addrMap.get? (s.heapCounter + i) = none := by
  obtain ⟨-, hle⟩ := d.items_fit vs hitems
  have hlength : (intCells vs elemType).length = vs.length := List.length_map _
  constructor
  · rintro ⟨base, hready⟩
    obtain ⟨rfl, hsize⟩ := hready.room.eq_block hblock d.size_pos (hlength.trans_le hle)
    exact ⟨hlength.symm.trans hsize, hready.points,
      fun i hi => ⟨hready.room.notBefore i hi, hready.noSlot i hi⟩⟩
  · rintro ⟨hsize, hpoints, hfree⟩
    refine ⟨s.heapCounter, hpoints, (hblock.roomFor_iff _).mpr ⟨by omega, fun i hi =>
      (hfree i hi).1⟩, fun i hi => (hfree i hi).2, fun ws hws i hi => ?_⟩
    obtain rfl : vs = ws := Option.some.inj (hitems.symm.trans hws)
    have hcell : (intCells vs elemType)[i]? = some ⟨.int (vs.getD i 0), elemType⟩ := by
      rw [intCells, List.getElem?_map, List.getElem?_eq_getElem (by omega),
        List.getD_eq_getElem _ _ (by omega)]
      rfl
    rw [hblock.heap, get?_setCells hcell]
    rfl

end Ready

/-- Executing the statement that the parser makes of a declaration gives the array its cells. -/
def DeclaresArray (U : CharTable) (M : MathLib) (P : Program) (fuel : ℕ)
    (known udtVars : List Text) (memory : List Slot) (d : ArrayDecl) (frame : ℕ) (seg : Segment)
    (iteration : Option ℕ) (children : List ℕ) (s : VmState) : Prop :=
  ∃ base t, execStmt P (vmHandlers U M P (interp U M P fuel)) (interp U M P fuel).run
      (parsedStmt U known udtVars memory d.text) frame seg iteration children s
      = (.ok children, t) ∧ ArrayReady U M P d frame s t base

section Declares

variable {U : CharTable} {M : MathLib} {P : Program} {fuel : ℕ} {known udtVars : List Text}
  {memory : List Slot} {d : ArrayDecl} {frame : ℕ} {seg : Segment} {iteration : Option ℕ}
  {children : List ℕ} {s : VmState}

/-- Whether there are cells is seen in the state that the declaration leaves. -/
theorem declaresArray_iff_ready (hknown : d.typeWord ∈ known) {t : VmState}
    (hexec : execDeclAssign U P (interp U M P fuel) (parsedStmt U known udtVars memory d.text)
      frame seg iteration s = (.ok (), t)) :
    DeclaresArray U M P fuel known udtVars memory d frame seg iteration children s ↔
      ∃ base, ArrayReady U M P d frame s t base := by
  have hstmt : execStmt P (vmHandlers U M P (interp U M P fuel)) (interp U M P fuel).run
      (parsedStmt U known udtVars memory d.text) frame seg iteration children s
      = (.ok children, t) := by
    rw [execStmt.eq_def, (d.parsed U udtVars hknown memory).kind]
    exact bind_of_ok hexec _
  constructor
  · rintro ⟨base, u, heq, hready⟩
    rw [hstmt] at heq
    obtain ⟨-, rfl⟩ := Prod.mk.inj heq
    exact ⟨base, hready⟩
  · exact fun ⟨base, hready⟩ => ⟨base, t, hstmt, hready⟩

/-- A declaration that leaves the heap alone gives an array no cells. -/
theorem not_declaresArray_of_heap (hknown : d.typeWord ∈ known) {t : VmState}
    (hexec : execDeclAssign U P (interp U M P fuel) (parsedStmt U known udtVars memory d.text)
      frame seg iteration s = (.ok (), t)) (hheap : t.heap = s.heap) :
    ¬ DeclaresArray U M P fuel known udtVars memory d frame seg iteration children s := by
  rw [declaresArray_iff_ready hknown hexec]
  exact fun ⟨base, hready⟩ => hready.room.heap_ne d.size_pos hheap

/-- Without an initialiser there are no cells. -/
theorem not_declaresArray_of_none (hknown : d.typeWord ∈ known) (hitems : d.items = none) :
    ¬ DeclaresArray U M P fuel known udtVars memory d frame seg iteration children s := by
  obtain ⟨t, hexec, hheap⟩ := (d.parsed U udtVars hknown memory).exec_none U P (interp U M P fuel)
    frame seg iteration hitems s
  exact not_declaresArray_of_heap hknown hexec hheap

/-- **When a declaration gives an array its cells**: every element is initialised, the type is not
that of a structure, the name is the second word or has the address already, and there is nothing
where the counter is at. -/
theorem declaresArray_iff (hknown : d.typeWord ∈ known) (hframe : frame < s.frames.length) :
    DeclaresArray U M P fuel known udtVars memory d frame seg iteration children s ↔
      ∃ vs, d.items = some vs ∧ vs.length = d.size ∧ P.structByName d.typeWord = none ∧
        (d.declared = d.name ∨
          (slotIn s.frames frame d.name).map SlotDesc.value = some (.int s.heapCounter)) ∧
        ∀ i < d.size, s.heap.get? (s.heapCounter + i) = none ∧
          s.addrMap.get? (s.heapCounter + i) = none := by
  have hparsed := d.parsed U udtVars hknown memory
  cases hitems : d.items with
  | none =>
    refine iff_of_false (not_declaresArray_of_none hknown hitems) ?_
    rintro ⟨vs, hvs, -⟩
    cases hvs
  | some vs =>
    cases hstruct : P.structByName d.typeWord with
    | some struct =>
      obtain ⟨t, hexec, hheap⟩ := hparsed.exec_struct U P (interp U M P fuel) frame seg
        iteration hitems hstruct s
      refine iff_of_false (not_declaresArray_of_heap hknown hexec hheap) ?_
      rintro ⟨-, -, -, hnone, -⟩
      cases hnone
    | none =>
      obtain ⟨t, slot, hexec, hblock, hslot, hframes⟩ := hparsed.exec_some U P
        (interp U M P fuel) frame seg iteration hitems hstruct s
      have hpoints : (slotIn t.frames frame d.name).map SlotDesc.value = some (.int s.heapCounter)
          ↔ d.declared = d.name ∨
            (slotIn s.frames frame d.name).map SlotDesc.value = some (.int s.heapCounter) := by
        by_cases hname : d.declared = d.name
        · rw [hframes, ← hname, slotIn_modify_self hframe, Option.map_some, hslot]
          exact iff_of_true rfl (.inl rfl)
        · rw [hframes, slotIn_modify_of_ne _ fun h => hname (Prod.mk.inj h).2.symm]
          exact ⟨.inr, fun h => h.resolve_left hname⟩
      rw [declaresArray_iff_ready hknown hexec, arrayReady_iff hitems hblock, hpoints]
      constructor
      · rintro ⟨hsize, hname, hfree⟩
        exact ⟨vs, rfl, hsize, rfl, hname, hfree⟩
      · rintro ⟨ws, hws, hsize, -, hname, hfree⟩
        obtain rfl := Option.some.inj hws
        exact ⟨hsize, hname, hfree⟩

end Declares

/-- An array of integers with the name `a`. -/
def intArray (size : ℕ) (items : Option (List ℤ)) (hsize : 1 ≤ size)
    (hitems : ∀ vs ∈ items, vs ≠ [] ∧ vs.length ≤ size) : ArrayDecl where
  typeWord := lit "int"
  moreWords := []
  stars := 0
  name := lit "a"
  size := size
  items := items
  isIdentifier_typeWord := by decide
  isIdentifier_moreWords := by simp
  isIdentifier_name := by decide
  isType := by decide
  size_pos := hsize
  items_fit := hitems

/-- `int a[2] = {1, 2};`. -/
theorem declaresArray_iff_sample : DeclaresArray .ascii noMath ⟨[], 1⟩ 0 cTypes [] []
    (intArray 2 (some [1, 2]) (by decide) (by simp)) 0 ⟨0, 0, .root, [], [], none, [], [], []⟩ none
    [] { frames := [Dict.empty] } :=
  (declaresArray_iff (by decide) (by decide)).mpr
    ⟨[1, 2], rfl, rfl, rfl, .inl rfl, fun _ _ => ⟨rfl, rfl⟩⟩

/-- **`int a[3];`**: `a` is a variable with the value zero. -/
theorem not_declaresArray : ¬ DeclaresArray .ascii noMath ⟨[], 1⟩ 0 cTypes [] []
    (intArray 3 none (by decide) nofun) 0 ⟨0, 0, .root, [], [], none, [], [], []⟩ none
    [] { frames := [Dict.empty] } :=
  not_declaresArray_of_none (by decide) rfl

end Csc512
