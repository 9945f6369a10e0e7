import Csc512.Cdup.PyValue
import Csc512.Lib.Dict
import Csc512.Lib.Exec

/-!
# The state of the interpreter

Frames map names to slots, and every slot has an address. Heap cells have addresses of their own,
and a map leads from the address of a slot back to its frame and name. A frame stays when the call
that made it is over, because an address can still lead to it. Lists are kept in a store, because
two values can be the same list.

A statement can end in other ways than running to its end: with a `return`, `break` or `continue`,
or with an error. The recursion of the interpreter is bounded by fuel, and running out of it is an
ending of its own that no handler catches.
-/

namespace Csc512

/-! ### States -/

/-- A slot. -/
structure SlotDesc where
  addr : ℕ
  value : Value
  type : Text
deriving DecidableEq, Repr

/-- The slots of a call. -/
abbrev Frame := Dict Text SlotDesc

/-- A heap cell. -/
structure HeapCell where
  value : Value
  type : Text
deriving DecidableEq, Repr

/-- The value of a slot as the trace keeps it: lists are copied. -/
inductive Snapshot where
  | value (v : Value)
  | copy (items : List Value)
deriving DecidableEq, Repr

/-- An entry of the trace. -/
structure TraceEvent where
  kind : Kind
  raw : Text
  segId : ℕ
  scopePath : Text
  fn : Text
  iteration : Option ℕ
  readValues : Dict Text Snapshot
  writeValues : Dict Text Snapshot
  branchTaken : Option Bool
  derefReads : List (Value × Value)
  derefWrites : List (Value × Value)

/-- The state of a run. `derefs` are the reads through pointers of the expression that is being
evaluated. -/
structure VmState where
  frames : List Frame := []
  lists : List (List Value) := []
  stackCounter : ℕ := 0x1000
  heapCounter : ℕ := 0x80000000
  heap : Dict ℕ HeapCell := Dict.empty
  addrMap : Dict ℕ (ℕ × Text) := Dict.empty
  output : List Text := []
  trace : List TraceEvent := []
  unrollCapped : Bool := false
  derefs : List (Value × Value) := []

/-- How a statement can end before its end. -/
inductive Stop where
  | returned (v : Value)
  | broke
  | continued
  | raised (e : PyError)
  | outOfFuel
deriving DecidableEq, Repr

/-- Parts of a run. -/
abbrev Vm := Exec VmState Stop

/-- Raise an error. -/
def raise {σ α : Type} (type : ErrorType) (message : Text := []) : Exec σ Stop α :=
  Exec.stop (.raised ⟨type, message⟩)

/-- The value of an option, or an error. -/
def orRaise {α : Type} (x : Option α) (type : ErrorType) (message : Text := []) : Vm α :=
  match x with
  | some a => pure a
  | none => raise type message

/-- Run a computation, and go on with another one if it ends early, for whatever reason but a lack
of fuel. -/
def orElse {α : Type} (x fallback : Vm α) : Vm α := do
  match ← x.outcome with
  | .ok a => pure a
  | .error .outOfFuel => Exec.stop .outOfFuel
  | .error _ => fallback

/-! ### Types and scopes -/

/-- The name in a scoped name, if it is in the scope. -/
def stripScope (name scope : Text) : Text :=
  if startsWith name (scope ++ ['.']) then name.drop (scope.length + 1) else name

/-- The size of a type. -/
def sizeofType (type : Text) : ℕ :=
  let t := strip (rstripChar '*' (strip (if type = [] then lit "int" else type)))
  if t = lit "char" then 1
  else if t = lit "short" then 2
  else if t ∈ [lit "int", lit "unsigned", lit "long", lit "float"] then 4
  else if t ∈ [lit "double", lit "long long"] then 8
  else 4

/-- Does a type name end with a star? -/
def isPointerType (type : Text) : Bool := (strip type).getLast? = some '*'

/-- The type of what a pointer points to. -/
def pointeeType (type : Text) : Text :=
  if isPointerType type then strip (strip type).dropLast else lit "int"

/-! ### Frames -/

/-- A new frame without slots. -/
def newFrame : Vm ℕ := do
  let s ← Exec.get
  Exec.modify fun s => { s with frames := s.frames ++ [Dict.empty] }
  pure s.frames.length

/-- The slot with a name. -/
def slot? (frame : ℕ) (name : Text) : Vm (Option SlotDesc) := do
  let s ← Exec.get
  pure (s.frames[frame]?.bind fun d => d.get? name)

/-- Does a frame have a slot with this name? -/
def inFrame (frame : ℕ) (name : Text) : Vm Bool := do
  let slot ← slot? frame name
  pure slot.isSome

/-- The value of a slot. -/
def fget (frame : ℕ) (name : Text) : Vm Value := do
  let slot ← slot? frame name
  let slot ← orRaise slot .keyError
  pure slot.value

/-- Create a slot with a new address. -/
def allocStackSlot (frame : ℕ) (name : Text) (value : Value) (type : Text) : Vm Unit :=
  Exec.modify fun s =>
    let slot : SlotDesc := ⟨s.stackCounter, value, type⟩
    { s with
      stackCounter := s.stackCounter + 1
      frames := s.frames.modify frame fun d => d.upsert name fun _ => slot
      addrMap := s.addrMap.upsert s.stackCounter fun _ => (frame, name) }

/-- Change the value of a slot that there is. -/
def writeSlot (frame : ℕ) (name : Text) (value : Value) : Vm Unit := do
  let slot ← slot? frame name
  let slot ← orRaise slot .keyError
  Exec.modify fun s =>
    { s with frames := s.frames.modify frame fun d => d.upsert name fun _ => { slot with value } }

/-- Change the value of a slot, or create it. -/
def setSlot (frame : ℕ) (name : Text) (value : Value) (type : Text) : Vm Unit := do
  if ← inFrame frame name then writeSlot frame name value
  else allocStackSlot frame name value type

/-! ### Lists -/

/-- The items of a list. -/
def listItems (ref : ℕ) : Vm (List Value) := do
  let s ← Exec.get
  pure (s.lists.getD ref [])

/-- A new list. -/
def newList (items : List Value) : Vm Value := do
  let s ← Exec.get
  Exec.modify fun s => { s with lists := s.lists ++ [items] }
  pure (.list s.lists.length)

/-- The place of an index in a list; negative ones count from the end. -/
def listPlace (items : List Value) (idx : ℤ) : Vm ℕ :=
  let place := if idx < 0 then idx + items.length else idx
  if 0 ≤ place ∧ place < items.length then pure place.toNat else raise .indexError

/-! ### Addresses -/

/-- The integer of a value. -/
def toInt (U : CharTable) : Value → Vm ℤ
  | .int n => pure n
  | .float .nan => raise .valueError
  | .float (.inf _) => raise .overflowError
  | .float x => pure (Double.truncate (x.value?.getD 0))
  | .str s => orRaise (decimalInt U s) .valueError
  | .none => raise .typeError
  | .list _ => raise .typeError

/-- The address that a value is when it is looked up. -/
def addrKey : Value → Option ℤ
  | .int n => some n
  | .float x => x.value?.bind fun q => if q.den = 1 then some q.num else none
  | _ => none

/-- The heap cell at an address. -/
def VmState.cell? (s : VmState) (addr : ℤ) : Option HeapCell :=
  if 0 ≤ addr then s.heap.get? addr.toNat else none

/-- The frame and the name of the slot at an address. -/
def VmState.place? (s : VmState) (addr : ℤ) : Option (ℕ × Text) :=
  if 0 ≤ addr then s.addrMap.get? addr.toNat else none

/-- Set a heap cell. -/
def setHeap (addr : ℕ) (cell : HeapCell) : Vm Unit :=
  Exec.modify fun s => { s with heap := s.heap.upsert addr fun _ => cell }

/-- Set the address of the next heap cell. -/
def setHeapCounter (addr : ℕ) : Vm Unit := Exec.modify fun s => { s with heapCounter := addr }

/-- New heap cells for `nBytes` bytes. -/
def allocHeap (nBytes : ℤ) (elemType : Text := lit "int") : Vm Value := do
  let s ← Exec.get
  let nElems := (max 1 (nBytes / sizeofType elemType)).toNat
  (List.range nElems).forM fun i => setHeap (s.heapCounter + i) ⟨.int 0, elemType⟩
  setHeapCounter (s.heapCounter + nElems)
  pure (.int s.heapCounter)

/-- Copy a string to the heap, with a zero behind it. -/
def internString (str : Text) : Vm Value := do
  let s ← Exec.get
  str.zipIdx.forM fun p => setHeap (s.heapCounter + p.2) ⟨.int p.1.toNat, lit "char"⟩
  setHeap (s.heapCounter + str.length) ⟨.int 0, lit "char"⟩
  setHeapCounter (s.heapCounter + str.length + 1)
  pure (.int s.heapCounter)

/-- Copy a list to the heap. The items of the list that are lists are copied first. A list that
contains itself makes this endless; `fuel` is the number of lists. -/
def listToHeapFrom (elemType : Text) : ℕ → List Value → Vm Value
  | 0, _ => raise .recursionError
  | fuel + 1, items => do
    let s ← Exec.get
    items.zipIdx.forM fun p =>
      match p.1 with
      | .list ref => do
        let items ← listItems ref
        let base ← listToHeapFrom elemType fuel items
        setHeap (s.heapCounter + p.2) ⟨base, elemType ++ ['*']⟩
      | v => setHeap (s.heapCounter + p.2) ⟨v, elemType⟩
    setHeapCounter (s.heapCounter + items.length)
    pure (.int s.heapCounter)

/-- Copy a list to the heap. -/
def listToHeap (items : List Value) (elemType : Text := lit "int") : Vm Value := do
  let s ← Exec.get
  listToHeapFrom elemType (s.lists.length + 1) items

/-- The value at an address. A string counts as the address of a copy of it. -/
def heapRead (U : CharTable) (addr : Value) : Vm Value := do
  let addr ← match addr with
    | .str str => internString str
    | addr => pure addr
  let addr ← toInt U addr
  let s ← Exec.get
  if addr = 0 then raise .runtimeError (lit "Null pointer dereference")
  else match s.cell? addr, s.place? addr with
    | some cell, _ => pure cell.value
    | none, some (frame, name) => fget frame name
    | none, none =>
      raise .runtimeError (lit "Invalid read at address 0x" ++ intHexText addr)

theorem heapRead_int (U : CharTable) (addr : ℤ) (s : VmState) : heapRead U (.int addr) s
    = (if addr = 0 then raise .runtimeError (lit "Null pointer dereference")
      else match s.cell? addr, s.place? addr with
        | some cell, _ => pure cell.value
        | none, some (frame, name) => fget frame name
        | none, none =>
          raise .runtimeError (lit "Invalid read at address 0x" ++ intHexText addr)
        : Vm Value) s := rfl

/-- Set the value at an address. -/
def heapWrite (addr value : Value) : Vm Unit := do
  let s ← Exec.get
  if addrKey addr = some 0 then raise .runtimeError (lit "Null pointer dereference")
  else match addr, (addrKey addr).bind s.cell?, (addrKey addr).bind s.place? with
    | .list _, _, _ => raise .typeError
    | _, some cell, _ => setHeap ((addrKey addr).getD 0).toNat { cell with value }
    | _, none, some (frame, name) => writeSlot frame name value
    | .int addr, none, none =>
      raise .runtimeError (lit "Invalid write at address 0x" ++ intHexText addr)
    | .none, none, none => raise .typeError
    | _, none, none => raise .valueError

/-! ### Snapshots and reads through pointers -/

/-- The values of the slots that there are among `names`. -/
def snapReads (frame : ℕ) (names : List Text) : Vm (Dict Text Snapshot) := do
  let s ← Exec.get
  let slots := s.frames.getD frame Dict.empty
  pure (names.foldl (fun d name =>
    match (slots.get? name).map SlotDesc.value with
    | none => d
    | some (.list ref) => d.upsert name fun _ => .copy (s.lists.getD ref [])
    | some v => d.upsert name fun _ => .value v) Dict.empty)

/-- Are two values the same key of a dictionary? -/
def sameKey (a b : Value) : Bool :=
  a = b || ((addrKey a).isSome && addrKey a = addrKey b)

/-- Set a value in a dictionary whose keys are values. -/
def setKey (key value : Value) : List (Value × Value) → List (Value × Value)
  | [] => [(key, value)]
  | e :: es => if sameKey e.1 key then (e.1, value) :: es else e :: setKey key value es

/-- Note a read through a pointer. -/
def noteDeref (addr value : Value) : Vm Unit :=
  Exec.modify fun s => { s with derefs := setKey addr value s.derefs }

/-- Run a computation, and tell which reads through pointers it noted. -/
def traced {α : Type} (x : Vm α) : Vm (α × List (Value × Value)) := fun s =>
  match x { s with derefs := [] } with
  | (.ok a, t) => (.ok (a, t.derefs), { t with derefs := s.derefs })
  | (.error e, t) => (.error e, { t with derefs := s.derefs })

/-- Run a computation, and forget which reads through pointers it noted. -/
def untraced {α : Type} (x : Vm α) : Vm α := do
  let r ← traced x
  pure r.1

end Csc512
