import Csc512.Cdup.VmEval

/-!
# The interpreter

What single statements do, and the interpreter as a whole: the recursion between expressions,
statements, segments and calls, bounded by fuel. Functions are entered through `callFn`.
-/

namespace Csc512

/-! ### Initialisers -/

/-- The value that an initialiser writes. -/
inductive InitData where
  | int (n : ℤ)
  | float (x : Double)
  | str (s : Text)
  | list (items : List InitData)
deriving Repr

/-- The pieces of a text between the commas outside braces. -/
def splitElements : ℤ → Text → Text → List Text
  | _, current, [] => if strip current = [] then [] else [strip current]
  | depth, current, c :: s =>
    if c = '{' then splitElements (depth + 1) (current ++ [c]) s
    else if c = '}' then splitElements (depth - 1) (current ++ [c]) s
    else if c = ',' ∧ depth = 0 then strip current :: splitElements depth [] s
    else splitElements depth (current ++ [c]) s

variable (U : CharTable)

/-- The value that a text writes which begins with no brace. -/
def parseElement (s : Text) : InitData :=
  match prefixedInt U s, floatOfText U s with
  | some n, _ => .int n
  | none, some x => .float x
  | none, none => .str s

/-- Parse a list in braces; `fuel` bounds the nesting. -/
def parseBraceFrom : ℕ → Text → List InitData
  | 0, _ => []
  | fuel + 1, s =>
    (splitElements 0 [] (strip ((strip s).drop 1).dropLast)).map fun elem =>
      if elem.head? = some '{' then .list (parseBraceFrom fuel elem) else parseElement U elem

/-- Parse a list in braces. -/
def parseBrace (s : Text) : List InitData := parseBraceFrom U s.length s

mutual

/-- The value of an initialiser, with its lists stored. -/
def loadInit : InitData → Vm Value
  | .int n => pure (.int n)
  | .float x => pure (.float x)
  | .str s => pure (.str s)
  | .list items => do
    let vals ← loadInits items
    newList vals

/-- The values of some initialisers. -/
def loadInits : List InitData → Vm (List Value)
  | [] => pure []
  | item :: items => do
    let v ← loadInit item
    let vs ← loadInits items
    pure (v :: vs)

end

/-- The right side of an assignment or a declaration. -/
def extractRhs (raw : Text) : Option Text :=
  let s := strip ((Pattern.literal (lit "{}")).replaceAll (fun _ => [])
    (rstripChar ';' (strip raw)))
  (cut ['='] s).map fun p => strip p.2

/-! ### Declarations and assignments -/

variable (M : MathLib) (P : Program) (I : Interp)

/-- Append an event to the trace. -/
def record (stmt : Statement) (seg : Segment) (iteration : Option ℕ)
    (readSnap writeSnap : Dict Text Snapshot) (branchTaken : Option Bool := none)
    (derefReads : List (Value × Value) := []) (derefWrites : List (Value × Value) := []) :
    Vm Unit :=
  Exec.modify fun s =>
    let event : TraceEvent :=
      { kind := stmt.kind, raw := stmt.raw, segId := seg.id, scopePath := seg.scopePath
        fn := P.segFn seg, iteration, readValues := readSnap, writeValues := writeSnap
        branchTaken, derefReads, derefWrites }
    { s with trace := s.trace ++ [event] }

/-- A snapshot with one entry. -/
def snapOne (name : Text) (v : Value) : Dict Text Snapshot :=
  Dict.empty.upsert name fun _ => .value v

/-- The name of what a dereferenced name points from. -/
def derefName (lName : Text) : Text := strip (lName.drop 1)

/-- Initialise the fields of a structure, in order. -/
def initFields (frame : ℕ) (lName : Text) : List Slot → List Value → Vm (List Text)
  | [], _ => pure []
  | field :: fields, vals => do
    let key := lName ++ '.' :: field.name
    allocStackSlot frame key (vals.headD (.int 0)) field.type
    let keys ← initFields frame lName fields (vals.drop 1)
    pure (key :: keys)

/-- Initialise an array: a flat one on the heap, one of arrays as a list. -/
def initArray (frame : ℕ) (base type : Text) (vals : List Value) : Vm Unit :=
  match vals.head? with
  | some (.list _) => do
    let v ← newList vals
    allocStackSlot frame base v type
  | _ => do
    let v ← listToHeap vals (pointeeType type)
    allocStackSlot frame base v (type ++ ['*'])

/-- Execute an increment or decrement. -/
def execStep (stmt : Statement) (lName : Text) (op : StepOp) (frame : ℕ) (seg : Segment)
    (iteration : Option ℕ) : Vm Unit := do
  let inner ← slot? frame (derefName lName)
  match lName, inner with
  | '*' :: _, some slot => do
    let cur ← heapRead U slot.value
    let new ← stepValue op cur
    heapWrite slot.value new
    record P stmt seg iteration (snapOne (derefName lName) slot.value) Dict.empty none []
      [(slot.value, new)]
  | _, _ => do
    let slot ← slot? frame lName
    let cur := slot.elim (.int 0) SlotDesc.value
    let new ← stepValue op cur
    setSlot frame lName new (lit "int")
    record P stmt seg iteration (snapOne lName cur) (snapOne lName new)

/-- Is a declaration that of a pointer? -/
def isPointerDecl (raw type : Text) : Bool := isPointerType type || '*' ∈ raw.takeWhile (· ≠ '=')

/-- The value that a slot gets: a pointer to a list or a string gets the address of a copy. -/
def promote (isPointer : Bool) (type : Text) (v : Value) : Vm Value :=
  match isPointer, v with
  | true, .list ref => do
    let items ← listItems ref
    listToHeap items (pointeeType type)
  | true, .str s => internString s
  | _, v => pure v

/-- Execute an assignment or a declaration with a value. -/
def execAssign (stmt : Statement) (lName type : Text) (expr : Expr) (frame : ℕ) (seg : Segment)
    (iteration : Option ℕ) (readSnap : Dict Text Snapshot) : Vm Unit :=
  match lName with
  | '*' :: _ => do
    let v ← untraced (I.eval frame seg.scopePath expr)
    match ← slot? frame (derefName lName) with
    | some slot => do
      heapWrite slot.value v
      record P stmt seg iteration readSnap Dict.empty none [] [(slot.value, v)]
    | none => record P stmt seg iteration readSnap Dict.empty
  | _ => do
    let (v, derefReads) ← traced (I.eval frame seg.scopePath expr)
    let v ← promote (isPointerDecl stmt.raw type) type v
    setSlot frame lName v type
    let writeSnap ← snapReads frame [lName]
    record P stmt seg iteration readSnap writeSnap none derefReads

/-- Execute a declaration or an assignment. -/
def execDeclAssign (stmt : Statement) (frame : ℕ) (seg : Segment) (iteration : Option ℕ) :
    Vm Unit :=
  match stmt.lName with
  | none => pure ()
  | some lName => do
    let raw := stmt.raw
    let type := if stmt.type.getD [] = [] then lit "int" else stmt.type.getD []
    let readSnap ← snapReads frame stmt.rNames
    let braceRhs := (extractRhs raw).filter fun rhs => rhs.head? = some '{'
    match (P.structByName (stmt.type.getD [])).filter fun _ => '{' ∈ raw, braceRhs with
    | some struct, some rhs => do
      let vals ← loadInits (parseBrace U rhs)
      let written ← initFields frame lName struct.memory vals
      let writeSnap ← snapReads frame written
      record P stmt seg iteration readSnap writeSnap
    | _, _ =>
      if '[' ∈ raw ∧ '=' ∈ raw ∧ '{' ∈ raw then
        match braceRhs with
        | some rhs => do
          let base := lName.takeWhile (· ≠ '[')
          let vals ← loadInits (parseBrace U rhs)
          initArray frame base type vals
          let writeSnap ← snapReads frame [base]
          record P stmt seg iteration readSnap writeSnap
        | none => pure ()
      else match stmt.expr with
        | some (.step op _) => execStep U P stmt lName op frame seg iteration
        | some expr => execAssign P I stmt lName type expr frame seg iteration readSnap
        | none =>
          if stmt.kind = .decl ∧ '=' ∉ raw then do
            allocStackSlot frame lName (.int 0) type
            record P stmt seg iteration Dict.empty (snapOne lName (.int 0))
          else pure ()

/-! ### Other statements -/

/-- The value of an expression that may be missing. -/
def evalOpt (expr : Option Expr) (frame : ℕ) (seg : Segment) : Vm Value :=
  match expr with
  | some e => untraced (I.eval frame seg.scopePath e)
  | none => pure .none

/-- Execute a control statement. -/
def execControl (stmt : Statement) (frame : ℕ) (seg : Segment) (iteration : Option ℕ) :
    Vm Unit := do
  let raw := strip stmt.raw
  let readSnap ← snapReads frame stmt.rNames
  record P stmt seg iteration readSnap Dict.empty
  if startsWith raw (lit "return") then
    let v ← evalOpt I stmt.expr frame seg
    Exec.stop (.returned v)
  else if startsWith raw (lit "break") then Exec.stop .broke
  else if startsWith raw (lit "continue") then Exec.stop .continued
  else pure ()

/-- Execute a call that stands alone. -/
def execCallStmt (stmt : Statement) (frame : ℕ) (seg : Segment) (iteration : Option ℕ) :
    Vm Unit := do
  let readSnap ← snapReads frame stmt.rNames
  match stmt.expr with
  | some (.call fn args) => do
    let _ ← untraced (evalCall U M P I fn args frame seg.scopePath)
    pure ()
  | _ => pure ()
  record P stmt seg iteration readSnap Dict.empty

/-- `\s*=\s*(.+)$`, with the group `k`. -/
def rhsPattern (k : ℕ) : Pattern :=
  .seqs [blanksPattern, .one '=', blanksPattern, .group k (.plus (.char (· ≠ '\n'))), .atEnd]

/-- `**name = rhs`. -/
def doubleDerefPattern : Pattern :=
  .seqs [.literal (lit "**"), .group 1 (identPattern U), rhsPattern 2]

/-- `*(expr) = rhs`. -/
def derefExprPattern : Pattern :=
  .seqs [.literal (lit "*("), .group 1 (.plus (.char (· ≠ '\n'))), .one ')', rhsPattern 2]

/-- `*name = rhs` or `*name + word = rhs`. -/
def derefNamePattern : Pattern :=
  .seqs [.one '*', .group 1 (.seq (identPattern U) (.opt (.seqs [blanksPattern, .one '+',
    blanksPattern, .plus (.char (isWordChar U))]))), rhsPattern 2]

/-- `name[idx] = rhs`. -/
def elementPattern : Pattern :=
  .seqs [.group 1 (identPattern U), .one '[', .group 2 (.plus (.char (· ≠ '\n'))), .one ']',
    rhsPattern 3]

/-- Store through a pointer to a pointer. -/
def storeDoubleDeref (stmt : Statement) (pp rhs : Text) (frame : ℕ) (seg : Segment)
    (iteration : Option ℕ) : Vm Unit := do
  let v ← evalOpt I (parseExpr U rhs) frame seg
  let readSnap ← snapReads frame stmt.rNames
  match ← slot? frame pp with
  | some slot => do
    let addr ← heapRead U slot.value
    heapWrite addr v
    record P stmt seg iteration readSnap Dict.empty none [] [(addr, v)]
  | none => pure ()

/-- Store through a pointer. -/
def storeDeref (stmt : Statement) (ptr rhs : Text) (frame : ℕ) (seg : Segment)
    (iteration : Option ℕ) : Vm Unit := do
  let addr ← evalOpt I (parseExpr U ptr) frame seg
  let v ← evalOpt I (parseExpr U rhs) frame seg
  let readSnap ← snapReads frame stmt.rNames
  heapWrite addr v
  record P stmt seg iteration readSnap Dict.empty none [] [(addr, v)]

/-- Store in an element of an array. -/
def storeElement (stmt : Statement) (arr idx rhs : Text) (frame : ℕ) (seg : Segment)
    (iteration : Option ℕ) : Vm Unit := do
  let i ← evalOpt I (parseExpr U idx) frame seg
  let i ← toInt U i
  let v ← evalOpt I (parseExpr U rhs) frame seg
  let readSnap ← snapReads frame stmt.rNames
  match (← slot? frame arr).map SlotDesc.value with
  | some (.list ref) => do
    let items ← listItems ref
    let place ← listPlace items i
    Exec.modify fun s => { s with lists := s.lists.modify ref fun items => items.set place v }
    let items ← listItems ref
    record P stmt seg iteration readSnap (Dict.empty.upsert arr fun _ => .copy items)
  | some (.int addr) => do
    heapWrite (.int (addr + i)) v
    record P stmt seg iteration readSnap Dict.empty none [] [(.int (addr + i), v)]
  | _ => pure ()

/-- Execute a statement of no other class. The stores are found by the spelling, and an error in one
of them is dropped. -/
def execExprStmt (stmt : Statement) (frame : ℕ) (seg : Segment) (iteration : Option ℕ) :
    Vm Unit :=
  let raw := bareStmt stmt.raw
  let part := fun (m : Cursor) k => strip (groupText k m)
  match (doubleDerefPattern U).matchStart raw,
      (derefExprPattern.matchStart raw <|> (derefNamePattern U).matchStart raw),
      (elementPattern U).matchStart raw with
  | some m, _, _ =>
    orElse (storeDoubleDeref U P I stmt (part m 1) (part m 2) frame seg iteration) (pure ())
  | none, some m, _ =>
    orElse (storeDeref U P I stmt (part m 1) (part m 2) frame seg iteration) (pure ())
  | none, none, some m =>
    orElse (storeElement U P I stmt (part m 1) (part m 2) (part m 3) frame seg iteration) (pure ())
  | none, none, none => do
    let readSnap ← snapReads frame stmt.rNames
    record P stmt seg iteration readSnap Dict.empty

/-! ### Clauses of `for` headers -/

/-- The value in the first clause of a `for` header. -/
def parseForInit (raw : Text) : ℤ :=
  let clause := strip (((raw.dropWhile (· ≠ '(')).drop 1).takeWhile (· ≠ ';'))
  (if '(' ∈ raw ∧ '=' ∈ clause then decimalInt U (strip ((clause.dropWhile (· ≠ '=')).drop 1))
    else none).getD 0

/-- Execute the update clause of a `for` header. -/
def execUpdate (src : Text) (frame : ℕ) (seg : Segment) : Vm Unit :=
  let s := strip src
  let name := Pattern.group 1 (identPattern U)
  let op := Pattern.group 2 stepPattern
  match (Pattern.seqs [name, blanksPattern, op]).fullMatch s <|>
      (Pattern.seqs [op, blanksPattern, name]).fullMatch s with
  | some m => do
    let slot ← slot? frame (groupText 1 m)
    let new ← stepValue (if groupText 2 m = lit "++" then .postInc else .postDec)
      (slot.elim (.int 0) SlotDesc.value)
    setSlot frame (groupText 1 m) new (lit "int")
  | none =>
    let compound := ([lit "+=", lit "-=", lit "*=", lit "/=", lit "%="]).findSome? fun cop =>
      (cut cop s).bind fun p => if p.1 = [] then none else some (strip p.1, cop, strip p.2)
    match compound with
    | some (lhs, cop, rhs) =>
      match buildAssignExpr U lhs cop rhs with
      | some tree => do
        let v ← untraced (I.eval frame seg.scopePath tree)
        setSlot frame lhs v (lit "int")
      | none => pure ()
    | none => pure ()

/-! ### The interpreter -/

/-- What the statements of a program do, with expressions and calls run by `I`. -/
def vmHandlers : Handlers VmState where
  eval frame seg e := untraced (I.eval frame seg.scopePath e)
  truthy := truthy
  snapReads := snapReads
  recordTaken stmt seg iteration snap taken :=
    record P stmt seg iteration snap Dict.empty (some taken)
  execDeclAssign := execDeclAssign U P I
  execControl := execControl P I
  execCallStmt := execCallStmt U M P I
  execExprStmt := execExprStmt U P I
  forInit stmt name frame :=
    setSlot frame name (.int (parseForInit U (strip stmt.raw)))
      (if stmt.type.getD [] = [] then lit "int" else stmt.type.getD [])
  execUpdate := execUpdate U I
  capUnroll := Exec.modify fun s => { s with unrollCapped := true }

/-- The interpreter with some amount of fuel. -/
def interp : ℕ → Interp
  | 0 => ⟨fun _ _ _ => Exec.stop .outOfFuel, fun _ _ _ => Exec.stop .outOfFuel⟩
  | fuel + 1 =>
    let I := interp fuel
    ⟨evalStep U M P I, fun seg frame it => execSeg P (vmHandlers U M P I) I.run seg frame it⟩

/-- The type of a value that a call is given. -/
def inferType : Value → Text
  | .float _ => lit "float"
  | .list _ => lit "int*"
  | .str _ => lit "char*"
  | _ => lit "int"

/-- Call a function by name, with the values of its parameters. -/
def callFn (fuel : ℕ) (name : Text) (args : List (Text × Value)) : Vm Value := do
  let fn ← orRaise (P.fnByName name) .nameError
    (lit "Function '" ++ name ++ lit "' not found.")
  let frame ← newFrame
  args.forM fun arg => allocStackSlot frame arg.1 arg.2 (inferType arg.2)
  match ← ((interp U M P fuel).run fn frame none).outcome with
  | .ok () => pure .none
  | .error (.returned v) => pure v
  | .error e => Exec.stop e

/-- Call `main` in a fresh state, and return the output. -/
def runMain (fuel : ℕ) : Vm (List Text) := do
  Exec.modify fun s => { lists := s.lists }
  let _ ← callFn U M P fuel (lit "main") []
  let s ← Exec.get
  pure s.output

end Csc512
