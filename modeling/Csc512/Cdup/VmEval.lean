import Csc512.Cdup.Control
import Csc512.Cdup.Kernel

/-!
# Evaluating expressions

One level of the evaluator: what an operand evaluates to, and how a called function runs, is given
by an interpreter with less fuel. Expressions can change the state. A sum or difference is first
looked at as pointer arithmetic, and when it is none, both operands are evaluated once more for the
operator of the kernel.
-/

namespace Csc512

/-- What the interpreter can do with some amount of fuel: evaluate an expression in a frame and a
scope, and run a segment. -/
structure Interp where
  eval : ℕ → Text → Expr → Vm Value
  run : Segment → ℕ → Option ℕ → Vm Unit

/-! ### What the interpreter knows of a program -/

namespace Program

variable (P : Program)

/-- The function with a name, the last one if there are several. -/
def fnByName (name : Text) : Option Segment :=
  P.segments.reverse.find? fun seg => seg.type = .function ∧ seg.name = name

/-- The structure with a name, the last one if there are several. -/
def structByName (name : Text) : Option Segment :=
  P.segments.reverse.find? fun seg => seg.type = .struct ∧ seg.name = name

/-- The name of the function around a segment; `fuel` bounds the nesting. -/
def owningFn : ℕ → Segment → Text
  | 0, _ => lit "unknown"
  | fuel + 1, seg =>
    if seg.type = .function then seg.name
    else if seg.parent = seg.id then lit "root"
    else match segById P.segments seg.parent with
      | some parent => owningFn fuel parent
      | none => lit "unknown"

theorem owningFn_succ (fuel : ℕ) (seg : Segment) : owningFn P (fuel + 1) seg
    = if seg.type = .function then seg.name
      else if seg.parent = seg.id then lit "root"
      else match segById P.segments seg.parent with
        | some parent => owningFn P fuel parent
        | none => lit "unknown" := rfl

/-- The name of the function around a segment. -/
def segFn (seg : Segment) : Text := owningFn P (P.segments.length + 1) seg

end Program

/-! ### Reading strings from memory -/

variable (U : CharTable) (M : MathLib) (P : Program) (I : Interp)

/-- A bound for the walks through memory that only an invalid address ends. -/
def memorySize : Vm ℕ := do
  let s ← Exec.get
  pure (s.heap.entries.length + s.addrMap.entries.length + 1)

/-- The character with a code. -/
def chr : Value → Vm Char
  | .int n => if 0 ≤ n ∧ n < 0x110000 then pure (Char.ofNat n.toNat) else raise .valueError
  | _ => raise .typeError

/-- The characters from an address on, up to a zero, `n` at most. -/
def readChars (addr : ℤ) : ℕ → Vm Text
  | 0 => pure []
  | n + 1 => do
    let v ← heapRead U (.int addr)
    if isZero v then pure []
    else
      let c ← chr v
      let rest ← readChars (addr + 1) n
      pure (c :: rest)

/-- The number of values from an address on up to a zero, when `length` were counted already. At
most `n` more are counted. -/
def countChars (addr : ℤ) (length : ℕ) : ℕ → Vm Value
  | 0 => pure (.int length)
  | n + 1 => do
    let v ← heapRead U (.int (addr + length))
    if isZero v then pure (.int length) else countChars addr (length + 1) n

/-- Copy the values from an address on, up to a zero. -/
def copyChars (dst src : ℤ) : ℕ → Vm Unit
  | 0 => Exec.stop .outOfFuel
  | n + 1 => do
    let v ← heapRead U (.int src)
    heapWrite (.int dst) v
    if isZero v then pure () else copyChars (dst + 1) (src + 1) n

/-- Compare the values from two addresses on, up to a zero. -/
def compareChars (a b : ℤ) : ℕ → Vm Value
  | 0 => Exec.stop .outOfFuel
  | n + 1 => do
    let x ← heapRead U (.int a)
    let y ← heapRead U (.int b)
    let same ← cmpEq x y
    if !same then opSub x y
    else if isZero x then pure (.int 0)
    else compareChars (a + 1) (b + 1) n

/-! ### Formatted output -/

/-- The text of an argument of `printf`, by the letter of its conversion. -/
def formatSpec (spec : Char) (v : Value) : Vm Text := do
  let s ← Exec.get
  if spec = 'd' ∨ spec = 'i' then
    let n ← toInt U v
    pure (intText n)
  else if spec = 'f' then
    match v with
    | .str s => do
      let x ← orRaise (floatOfText U s) .valueError
      pure (fixedText x)
    | v => do
      let x ← toDouble v
      pure (fixedText x)
  else if spec = 's' then
    match v with
    | .int n =>
      if 0x1000 ≤ n then do
        let size ← memorySize
        readChars U n size
      else pure (intText n)
    | v => pure (valueText s.lists v)
  else if spec = 'c' then
    let n ← toInt U v
    let c ← chr (.int n)
    pure [c]
  else if spec = '%' then pure ['%']
  else pure ['%', spec]

/-- Fill in the conversions of a format. -/
def formatText : Text → List Value → Vm Text
  | '%' :: spec :: fmt, vals => do
    let piece ← formatSpec U spec (vals.headD (.int 0))
    let rest ← formatText fmt (if spec = '%' then vals else vals.drop 1)
    pure (piece ++ rest)
  | c :: fmt, vals => do
    let rest ← formatText fmt vals
    pure (c :: rest)
  | [], _ => pure []

/-- A text with the escapes of line breaks and tabs replaced. -/
def unescape (fmt : Text) : Text :=
  (Pattern.literal (lit "\\t")).replaceAll (fun _ => ['\t'])
    ((Pattern.literal (lit "\\n")).replaceAll (fun _ => ['\n']) fmt)

/-- Append formatted output, line by line. -/
def mockPrintf : List Value → Vm Unit
  | [] => pure ()
  | fmtArg :: vals => do
    let s ← Exec.get
    let fmt ← match fmtArg with
      | .int n =>
        if 0x1000 ≤ n then readChars U n 10001 else pure (intText n)
      | .str fmt => pure (stripChars ['"'] fmt)
      | v => pure (valueText s.lists v)
    let result ← formatText U (unescape fmt) vals
    Exec.modify fun s =>
      { s with output := s.output ++ (result.splitOn '\n').filter (· ≠ []) }

/-! ### Calls -/

/-- The name of an operand that is an identifier. -/
def operandName : Expr → Text
  | .name n => n
  | .slot s => s
  | _ => []

/-- A parameter: a variable, or a variable with fields. -/
inductive Param where
  | plain (name type : Text)
  | udt (parent : Text) (fields : List Text)

/-- The parameters among the slots of a function, when those of `seen` were met. -/
def paramsFrom (params : List Slot) : List Text → List Slot → List Param
  | _, [] => []
  | seen, p :: ps =>
    match p.udtParent.filter (· ≠ []) with
    | none => .plain p.name p.type :: paramsFrom params seen ps
    | some parent =>
      if parent ∈ seen then paramsFrom params seen ps
      else
        let fields := (params.filter fun m => m.udtParent = some parent).map Slot.name
        .udt parent fields :: paramsFrom params (parent :: seen) ps

/-- The parameters of a function. -/
def paramsOf (fn : Segment) : List Param :=
  let params := fn.memory.filter Slot.param
  paramsFrom params [] params

/-- Bind a parameter in the frame of a call. -/
def bindParam (frame : ℕ) (scope : Text) (argFrame : ℕ) : Param × Expr → Vm Unit
  | (.plain name type, arg) => do
    let val ← orElse (I.eval frame scope arg) (pure (.int 0))
    let val ← match val with
      | .list ref => do
        let items ← listItems ref
        match items.head? with
        | none => pure val
        | some (.list _) => pure val
        | some _ => listToHeap items (pointeeType type)
      | .str s => internString s
      | val => pure val
    allocStackSlot argFrame name val type
  | (.udt _ fields, arg) =>
    fields.forM fun field => do
      let (_, member) ← orRaise (cut ['.'] field) .indexError
      let slot ← slot? frame (stripScope (operandName arg) scope ++ '.' :: member)
      allocStackSlot argFrame field (slot.elim (.int 0) SlotDesc.value)
        (slot.elim (lit "int") SlotDesc.type)

/-- Call a function of the program. -/
def callUser (fn : Segment) (args : List Expr) (frame : ℕ) (scope : Text) : Vm Value := do
  let argFrame ← newFrame
  ((paramsOf fn).zip args).forM (bindParam I frame scope argFrame)
  match ← (I.run fn argFrame none).outcome with
  | .ok () => pure .none
  | .error (.returned v) => pure v
  | .error e => Exec.stop e

/-- The integer value of argument number `i`, or `missing` if there is none. -/
def intArg (args : List Expr) (i : ℕ) (missing : Vm ℤ) (frame : ℕ) (scope : Text) : Vm ℤ :=
  match args[i]? with
  | none => missing
  | some arg => do
    let v ← I.eval frame scope arg
    toInt U v

/-- The names of the functions that the interpreter has itself. -/
inductive Builtin where
  | printf | malloc | calloc | realloc | free | sizeof | strlen | strcpy | strcmp | memset | memcpy
deriving DecidableEq, Repr

/-- The functions that the interpreter has itself, by name. -/
def builtins : List (Text × Builtin) :=
  [("printf", Builtin.printf), ("malloc", .malloc), ("calloc", .calloc), ("realloc", .realloc),
    ("free", .free), ("sizeof", .sizeof), ("strlen", .strlen), ("strcpy", .strcpy),
    ("strcmp", .strcmp), ("memset", .memset), ("memcpy", .memcpy)].map
    fun p : String × Builtin => (p.1.toList, p.2)

/-- Call a function that the interpreter has itself. -/
def callBuiltin (fn : Builtin) (args : List Expr) (frame : ℕ) (scope : Text) : Vm Value :=
  let required := fun i => intArg U I args i (raise .indexError) frame scope
  let optional := fun i missing => intArg U I args i (pure missing) frame scope
  match fn with
  | .printf => do
    let vals ← args.mapM (I.eval frame scope)
    mockPrintf U vals
    pure (.int 0)
  | .malloc => do
    let nBytes ← optional 0 0
    allocHeap nBytes
  | .calloc => do
    let n ← optional 0 0
    let size ← optional 1 1
    allocHeap (n * size)
  | .realloc => do
    let nBytes ← optional 1 0
    allocHeap nBytes
  | .free => pure (.int 0)
  | .sizeof => pure (.int (sizeofType (lit "int")))
  | .strlen => do
    let addr ← optional 0 0
    countChars U addr 0 100001
  | .strcpy => do
    let dst ← required 0
    let src ← required 1
    let size ← memorySize
    copyChars U dst src size
    pure (.int dst)
  | .strcmp => do
    let a ← required 0
    let b ← required 1
    let size ← memorySize
    compareChars U a b size
  | .memset => do
    let dst ← required 0
    let val ← required 1
    let n ← required 2
    (List.range n.toNat).forM fun i => heapWrite (.int (dst + i)) (.int val)
    pure (.int dst)
  | .memcpy => do
    let dst ← required 0
    let src ← required 1
    let n ← required 2
    (List.range n.toNat).forM fun i => do
      let v ← heapRead U (.int (src + i))
      heapWrite (.int (dst + i)) v
    pure (.int dst)

/-- Evaluate a call. -/
def evalCall (fn : Text) (args : List Expr) (frame : ℕ) (scope : Text) : Vm Value :=
  match builtins.lookup fn, P.fnByName fn with
  | some builtin, _ => callBuiltin U I builtin args frame scope
  | none, some target => callUser I target args frame scope
  | none, none => do
    let result ← (do
      let vals ← args.mapM (I.eval frame scope)
      opCall M fn vals : Vm Value).outcome
    match result with
    | .ok v => pure v
    | .error (.raised ⟨.notImplementedError, _⟩) =>
      raise .notImplementedError (lit "Call to '" ++ fn ++ lit "' cannot be resolved.")
    | .error e => Exec.stop e

/-! ### Expressions -/

/-- The value of the first slot that there is among some names. -/
def firstInFrame (frame : ℕ) : List Text → Vm (Option Value)
  | [] => pure none
  | name :: names => do
    match ← slot? frame name with
    | some slot => pure (some slot.value)
    | none => firstInFrame frame names

/-- The value of a name. -/
def evalName (frame : ℕ) (scope name : Text) : Vm Value := do
  if name = lit "NULL" then pure (.int 0)
  else
    let v ← firstInFrame frame [name, stripScope name scope]
    orRaise v .nameError (lit "'" ++ name ++ lit "' not in frame")

/-- The value of a scoped slot: it is looked for by its name in the scope, and then by the last
parts of its scoped name, the shortest first. -/
def evalSlot (frame : ℕ) (scope slot : Text) : Vm Value := do
  let parts := slot.splitOn '.'
  let suffixes := (List.range' 1 (parts.length - 1)).reverse.map fun d =>
    List.intercalate ['.'] (parts.drop d)
  let v ← firstInFrame frame (stripScope slot scope :: suffixes)
  orRaise v .keyError (lit "Slot '" ++ slot ++ lit "' not in frame")

/-- The value of a sum or difference that is pointer arithmetic. A list is copied to the heap when
the other side is an integer. -/
def pointerArith (op : BinOp) (left right : Value) : Vm (Option Value) := do
  let (left, right) ← match left, right with
    | .list ref, .int n => do
      let items ← listItems ref
      let base ← listToHeap items
      pure (base, Value.int n)
    | .int n, .list ref => do
      let items ← listItems ref
      let base ← listToHeap items
      pure (Value.int n, base)
    | left, right => pure (left, right)
  match left, right with
  | .int m, .int n =>
    if 0x1000 ≤ m ∨ 0x1000 ≤ n then
      let (base, delta) := if 0x1000 ≤ m then (m, n) else (n, m)
      pure (some (.int (if op = .add then base + delta else base - delta)))
    else pure none
  | _, _ => pure none

/-- Increment or decrement. -/
def stepValue (op : StepOp) (v : Value) : Vm Value :=
  opAdd v (.int (if op = .postInc ∨ op = .preInc then 1 else -1))

/-- Evaluate an expression, with its operands evaluated by `I`. -/
def evalStep (frame : ℕ) (scope : Text) : Expr → Vm Value
  | .name n => evalName frame scope n
  | .slot s => evalSlot frame scope s
  | .const c => constValue U c
  | .call fn args => untraced (evalCall U M P I fn args frame scope)
  | .un .addrOf arg => do
    let name := stripScope (operandName arg) scope
    let slot ← slot? frame name
    let slot ← orRaise slot .nameError
      (lit "Cannot take address of '" ++ name ++ lit "': not in frame")
    pure (.int slot.addr)
  | .un .deref arg => do
    let addr ← I.eval frame scope arg
    let v ← heapRead U addr
    noteDeref addr v
    pure v
  | .un op arg => do
    let v ← I.eval frame scope arg
    unOpValue U op v
  | .index arr idx => do
    let i ← I.eval frame scope idx
    let i ← toInt U i
    match ← I.eval frame scope arr with
    | .list ref => do
      let items ← listItems ref
      let place ← listPlace items i
      pure (items.getD place .none)
    | .int n => do
      let v ← heapRead U (.int (n + i))
      noteDeref (.int (n + i)) v
      pure v
    | v => raise .typeError (lit "Cannot index " ++ reprText [] 0 v)
  | .field obj field => do
    let key := stripScope (operandName obj) scope ++ '.' :: field
    let slot ← slot? frame key
    let slot ← orRaise slot .keyError (lit "Field '" ++ key ++ lit "' not in frame")
    pure slot.value
  | .step op arg => do
    let name := operandName arg
    match ← slot? frame (stripScope name scope) with
    | some slot =>
      if name = [] then I.eval frame scope arg
      else do
        let new ← stepValue op slot.value
        writeSlot frame (stripScope name scope) new
        pure (if op = .postInc ∨ op = .postDec then slot.value else new)
    | none => I.eval frame scope arg
  | .bin op a b => do
    let pointer ←
      if op = .add ∨ op = .sub then do
        let left ← I.eval frame scope a
        let right ← I.eval frame scope b
        pointerArith op left right
      else pure none
    match pointer with
    | some v => pure v
    | none => do
      let x ← I.eval frame scope a
      let y ← I.eval frame scope b
      binOpValue U op x y
  | .sizeofType of => pure (.int (sizeofType of))
  | .sizeofExpr _ => pure (.int (sizeofType (lit "int")))
  | .cast _ arg => I.eval frame scope arg

end Csc512
