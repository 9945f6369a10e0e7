import Csc512.Cdup.VmState
import Mathlib.Data.Int.Bitwise

/-!
# The kernel: operators on values

The operators of the interpreter. They follow C where the source says so: comparisons and logical
operators give `0` or `1`, and an integer division truncates its quotient. What they do with values
that C does not have, or has no operator for, is what the language of the interpreter does.

The functions of the mathematical library that are not exact are parameters.
-/

namespace Csc512

/-! ### Conversions -/

/-- The number that a value is, exactly. -/
def Value.number? : Value → Option Double
  | .int n => some (.rat n)
  | .float x => some x
  | _ => Option.none

/-- The double of a number. -/
def toDouble : Value → Vm Double
  | .int n =>
    match Double.round n with
    | .inf _ => raise .overflowError
    | x => pure x
  | .float x => pure x
  | _ => raise .typeError

/-- Does a value count as true? -/
def truthy : Value → Vm Bool
  | .none => pure false
  | .int n => pure (n ≠ 0)
  | .float x => pure x.truthy
  | .str s => pure (s ≠ [])
  | .list ref => do
    let items ← listItems ref
    pure (items ≠ [])

/-- The value of a comparison or a logical operator. -/
def ofBool (b : Bool) : Value := .int (if b then 1 else 0)

/-! ### Comparisons -/

/-- Are two values equal? Lists are compared item by item; `fuel` bounds how deep. -/
def valueEq (lists : List (List Value)) : ℕ → Value → Value → Option Bool
  | 0, _, _ => none
  | fuel + 1, a, b =>
    match a, b with
    | .none, .none => some true
    | .str s, .str t => some (s = t)
    | .list r, .list r' =>
      let xs := lists.getD r []
      let ys := lists.getD r' []
      if r = r' then some true
      else if xs.length ≠ ys.length then some false
      else (xs.zip ys).foldlM
        (fun same p => if same then valueEq lists fuel p.1 p.2 else some false) true
    | a, b =>
      match a.number?, b.number? with
      | some x, some y => some (x.eq y)
      | _, _ => some false

/-- Are two values equal? -/
def cmpEq (a b : Value) : Vm Bool := do
  let s ← Exec.get
  orRaise (valueEq s.lists (s.lists.length + 2) a b) .recursionError

/-- Is the first value less than the second one, or equal to it if `orEqual`? Lists are compared at
the first place where they differ. -/
def cmpLtFrom (orEqual : Bool) : ℕ → Value → Value → Vm Bool
  | 0, _, _ => raise .recursionError
  | fuel + 1, a, b =>
    match a, b with
    | .str s, .str t => pure (s < t || (orEqual && s = t))
    | .list r, .list r' => do
      let xs ← listItems r
      let ys ← listItems r'
      let different ← (xs.zip ys).findM? fun p => do
        let same ← cmpEq p.1 p.2
        pure !same
      match different with
      | some p => cmpLtFrom orEqual fuel p.1 p.2
      | none => pure (xs.length < ys.length || (orEqual && xs.length = ys.length))
    | a, b =>
      match a.number?, b.number? with
      | some x, some y => pure (x.lt y || (orEqual && x.eq y))
      | _, _ => raise .typeError

/-- Is the first value less than the second one, or equal to it if `orEqual`? -/
def cmpLt (orEqual : Bool) (a b : Value) : Vm Bool := do
  let s ← Exec.get
  cmpLtFrom orEqual (s.lists.length + 2) a b

/-- Is a value equal to zero? -/
def isZero (a : Value) : Bool := (a.number?.bind Double.value?) = some 0

/-! ### Arithmetic -/

/-- An operator on numbers. -/
def arith (onInt : ℤ → ℤ → ℤ) (onDouble : Double → Double → Double) (a b : Value) : Vm Value :=
  match a, b with
  | .int m, .int n => pure (.int (onInt m n))
  | a, b => do
    let x ← toDouble a
    let y ← toDouble b
    pure (.float (onDouble x y))

/-- `a + b`. -/
def opAdd (a b : Value) : Vm Value :=
  match a, b with
  | .str s, .str t => pure (.str (s ++ t))
  | .list r, .list r' => do
    let xs ← listItems r
    let ys ← listItems r'
    newList (xs ++ ys)
  | a, b => arith (· + ·) Double.add a b

/-- `a - b`. -/
def opSub (a b : Value) : Vm Value := arith (· - ·) Double.sub a b

/-- `a * b`. Strings and lists are repeated. -/
def opMul (a b : Value) : Vm Value :=
  let times := fun (r : ℕ) (n : ℤ) => do
    let xs ← listItems r
    newList (List.replicate n.toNat xs).flatten
  match a, b with
  | .str s, .int n => pure (.str (List.replicate n.toNat s).flatten)
  | .int n, .str s => pure (.str (List.replicate n.toNat s).flatten)
  | .list r, .int n => times r n
  | .int n, .list r => times r n
  | a, b => arith (· * ·) Double.mul a b

/-- `a / b`. The quotient of two integers is rounded to a double and then truncated. -/
def opDiv (a b : Value) : Vm Value :=
  if isZero b then raise .zeroDivisionError (lit "Division by zero in expr evaluation.")
  else match a, b with
    | .int m, .int n =>
      match Double.round ((m : ℚ) / n) with
      | .inf _ => raise .overflowError
      | x => pure (.int (Double.truncate (x.value?.getD 0)))
    | a, b => arith (· / ·) Double.div a b

/-- The absolute value of a number. -/
def absValue : Value → Vm Value
  | .int n => pure (.int |n|)
  | .float x => pure (.float x.abs)
  | _ => raise .typeError

/-- `-a`. -/
def opNeg : Value → Vm Value
  | .int n => pure (.int (-n))
  | .float x => pure (.float x.neg)
  | _ => raise .typeError

/-- `a % b`, with the sign of `a`. -/
def opMod (a b : Value) : Vm Value :=
  if isZero b then raise .zeroDivisionError (lit "Modulo by zero in expr evaluation.")
  else do
    let m ← absValue a
    let n ← absValue b
    let result ← arith (· % ·) Double.mod m n
    if ← cmpLt true (.int 0) a then pure result else opNeg result

/-! ### Bits -/

variable (U : CharTable)

/-- An operator on the bits of two integers. -/
def bitwise (onInt : ℤ → ℤ → ℤ) (a b : Value) : Vm Value := do
  let m ← toInt U a
  let n ← toInt U b
  pure (.int (onInt m n))

/-- A shift by a number of bits that is not negative. -/
def shift (onInt : ℤ → ℕ → ℤ) (a b : Value) : Vm Value := do
  let m ← toInt U a
  let n ← toInt U b
  if n < 0 then raise .valueError else pure (.int (onInt m n.toNat))

/-! ### Operators -/

/-- A binary operator. -/
def binOpValue (op : BinOp) (a b : Value) : Vm Value :=
  match op with
  | .add => opAdd a b
  | .sub => opSub a b
  | .mul => opMul a b
  | .div => opDiv a b
  | .mod => opMod a b
  | .bitAnd => bitwise U Int.land a b
  | .bitOr => bitwise U Int.lor a b
  | .bitXor => bitwise U Int.xor a b
  | .shl => shift U (fun m n => m * 2 ^ n) a b
  | .shr => shift U (fun m n => m / 2 ^ n) a b
  | .cmpEq => ofBool <$> cmpEq a b
  | .cmpNe => (fun same => ofBool !same) <$> cmpEq a b
  | .cmpLt => ofBool <$> cmpLt false a b
  | .cmpGt => ofBool <$> cmpLt false b a
  | .cmpLe => ofBool <$> cmpLt true a b
  | .cmpGe => ofBool <$> cmpLt true b a
  | .logAnd => do
    let x ← truthy a
    let y ← truthy b
    pure (ofBool (x && y))
  | .logOr => do
    let x ← truthy a
    let y ← truthy b
    pure (ofBool (x || y))

/-- A prefix operator on values. The two that need memory are not operators of the kernel. -/
def unOpValue (op : UnOp) (a : Value) : Vm Value :=
  match op with
  | .neg => opNeg a
  | .logNot => (fun b => ofBool !b) <$> truthy a
  | .bitNot => do
    let n ← toInt U a
    pure (.int (-n - 1))
  | .addrOf => raise .notImplementedError
      (lit "Address-of operator not supported in VMKernel.")
  | .deref => raise .notImplementedError
      (lit "Pointer dereference not supported in VMKernel.")

/-! ### Literals -/

/-- The codes of escaped characters. -/
def escapeCodes : List (Text × ℤ) :=
  [("\\n", (10 : ℤ)), ("\\t", 9), ("\\r", 13), ("\\0", 0), ("\\\\", 92), ("\\'", 39)].map
    fun p : String × ℤ => (p.1.toList, p.2)

/-- The value of a literal. -/
def constValue : Const → Vm Value
  | .int n => pure (.int n)
  | .float src => do
    let x ← orRaise (floatOfText U src) .valueError
    pure (.float x)
  | .char src =>
    match stripChars ['\''] src with
    | '\\' :: s => pure (.int ((escapeCodes.lookup ('\\' :: s)).getD 0))
    | [c] => pure (.int c.toNat)
    | _ => pure (.int 0)
  | .string src => pure (.str (stripChars ['"'] src))

/-! ### Library functions -/

/-- The functions of the mathematical library that round in their own way. -/
inductive MathFn where
  | exp | log | log10 | sqrt | pow | sin | cos | tan
deriving DecidableEq, Repr

/-- The mathematical library. -/
structure MathLib where
  call : MathFn → List Double → Except ErrorType Double

/-- The functions of the library by their names, with the numbers of their arguments. -/
def mathFns : List (Text × MathFn × ℕ) :=
  [("exp", MathFn.exp, 1), ("log", .log, 1), ("log10", .log10, 1), ("sqrt", .sqrt, 1),
    ("pow", .pow, 2), ("sin", .sin, 1), ("cos", .cos, 1), ("tan", .tan, 1)].map
    fun p : String × MathFn × ℕ => (p.1.toList, p.2)

/-- An integer next to a number. -/
def integerNear (round : ℚ → ℤ) : Value → Vm Value
  | .int n => pure (.int n)
  | .float .nan => raise .valueError
  | .float (.inf _) => raise .overflowError
  | .float x => pure (.int (round (x.value?.getD 0)))
  | _ => raise .typeError

/-- A call of a library function. -/
def opCall (M : MathLib) (fn : Text) (args : List Value) : Vm Value :=
  match mathFns.lookup fn with
  | some (f, arity) =>
    if args.length ≠ arity then raise .typeError
    else do
      let xs ← args.mapM toDouble
      match M.call f xs with
      | .ok x => pure (.float x)
      | .error e => raise e
  | none =>
    if fn = lit "fabs" ∨ fn = lit "abs" then
      match args with
      | [a] => absValue a
      | _ => raise .typeError
    else if fn = lit "floor" ∨ fn = lit "ceil" then
      match args with
      | [a] => integerNear (if fn = lit "floor" then Int.floor else Int.ceil) a
      | _ => raise .typeError
    else if fn = lit "fmin" ∨ fn = lit "fmax" then
      match args with
      | [a, b] => do
        let second ← if fn = lit "fmin" then cmpLt false b a else cmpLt false a b
        pure (if second then b else a)
      | _ => raise .typeError
    else raise .notImplementedError (lit "Call to '" ++ fn ++ lit "' cannot be resolved.")

end Csc512
