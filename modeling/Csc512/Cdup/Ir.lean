import Csc512.Lib.Text

/-!
# The intermediate representation

What the parser produces and every later stage reads: segments (scoped blocks of code) with their
slots and classified statements, and expression trees. The fields are those of the records in the
source. A field that the JSON form leaves out when it has its default value is an `Option`, or a
`Bool` that is `false`.
-/

namespace Csc512

/-- A named memory location. -/
structure Slot where
  name : Text
  scopedName : Text
  type : Text
  constant : Bool := false
  param : Bool := false
  loopIterator : Bool := false
  value : Option Text := none
  udtParent : Option Text := none
  udtType : Option Text := none
deriving DecidableEq, Repr

/-- Binary operators. -/
inductive BinOp where
  | add | sub | mul | div | mod
  | bitAnd | bitOr | bitXor | shl | shr
  | cmpEq | cmpNe | cmpLt | cmpGt | cmpLe | cmpGe
  | logAnd | logOr
deriving DecidableEq, Repr

/-- Prefix operators that do not store. -/
inductive UnOp where
  | neg | logNot | bitNot | addrOf | deref
deriving DecidableEq, Repr

/-- Increments and decrements. -/
inductive StepOp where
  | postInc | postDec | preInc | preDec
deriving DecidableEq, Repr

/-- Literals. A floating point literal is kept as it was written, and so are character and string
literals, with their quotes. -/
inductive Const where
  | int (v : ℤ)
  | float (src : Text)
  | char (src : Text)
  | string (src : Text)
deriving DecidableEq, Repr

/-- Expression trees. A `name` is an unresolved identifier, a `slot` a resolved one. -/
inductive Expr where
  | name (n : Text)
  | slot (s : Text)
  | const (c : Const)
  | bin (op : BinOp) (left right : Expr)
  | un (op : UnOp) (arg : Expr)
  | step (op : StepOp) (arg : Expr)
  | index (arr idx : Expr)
  | field (obj : Expr) (field : Text)
  | call (fn : Text) (args : List Expr)
  | cast (type : Text) (arg : Expr)
  | sizeofType (of : Text)
  | sizeofExpr (arg : Expr)
deriving Repr

/-- The classes of statements. -/
inductive Kind where
  | decl | assign | branch | loopHead | control | call | funcDecl | expr
deriving DecidableEq, Repr

/-- A classified statement. -/
structure Statement where
  raw : Text
  kind : Kind
  lName : Option Text := none
  rNames : List Text := []
  expr : Option Expr := none
  type : Option Text := none
  iteratorType : Option Text := none
deriving Repr

/-- The classes of segments. -/
inductive SegType where
  | root | function | loop | branch | struct | cls
deriving DecidableEq, Repr

/-- A scoped block of code. -/
structure Segment where
  id : ℕ
  parent : ℕ
  type : SegType
  name : Text
  scopePath : Text
  head : Option Text
  memory : List Slot := []
  constants : List Slot := []
  stmts : List Statement := []
deriving Repr

end Csc512
