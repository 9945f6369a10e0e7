import Csc512.Cdup.Classify

/-!
# The expression parser

A Pratt parser for C expressions. `nud` parses what an expression can begin with, `led` what can
follow one, and `parse` goes on as long as the next token binds tighter than it was told to.

The end of the tokens stands for the end marker of the source, and every error of the source is
`none`: the source catches them all in `parse_expr`. The functions call each other on fewer and
fewer tokens; `fuel` bounds the calls.
-/

namespace Csc512

/-! ### Tokens -/

/-- The classes of tokens. -/
inductive TokenType where
  | num | str | char | name | op
deriving DecidableEq, Repr

/-- A token. -/
structure Token where
  type : TokenType
  value : Text
deriving DecidableEq, Repr

/-- The operators of two characters. -/
def twoCharOps : List Text :=
  ["->", "++", "--", "<<", ">>", "<=", ">=", "==", "!=", "&&", "||",
    "+=", "-=", "*=", "/=", "%=", "&=", "|=", "^="].map String.toList

/-- The characters of a literal behind its quote, up to and with the closing one. -/
def quotedLength (quote : Char) : Text → ℕ
  | [] => 0
  | [_] => 1
  | c :: d :: s =>
    if c = '\\' then quotedLength quote s + 2
    else if c = quote then 1
    else quotedLength quote (d :: s) + 1

variable (U : CharTable)

/-- The token that a text begins with, which is not blank. -/
def firstToken (c : Char) (s : Text) : Token :=
  let numChar := fun x => U.isDigit x || x ∈ lit ".eExXabcdefABCDEFuUlL"
  if c = '"' ∨ c = '\'' then
    ⟨if c = '"' then .str else .char, c :: s.take (quotedLength c s)⟩
  else if U.isDigit c ∨ c = '.' ∧ s.head?.any U.isDigit then ⟨.num, c :: s.takeWhile numChar⟩
  else if U.isAlpha c ∨ c = '_' then
    ⟨.name, c :: s.takeWhile fun x => U.isAlnum x || x = '_'⟩
  else if (c :: s).take 2 ∈ twoCharOps then ⟨.op, (c :: s).take 2⟩
  else ⟨.op, [c]⟩

/-- The tokens of an expression, reading `n` tokens or blanks at most. -/
def exprTokensFrom : ℕ → Text → List Token
  | 0, _ => []
  | _, [] => []
  | n + 1, c :: s =>
    if c ∈ [' ', '\t', '\r', '\n'] then exprTokensFrom n s
    else
      let token := firstToken U c s
      token :: exprTokensFrom n ((c :: s).drop token.value.length)

/-- The tokens of an expression. -/
def exprTokens (src : Text) : List Token := exprTokensFrom U src.length src

/-! ### Operator tables -/

/-- How tight an operator binds what stands on its left; zero for other tokens. -/
def leftBindingPower (op : Text) : ℕ :=
  ([("||", 10), ("&&", 20), ("|", 30), ("^", 40), ("&", 50), ("==", 60), ("!=", 60),
    ("<", 70), (">", 70), ("<=", 70), (">=", 70), ("<<", 80), (">>", 80), ("+", 90), ("-", 90),
    ("*", 100), ("/", 100), ("%", 100), ("[", 110), (".", 120), ("->", 120), ("(", 120),
    ("++", 130), ("--", 130)].map fun p : String × ℕ => (p.1.toList, p.2)).lookup op |>.getD 0

/-- The binary operators. -/
def binOps : List (Text × BinOp) :=
  [("+", BinOp.add), ("-", .sub), ("*", .mul), ("/", .div), ("%", .mod), ("&", .bitAnd),
    ("|", .bitOr), ("^", .bitXor), ("<<", .shl), (">>", .shr), ("==", .cmpEq), ("!=", .cmpNe),
    ("<", .cmpLt), (">", .cmpGt), ("<=", .cmpLe), (">=", .cmpGe), ("&&", .logAnd),
    ("||", .logOr)].map fun p : String × BinOp => (p.1.toList, p.2)

/-- The prefix operators. -/
def unOps : List (Text × (Expr → Expr)) :=
  [("-", Expr.un .neg), ("!", .un .logNot), ("~", .un .bitNot), ("&", .un .addrOf),
    ("*", .un .deref), ("++", .step .preInc), ("--", .step .preDec)].map
    fun p : String × (Expr → Expr) => (p.1.toList, p.2)

/-- The type names of casts. -/
def castTypes : List Text :=
  ["int", "long", "short", "char", "unsigned", "signed", "float", "double", "void", "size_t",
    "uint8_t", "uint16_t", "uint32_t", "uint64_t", "int8_t", "int16_t", "int32_t",
    "int64_t"].map String.toList

/-! ### Numbers -/

/-- A text with its decimal digits in ASCII. -/
def asciiDigits (s : Text) : Text :=
  s.map fun c => if U.isDecimal c then Nat.digitChar (U.decimalValue c) else c

/-- The value of a digit in some base up to sixteen. -/
def digitValue (c : Char) : Option ℕ :=
  if c.isDigit then some (c.toNat - 48)
  else if 'a' ≤ c ∧ c ≤ 'f' then some (c.toNat - 87)
  else if 'A' ≤ c ∧ c ≤ 'F' then some (c.toNat - 55)
  else none

/-- The number that a text of digits writes in a base. -/
def ofDigits (base : ℕ) (s : Text) : Option ℕ :=
  if s = [] then none
  else s.foldl (fun acc c => do
    let n ← acc
    let d ← digitValue c
    if d < base then some (n * base + d) else none) (some 0)

/-- The number that a text writes with its base in front, as in `0x1f` or `0b101`. A decimal number
other than zero must not begin with a zero. -/
def intAnyBase (s : Text) : Option ℕ :=
  match asciiDigits U s with
  | '0' :: x :: ds =>
    if x = 'x' ∨ x = 'X' then ofDigits 16 ds
    else if x = 'b' ∨ x = 'B' then ofDigits 2 ds
    else (ofDigits 10 (x :: ds)).filter (· = 0)
  | ds => ofDigits 10 ds

/-- The number that a text of decimal digits writes. -/
def intBaseTen (s : Text) : Option ℕ := ofDigits 10 (asciiDigits U s)

/-- The value of an integer token. -/
def intToken (token : Text) : Option ℤ :=
  let clean := token.rdropWhile (· ∈ lit "uUlL")
  match intAnyBase U clean with
  | some n => some n
  | none =>
    if clean ≠ [] ∧ clean.all U.isDigit then (intBaseTen U clean).map fun n => (n : ℤ)
    else some 0

/-- Does a text write a floating point number? -/
def isFloatToken (token : Text) : Bool :=
  let digits := digitsPattern U
  let mantissa := Pattern.alt (.seq digits (.opt (.seq (.one '.') (.opt digits))))
    (.seq (.one '.') digits)
  let exponent := Pattern.seq (.char fun c => c = 'e' || c = 'E') digits
  ((Pattern.seq mantissa (.opt exponent)).fullMatch token).isSome

/-- The tree of a number. -/
def numberExpr (token : Text) : Option Expr :=
  if token.any fun c => c = '.' || c = 'e' || c = 'E' then
    if isFloatToken U token then some (.const (.float token)) else none
  else (intToken U token).map fun n => .const (.int n)

/-! ### The parser -/

/-- The value of the next token, empty at the end. -/
def peekValue (toks : List Token) : Text := toks.head?.elim [] Token.value

/-- Pass over a token with a given value. -/
def expectToken (value : Text) : List Token → Option (List Token)
  | [] => none
  | t :: toks => if t.value = value then some toks else none

/-- The type of a cast, behind its opening parenthesis. -/
def tryParseCastType (toks : List Token) : Option (Text × List Token) :=
  let isPart := fun t : Token =>
    t.type = .name && t.value ∈ castTypes || t.type = .op && t.value = lit "*"
  let parts := toks.takeWhile isPart
  let rest := toks.dropWhile isPart
  if parts ≠ [] ∧ peekValue rest = lit ")" then
    some ([' '].intercalate (parts.map Token.value), rest.drop 1)
  else none

/-- The tokens up to the parenthesis that closes `depth` open ones, and those behind it. -/
def sizeofArg : ℕ → List Token → List Token × List Token
  | _, [] => ([], [])
  | depth, t :: toks =>
    if t.value = lit ")" ∧ depth = 1 then ([], toks)
    else
      let depth := if t.value = lit "(" then depth + 1
        else if t.value = lit ")" then depth - 1 else depth
      let r := sizeofArg depth toks
      (t :: r.1, r.2)

/-- The name of a called function, or `unknown`. -/
def calleeName : Expr → Text
  | .name n => n
  | _ => lit "unknown"

mutual

/-- Parse an expression whose operators bind tighter than `minBp`. -/
def parseFrom : ℕ → ℕ → List Token → Option (Expr × List Token)
  | 0, _, _ => none
  | fuel + 1, minBp, toks => do
    let (left, toks) ← nud fuel toks
    ledLoop fuel minBp left toks

/-- Parse what an expression begins with. -/
def nud : ℕ → List Token → Option (Expr × List Token)
  | 0, _ => none
  | _, [] => none
  | fuel + 1, t :: toks =>
    match t.type with
    | .num => do
      let e ← numberExpr U t.value
      some (e, toks)
    | .str => some (.const (.string t.value), toks)
    | .char => some (.const (.char t.value), toks)
    | .name =>
      if t.value = lit "sizeof" then
        if peekValue toks = lit "(" then
          let r := sizeofArg 1 (toks.drop 1)
          some (.sizeofType ([' '].intercalate (r.1.map Token.value)), r.2)
        else do
          let (inner, toks) ← parseFrom fuel 100 toks
          some (.sizeofExpr inner, toks)
      else some (.name t.value, toks)
    | .op =>
      if t.value = lit "(" then
        match tryParseCastType toks with
        | some (type, toks) => do
          let (operand, toks) ← parseFrom fuel 99 toks
          some (.cast type operand, toks)
        | none => do
          let (inner, toks) ← parseFrom fuel 0 toks
          let toks ← expectToken (lit ")") toks
          some (inner, toks)
      else
        match unOps.lookup t.value with
        | some op => do
          let (operand, toks) ← parseFrom fuel 99 toks
          some (op operand, toks)
        | none => none

/-- Go on as long as the next operator binds tighter than `minBp`. -/
def ledLoop : ℕ → ℕ → Expr → List Token → Option (Expr × List Token)
  | 0, _, _, _ => none
  | _, _, left, [] => some (left, [])
  | fuel + 1, minBp, left, t :: toks =>
    if leftBindingPower t.value ≤ minBp then some (left, t :: toks)
    else do
      let (left, toks) ← led fuel left t toks
      ledLoop fuel minBp left toks

/-- Parse what follows the expression `left`, behind the token `t`. -/
def led : ℕ → Expr → Token → List Token → Option (Expr × List Token)
  | 0, _, _, _ => none
  | fuel + 1, left, t, toks =>
    match binOps.lookup t.value with
    | some op => do
      let (right, toks) ← parseFrom fuel (leftBindingPower t.value) toks
      some (.bin op left right, toks)
    | none =>
      if t.value = lit "[" then do
        let (idx, toks) ← parseFrom fuel 0 toks
        let toks ← expectToken (lit "]") toks
        some (.index left idx, toks)
      else if t.value = lit "." ∨ t.value = lit "->" then
        match toks with
        | ⟨.name, field⟩ :: toks => some (.field left field, toks)
        | _ => none
      else if t.value = lit "(" then do
        let (args, toks) ←
          if peekValue toks = lit ")" then some ([], toks) else callArgs fuel toks
        let toks ← expectToken (lit ")") toks
        some (.call (calleeName left) args, toks)
      else if t.value = lit "++" then some (.step .postInc left, toks)
      else if t.value = lit "--" then some (.step .postDec left, toks)
      else none

/-- Parse the arguments of a call. -/
def callArgs : ℕ → List Token → Option (List Expr × List Token)
  | 0, _ => none
  | fuel + 1, toks => do
    let (arg, toks) ← parseFrom fuel 0 toks
    if peekValue toks = lit "," then
      let (args, toks) ← callArgs fuel (toks.drop 1)
      some (arg :: args, toks)
    else some ([arg], toks)

end

/-- Parse an expression, all of it. -/
def parseExpr (src : Text) : Option Expr :=
  let src := strip (rstripChar ';' (strip src))
  if src = [] then none
  else
    let tokens := exprTokens U src
    match parseFrom U (4 * tokens.length + 4) 0 tokens with
    | some (tree, []) => some tree
    | _ => none

/-! ### Conditions and assignments -/

/-- `\((.+)\)\s*` and what follows. -/
def parenthesized (rest : Pattern) : Pattern :=
  .seqs [.one '(', .group 1 (.plus (.char fun _ => true)), .one ')', .star (.char isSpace), rest]

/-- The first group of the leftmost match, trimmed. -/
def searchGroup (p : Pattern) (s : Text) : Option Text :=
  (p.search s).map fun m => strip ((m.2.group? 1).getD [])

/-- The expression in a branch, a loop header or a control statement. -/
def extractCondition (stmtRaw : Text) (kind : Kind) : Option Text :=
  let s := strip stmtRaw
  let keyword := fun word => Pattern.seq (.literal word) (.star (.char isSpace))
  match kind with
  | .branch =>
    if startsWith s (lit "if") ∨ startsWith s (lit "else if") then
      searchGroup (parenthesized (.one '{')) s
    else none
  | .loopHead =>
    let whileBlock := if startsWith s (lit "while") then
      searchGroup (.seq (keyword (lit "while")) (parenthesized (.one '{'))) s else none
    let doTail := if startsWith s (lit "do") then
      searchGroup (.seq (keyword (lit "while"))
        (parenthesized (.seqs [.opt (.one ';'), .star (.char isSpace), .atEnd]))) s else none
    let forCondition := if startsWith s (lit "for") then
      (betweenParens s).bind fun inner => ((inner.splitOn ';')[1]?).map strip else none
    whileBlock <|> doTail <|> forCondition
  | .control =>
    let p := Pattern.seqs [.literal (lit "return"), .plus (.char isSpace),
      .group 1 (.star (.char (· ≠ '\n')))]
    (p.matchStart (strip (rstripChar ';' s))).bind fun m =>
      let e := strip ((m.group? 1).getD [])
      if e = [] then none else some e
  | _ => none

/-- The operators of compound assignments. -/
def compoundOps : List (Text × BinOp) :=
  [("+=", BinOp.add), ("-=", .sub), ("*=", .mul), ("/=", .div), ("%=", .mod), ("&=", .bitAnd),
    ("|=", .bitOr), ("^=", .bitXor), ("<<=", .shl), (">>=", .shr)].map
    fun p : String × BinOp => (p.1.toList, p.2)

/-- The tree of the value that an assignment stores. -/
def buildAssignExpr (lName opToken rhsSrc : Text) : Option Expr :=
  (parseExpr U rhsSrc).map fun rhs =>
    match compoundOps.lookup opToken with
    | none => rhs
    | some op =>
      let lhs := if '.' ∈ lName then
          .field (.name (lName.takeWhile (· ≠ '.'))) ((lName.dropWhile (· ≠ '.')).drop 1)
        else .name lName
      .bin op lhs rhs

/-! ### Tests -/

example : (extractCondition (lit "else if (f(a) && b) {}") .branch,
    extractCondition (lit "for (i = 0; i < n; i++) {}") .loopHead,
    extractCondition (lit "return  x + 1;") .control)
    = (some (lit "f(a) && b"), some (lit "i < n"), some (lit "x + 1")) := by decide +kernel

example : exprTokens .ascii (lit "a[i]->x += 0x1F;") =
    [⟨.name, lit "a"⟩, ⟨.op, lit "["⟩, ⟨.name, lit "i"⟩, ⟨.op, lit "]"⟩, ⟨.op, lit "->"⟩,
      ⟨.name, lit "x"⟩, ⟨.op, lit "+="⟩, ⟨.num, lit "0x1F"⟩, ⟨.op, lit ";"⟩] := by decide +kernel

end Csc512
