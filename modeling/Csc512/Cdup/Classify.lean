import Csc512.Cdup.Ir
import Csc512.Cdup.Normalize

/-!
# Classifying statements

The parser labels every statement by the spelling of its first words, and takes the written name,
the read names and the literals out of it with regular expressions.

`known` is the set of type names, `udtVars` the set of variables with fields; the empty set stands
for the missing argument of the source.
-/

namespace Csc512

/-! ### Word lists -/

/-- The built-in type names. -/
def cTypes : List Text :=
  ["int", "char", "float", "double", "long", "short", "unsigned", "signed",
    "void", "size_t", "uint8_t", "uint16_t", "uint32_t", "uint64_t",
    "int8_t", "int16_t", "int32_t", "int64_t", "bool", "FILE"].map String.toList

/-- The assignment operators, in the order in which they are looked for. -/
def assignOps : List Text :=
  ["<<=", ">>=", "+=", "-=", "*=", "/=", "%=", "&=", "|=", "^=", "="].map String.toList

/-- The first words of control statements. -/
def controlKeywords : List Text := ["return", "break", "continue", "goto"].map String.toList

/-- The first words of branches. -/
def branchKeywords : List Text := ["if", "else", "switch", "case"].map String.toList

/-- The first words of loops. -/
def loopKeywords : List Text := ["for", "while", "do"].map String.toList

/-! ### Texts -/

/-- The text between the first `(` and the last `)`. Fails where one of them is missing. -/
def betweenParens (s : Text) : Option Text :=
  if '(' ∈ s ∧ ')' ∈ s then
    let last := s.length - 1 - s.reverse.idxOf ')'
    some ((s.take last).drop (s.idxOf '(' + 1))
  else none

/-- A statement without its semicolons and the white space around them. -/
def bareStmt (raw : Text) : Text := strip (rstripChar ';' (strip raw))

/-- The first word, empty if there is none. -/
def firstWord (s : Text) : Text := (words s).headD []

variable (U : CharTable)

/-! ### Names and literals in an expression -/

/-- `"(?:[^"\\]|\\.)*"` and the same with another quote. -/
def quotedPattern (quote : Char) : Pattern :=
  .seqs [.one quote,
    .star (.alt (.char fun c => c ≠ quote && c ≠ '\\') (.seq (.one '\\') (.char (· ≠ '\n')))),
    .one quote]

/-- `\s*`. -/
def blanksPattern : Pattern := .star (.char isSpace)

/-- `(ident)sep(ident)`. -/
def memberPattern (sep : Pattern) : Pattern :=
  .seqs [.group 1 (identPattern U), sep, .group 2 (identPattern U)]

/-- `\.|->`. -/
def memberSep : Pattern := .alt (.one '.') (.literal (lit "->"))

/-- The text of group `k`. -/
def groupText (k : ℕ) (c : Cursor) : Text := (c.group? k).getD []

/-- The names in an expression, without keywords, types and the contents of strings. A member of a
variable with fields is one name, any other chain of members is the name it begins with. -/
def extractIdentifiers (known udtVars : List Text) (expr : Text) : List Text :=
  let e := (quotedPattern '"').replaceAll (fun _ => []) expr
  if udtVars.isEmpty then
    let collapse := (memberPattern U memberSep).replaceAll (groupText 1)
    ((identPattern U).findTexts (collapse (collapse e))).filter fun t =>
      t ∉ cKeywords ∧ t ∉ known
  else
    let arrow := Pattern.seqs [blanksPattern, .literal (lit "->"), blanksPattern]
    let e := (memberPattern U arrow).replaceAll
      (fun m => groupText 1 m ++ '.' :: groupText 2 m) e
    let e := (memberPattern U (.one '.')).replaceAll
      (fun m => if groupText 1 m ∈ udtVars then groupText 1 m ++ '\x00' :: groupText 2 m
        else groupText 1 m) e
    let e := (memberPattern U (.one '.')).replaceAll (groupText 1) e
    let e := e.map fun c => if c = '\x00' then '.' else c
    ((Pattern.alt (memberPattern U (.one '.')) (identPattern U)).findTexts e).filter fun t =>
      t ∉ cKeywords ∧ t ∉ known ∧ t.takeWhile (· ≠ '.') ∉ known

/-- The literals of a statement. -/
structure Literals where
  ints : List Text
  floats : List Text
  strings : List Text
  chars : List Text
deriving DecidableEq, Repr

/-- The literals of a statement. Numbers are looked for outside strings and characters, and an
integer that is also a part of a floating point number is left out. -/
def extractLiterals (raw : Text) : Literals :=
  let stripped := (quotedPattern '\'').replaceAll (fun _ => [])
    ((quotedPattern '"').replaceAll (fun _ => []) raw)
  let edge := Pattern.boundary (isWordChar U)
  let floats := (Pattern.seqs [edge, decimalPattern U, edge]).findTexts stripped
  let floatParts := floats.flatMap fun f => [f.takeWhile (· ≠ '.'), (f.dropWhile (· ≠ '.')).drop 1]
  { ints := ((Pattern.seqs [edge, digitsPattern U, edge]).findTexts stripped).filter (· ∉ floatParts)
    floats := floats
    strings := (quotedPattern '"').findTexts raw
    chars := (quotedPattern '\'').findTexts raw }

/-- The two or more hexadecimal digits of a number. -/
def hexText (n : ℕ) : Text :=
  let digits := Nat.toDigits 16 n
  List.replicate (2 - digits.length) '0' ++ digits

/-- The slot names of escaped characters. -/
def escapeNames : List (Text × Text) :=
  [("\\n", "newline"), ("\\t", "tab"), ("\\r", "cr"), ("\\0", "null"), ("\\\\", "backslash"),
    ("\\'", "squote")].map fun p => (p.1.toList, p.2.toList)

/-- The classes of literals. -/
inductive LiteralKind where
  | int | float | string | char
deriving DecidableEq, Repr

/-- The type of the slots of a class of literals. -/
def LiteralKind.text : LiteralKind → Text
  | int => lit "int"
  | float => lit "float"
  | string => lit "string"
  | char => lit "char"

/-- The name of the slot of a literal; `stringIndex` numbers the strings. -/
def canonicalConstantName (kind : LiteralKind) (value : Text) (stringIndex : ℕ) : Text :=
  match kind with
  | .int => lit "const_int_" ++ value
  | .float => lit "const_float_" ++ value.map fun c => if c = '.' then 'p' else c
  | .char =>
    let inner := stripChars ['\''] value
    let plain :=
      if inner ≠ [] ∧ inner.all U.isAlnum then inner
      else match inner with
        | [c] => lit "0x" ++ hexText c.toNat
        | _ => lit "esc"
    lit "const_char_" ++ ((escapeNames.lookup inner).getD plain)
  | .string => lit "const_str_" ++ natText stringIndex

/-! ### Classification -/

/-- The identifier that a text begins with, and what follows it. -/
def identPrefix (s : Text) : Option (Text × Text) :=
  ((identPattern U).matchStart s).map fun c => ((Cursor.start s).between c, c.after)

/-- What follows the first word of a text that begins with it, without the stars of a pointer. -/
def afterType (s word : Text) : Text := strip (lstripChar '*' (strip (s.drop word.length)))

/-- The name and the type of the variable that the header of a `for` loop declares. -/
def forIterator (known : List Text) (s : Text) : Option (Text × Text) :=
  if firstWord s = lit "for" ∧ '(' ∈ s ∧ ';' ∈ s then
    (betweenParens s).bind fun inner =>
      let initClause := strip (inner.takeWhile (· ≠ ';'))
      (words initClause).head?.bind fun ty =>
        if rstripChar '*' ty ∈ known then
          (identPrefix U (afterType initClause ty)).map fun nm => (nm.1, ty)
        else none
  else none

/-- Is the text the head of a function, and what are its name and the text from its parameters
on? -/
def funcDecl? (known : List Text) (s : Text) : Option (Text × Text) :=
  if rstripChar '*' (firstWord s) ∈ known then
    (identPrefix U (afterType s (firstWord s))).bind fun nm =>
      if (strip nm.2).head? = some '(' then some nm else none
  else none

/-- A statement with a placeholder. -/
def classifyBlock (known udtVars : List Text) (raw s : Text) : Statement :=
  let ids := extractIdentifiers U known udtVars
  if firstWord s ∈ loopKeywords then
    let iterator := forIterator U known s
    { raw, kind := .loopHead, lName := iterator.map Prod.fst,
      iteratorType := iterator.map Prod.snd, rNames := ids s }
  else if firstWord s ∈ branchKeywords then
    { raw, kind := .branch, rNames := ids s }
  else match funcDecl? U known s with
    | some (name, params) => { raw, kind := .funcDecl, lName := some name, rNames := ids params }
    | none => { raw, kind := .expr, rNames := ids s }

/-- A declaration of a variable or function. -/
def classifyDecl (known udtVars : List Text) (raw s : Text) : Option Statement :=
  let ids := extractIdentifiers U known udtVars
  if rstripChar '*' (firstWord s) ∈ known then
    (identPrefix U (afterType s (firstWord s))).map fun (name, after) =>
      let after := strip after
      if after.head? = some '(' then
        { raw, kind := .funcDecl, lName := some name, rNames := ids after }
      else
        let rNames :=
          if after.head? = some '=' then
            let rhs := strip (after.drop 1)
            let rhs := if rhs.head? = some '{' ∧ rhs.getLast? = some '}' then
              (rhs.drop 1).dropLast else rhs
            ids rhs
          else []
        { raw, kind := .decl, type := some (firstWord s), lName := some name, rNames }
  else none

/-- The names that an assignment with the operator `op` to `lName` reads. -/
def assignReads (op lName : Text) (rNames : List Text) : List Text :=
  if op ≠ lit "=" ∧ lName ∉ rNames then lName :: rNames else rNames

/-- An assignment with the operator `op`, to a variable or a member. -/
def classifyAssignOp (known udtVars : List Text) (raw s op : Text) : Option Statement :=
  let ids := extractIdentifiers U known udtVars
  (cut op s).bind fun (before, after) =>
    if before = [] then none
    else
      let lhs := strip before
      match (memberPattern U memberSep).fullMatch lhs with
      | some m =>
        let root := groupText 1 m
        let dotted := if root ∈ udtVars then root ++ '.' :: groupText 2 m else root
        some { raw, kind := .assign, lName := some dotted,
               rNames := assignReads op dotted (ids (strip after)) }
      | none =>
        match identPrefix U lhs with
        | some (name, []) =>
          some { raw, kind := .assign, lName := some name,
                 rNames := assignReads op name (ids (strip after)) }
        | _ => none

/-- A call that stands alone. -/
def classifyCall (known udtVars : List Text) (raw s : Text) : Option Statement :=
  if '(' ∈ s then
    (identPrefix U s).bind fun (_, after) =>
      if (lstrip after).head? = some '(' then
        some { raw, kind := .call,
               rNames := extractIdentifiers U known udtVars (s.dropWhile (· ≠ '(')) }
      else none
  else none

/-- `\+\+|--`. -/
def stepPattern : Pattern := .alt (.literal (lit "++")) (.literal (lit "--"))

/-- An increment or decrement that stands alone. -/
def classifyStep (raw s : Text) : Option Statement :=
  let ident := Pattern.group 1 (identPattern U)
  ((Pattern.seqs [ident, blanksPattern, stepPattern]).fullMatch s <|>
      (Pattern.seqs [stepPattern, blanksPattern, ident]).fullMatch s).map fun m =>
    { raw, kind := .assign, lName := some (groupText 1 m), rNames := [groupText 1 m] }

/-- Classify a statement. -/
def classifyStatement (known udtVars : List Text) (raw : Text) : Statement :=
  let ids := extractIdentifiers U known udtVars
  let s := bareStmt raw
  if contains (lit "{}") raw then classifyBlock U known udtVars raw s
  else if firstWord s ∈ controlKeywords then
    { raw, kind := .control, rNames := ids (s.drop (firstWord s).length) }
  else if firstWord s ∈ branchKeywords then
    { raw, kind := .branch, rNames := ids s }
  else
    (classifyDecl U known udtVars raw s <|>
      assignOps.findSome? (classifyAssignOp U known udtVars raw s) <|>
      classifyCall U known udtVars raw s <|>
      classifyStep U raw s).getD { raw, kind := .expr, rNames := ids s }

/-! ### Branches and loops -/

/-- Is a class of statements neither that of branches nor that of loops? -/
def Kind.isPlain (kind : Kind) : Bool := kind ≠ .branch && kind ≠ .loopHead

variable {U}

/-- A statement with this text that is neither a branch nor a loop. -/
structure PlainStmt (raw : Text) (stmt : Statement) : Prop where
  kind : stmt.kind.isPlain
  raw : stmt.raw = raw

theorem plain_classifyDecl {known udtVars : List Text} {raw s : Text} {stmt : Statement}
    (h : classifyDecl U known udtVars raw s = some stmt) : PlainStmt raw stmt := by
  rw [classifyDecl] at h
  split_ifs at h
  obtain ⟨⟨name, after⟩, -, rfl⟩ := Option.map_eq_some_iff.mp h
  dsimp only
  split_ifs <;> exact ⟨rfl, rfl⟩

theorem plain_classifyAssignOp {known udtVars : List Text} {raw s op : Text} {stmt : Statement}
    (h : classifyAssignOp U known udtVars raw s op = some stmt) : PlainStmt raw stmt := by
  obtain ⟨⟨before, after⟩, -, h⟩ := Option.bind_eq_some_iff.mp h
  dsimp only at h
  split_ifs at h
  split at h
  · obtain rfl := Option.some.inj h
    exact ⟨rfl, rfl⟩
  · split at h
    · obtain rfl := Option.some.inj h
      exact ⟨rfl, rfl⟩
    · simp at h

theorem plain_classifyCall {known udtVars : List Text} {raw s : Text} {stmt : Statement}
    (h : classifyCall U known udtVars raw s = some stmt) : PlainStmt raw stmt := by
  rw [classifyCall] at h
  split_ifs at h
  obtain ⟨⟨name, after⟩, -, h⟩ := Option.bind_eq_some_iff.mp h
  dsimp only at h
  split_ifs at h
  obtain rfl := Option.some.inj h
  exact ⟨rfl, rfl⟩

theorem plain_classifyStep {raw s : Text} {stmt : Statement}
    (h : classifyStep U raw s = some stmt) : PlainStmt raw stmt := by
  obtain ⟨m, -, rfl⟩ := Option.map_eq_some_iff.mp h
  exact ⟨rfl, rfl⟩

/-- What is left when a statement is no block, no control statement and no branch. -/
theorem plain_rest {known udtVars : List Text} {raw s : Text} {default : Statement}
    (hdefault : PlainStmt raw default) :
    PlainStmt raw ((classifyDecl U known udtVars raw s <|>
      assignOps.findSome? (classifyAssignOp U known udtVars raw s) <|>
      classifyCall U known udtVars raw s <|>
      classifyStep U raw s).getD default) := by
  cases hdecl : classifyDecl U known udtVars raw s with
  | some stmt => exact plain_classifyDecl hdecl
  | none =>
    cases hassign : assignOps.findSome? (classifyAssignOp U known udtVars raw s) with
    | some stmt =>
      obtain ⟨op, -, hop⟩ := List.exists_of_findSome?_eq_some hassign
      exact plain_classifyAssignOp hop
    | none =>
      cases hcall : classifyCall U known udtVars raw s with
      | some stmt => exact plain_classifyCall hcall
      | none =>
        cases hstep : classifyStep U raw s with
        | some stmt => exact plain_classifyStep hstep
        | none => exact hdefault

/-- The keywords of control statements, branches and loops are different. -/
theorem not_mem_of_mem_branchKeywords : ∀ w ∈ branchKeywords,
    w ∉ loopKeywords ∧ w ∉ controlKeywords := by decide

section Kinds

variable {known udtVars : List Text} {raw : Text}

theorem kind_of_loopKeyword (hblock : contains (lit "{}") raw)
    (h : firstWord (bareStmt raw) ∈ loopKeywords) :
    (classifyStatement U known udtVars raw).kind = .loopHead := by
  rw [classifyStatement, if_pos hblock, classifyBlock, if_pos h]

theorem kind_of_branchKeyword (h : firstWord (bareStmt raw) ∈ branchKeywords) :
    (classifyStatement U known udtVars raw).kind = .branch := by
  obtain ⟨hloop, hcontrol⟩ := not_mem_of_mem_branchKeywords _ h
  rw [classifyStatement]
  split_ifs
  · rw [classifyBlock, if_neg hloop, if_pos h]
  · rfl

theorem plain_classifyStatement
    (hloop : ¬ (contains (lit "{}") raw ∧ firstWord (bareStmt raw) ∈ loopKeywords))
    (hbranch : firstWord (bareStmt raw) ∉ branchKeywords) :
    PlainStmt raw (classifyStatement U known udtVars raw) := by
  rw [classifyStatement]
  split_ifs with hblock hcontrol
  · rw [classifyBlock, if_neg fun h => hloop ⟨hblock, h⟩, if_neg hbranch]
    split <;> exact ⟨rfl, rfl⟩
  · exact ⟨rfl, rfl⟩
  · exact plain_rest ⟨rfl, rfl⟩

variable (U known udtVars raw) in
/-- **A classified statement keeps its text.** -/
theorem raw_classifyStatement : (classifyStatement U known udtVars raw).raw = raw := by
  by_cases hbranch : firstWord (bareStmt raw) ∈ branchKeywords
  · obtain ⟨hloop, hcontrol⟩ := not_mem_of_mem_branchKeywords _ hbranch
    rw [classifyStatement]
    split_ifs
    · rw [classifyBlock, if_neg hloop, if_pos hbranch]
    · rfl
  · by_cases hloop : contains (lit "{}") raw ∧ firstWord (bareStmt raw) ∈ loopKeywords
    · rw [classifyStatement, if_pos hloop.1, classifyBlock, if_pos hloop.2]
    · exact (plain_classifyStatement hloop hbranch).raw

/-- **Loops** are the statements with a placeholder that begin with the keyword of a loop. -/
theorem kind_eq_loopHead_iff : (classifyStatement U known udtVars raw).kind = .loopHead ↔
    contains (lit "{}") raw ∧ firstWord (bareStmt raw) ∈ loopKeywords := by
  refine ⟨fun h => ?_, fun h => kind_of_loopKeyword h.1 h.2⟩
  by_contra hloop
  by_cases hbranch : firstWord (bareStmt raw) ∈ branchKeywords
  · simp [kind_of_branchKeyword hbranch] at h
  · have hplain : (classifyStatement U known udtVars raw).kind.isPlain :=
      (plain_classifyStatement hloop hbranch).kind
    rw [h] at hplain
    exact absurd hplain (by decide)

/-- **Branches** are the statements that begin with the keyword of a branch. -/
theorem kind_eq_branch_iff : (classifyStatement U known udtVars raw).kind = .branch ↔
    firstWord (bareStmt raw) ∈ branchKeywords := by
  refine ⟨fun h => ?_, kind_of_branchKeyword⟩
  by_contra hbranch
  by_cases hloop : contains (lit "{}") raw ∧ firstWord (bareStmt raw) ∈ loopKeywords
  · simp [kind_of_loopKeyword hloop.1 hloop.2] at h
  · have hplain : (classifyStatement U known udtVars raw).kind.isPlain :=
      (plain_classifyStatement hloop hbranch).kind
    rw [h] at hplain
    exact absurd hplain (by decide)

end Kinds

/-! ### Tests -/

example : (classifyStatement .ascii cTypes [] (lit "sum += a[i] * p->x;")).rNames
    = [lit "sum", lit "a", lit "i", lit "p"] := by decide +kernel

example : (classifyStatement .ascii cTypes [] (lit "for (int i = 0; i < n; i++) {}")).lName
    = some (lit "i") := by decide +kernel

example : extractLiterals .ascii (lit "x = 3 + 2.50 - f('a', \"1\");")
    = ⟨[lit "3"], [lit "2.50"], [lit "\"1\""], [lit "'a'"]⟩ := by decide +kernel

end Csc512
