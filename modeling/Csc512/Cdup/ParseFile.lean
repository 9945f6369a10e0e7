import Csc512.Cdup.BraceScan
import Csc512.Cdup.Classify
import Csc512.Cdup.ExprParser
import Csc512.Lib.Dict

/-!
# Parsing a C file

From a source to the segments of its intermediate representation. The braces cut the source into
segments; every segment gets a type and a name from its header, the slots that it declares, and its
classified statements with their expression trees.

What the source goes on to build from the segments, the dependency matrix and the data-flow graph,
has its own modules.
-/

namespace Csc512

/-! ### Types and names of segments -/

/-- The type of a segment, by the spelling of its header. -/
def getSegType (head : Option Text) : SegType :=
  match head with
  | none => .root
  | some head =>
    let h := strip head
    let begins := fun kw : String => startsWith h kw.toList
    if begins "struct " ∨ begins "typedef struct" then .struct
    else if ["for ", "for(", "while ", "while(", "do ", "do\x7b"].any begins then .loop
    else if ["if ", "if(", "else", "switch ", "switch("].any begins then .branch
    else .function

variable (U : CharTable)

/-- The name of a segment; `childIndex` numbers the loops and the branches of its parent. -/
def getSegName (segType : SegType) (head : Option Text) (childIndex : ℕ) : Text :=
  let numbered := fun word : String => word.toList ++ natText childIndex
  let functionName := head.bind fun head =>
    let base := rstripChar '*' (firstWord head)
    if ((identPattern U).fullMatch base).isSome ∧ 1 < (words head).length then
      (identPrefix U (afterType head (firstWord head))).bind fun nm =>
        if (strip nm.2).head? = some '(' then some nm.1 else none
    else none
  let structName := head.bind fun head =>
    if contains (lit "typedef") (strip head) then some (lit "__typedef__")
    else (words head)[1]?.map fun w => strip (rstripChar '{' w)
  match segType with
  | .root => lit "root"
  | .function => functionName.getD (numbered "seg_")
  | .struct => structName.getD (numbered "seg_")
  | .loop => numbered "loop_"
  | .branch => numbered "branch_"
  | .cls => numbered "seg_"

/-- The names on the way from the root to a segment; `fuel` bounds the nesting. -/
def scopeNames (names : List Text) (parents : List ℕ) : ℕ → ℕ → List Text
  | 0, _ => []
  | fuel + 1, i =>
    let parent := parents.getD i 0
    let outer := if parent = i then [] else scopeNames names parents fuel parent
    outer ++ [names.getD i []]

/-- The scope path of a segment. -/
def buildScopePath (names : List Text) (parents : List ℕ) (i : ℕ) : Text :=
  ['.'].intercalate (scopeNames names parents names.length i)

/-! ### Slots -/

/-- The fields of the structures that are known. -/
abbrev StructFields := Dict Text (List Text)

/-- The slots of a variable with fields. -/
def fieldSlots (scopePath var ty : Text) (fields : List Text) (param : Bool) : List Slot :=
  fields.map fun field =>
    { name := var ++ '.' :: field, scopedName := scopePath ++ '.' :: var ++ '.' :: field,
      type := lit "field", param, udtParent := some var, udtType := some ty }

/-- The slots of one parameter. -/
def paramSlots (scopePath : Text) (known : List Text) (structs : StructFields) (param : Text) :
    List Slot :=
  let tokens := words param
  let ptype := rstripChar '*' (tokens.headD [])
  let pname := strip (stripChars ['*'] ((tokens.getLast?.getD []).takeWhile (· ≠ '[')))
  if tokens.length < 2 ∨ ptype ∉ known then []
  else if pname = [] ∨ pname ∈ cKeywords ∨ pname ∈ known then []
  else match structs.get? ptype with
    | some fields => fieldSlots scopePath pname ptype fields true
    | none =>
      [{ name := pname, scopedName := scopePath ++ '.' :: pname, type := tokens.headD [],
         param := true }]

/-- The parameters in the header of a function. -/
def extractParams (head : Option Text) (scopePath : Text) (known : List Text)
    (structs : StructFields) : List Slot :=
  match head.bind betweenParens with
  | none => []
  | some inner =>
    let inner := strip inner
    if inner = [] ∨ inner = lit "void" then []
    else (inner.splitOn ',').flatMap (paramSlots scopePath known structs)

/-- The slots that one statement declares. -/
def declaredSlots (known : List Text) (scopePath : Text) (structs : StructFields) (stmt : Text) :
    List Slot :=
  let op := classifyStatement U known [] stmt
  match op.kind, op.lName with
  | .decl, some name =>
    let dtype := rstripChar '*' (op.type.getD (lit "unknown"))
    match structs.get? dtype with
    | some fields => fieldSlots scopePath name dtype fields false
    | none =>
      [{ name, scopedName := scopePath ++ '.' :: name, type := op.type.getD (lit "unknown") }]
  | .loopHead, some name =>
    [{ name, scopedName := scopePath ++ '.' :: name, type := op.iteratorType.getD (lit "unknown"),
       loopIterator := true }]
  | _, _ => []

/-- The slots that the statements of a segment declare. -/
def extractMemory (known : List Text) (rawStmts : List Text) (scopePath : Text)
    (structs : StructFields) : List Slot :=
  rawStmts.flatMap (declaredSlots U known scopePath structs)

/-- Add the slot of a literal, unless its name is there already. The second component counts the
string literals. -/
def addConstant (scopePath : Text) (seen : List Slot × ℕ)
    (value : LiteralKind × Text) :
    List Slot × ℕ :=
  let name := canonicalConstantName U value.1 value.2 seen.2
  let count := if value.1 = .string then seen.2 + 1 else seen.2
  if seen.1.any fun slot => slot.name = name then (seen.1, count)
  else
    let slot : Slot :=
      { name, scopedName := scopePath ++ '.' :: name, type := value.1.text, constant := true,
        value := some value.2 }
    (seen.1 ++ [slot], count)

/-- The slots of the literals of some statements. -/
def extractConstants (stmts : List Statement) (scopePath : Text) : List Slot :=
  let literals := (stmts.filter fun stmt => stmt.kind ≠ .funcDecl).flatMap fun stmt =>
    let lits := extractLiterals U stmt.raw
    lits.ints.map (LiteralKind.int, ·) ++ lits.floats.map (LiteralKind.float, ·) ++
      lits.strings.map (LiteralKind.string, ·) ++ lits.chars.map (LiteralKind.char, ·)
  (literals.foldl (addConstant U scopePath) ([], 0)).1

/-! ### Expression trees of statements -/

/-- The operator and the right side of an assignment, as `attachExpr` looks for them. -/
def assignParts (s : Text) : Option (Text × Text) :=
  let compound := (["+=", "-=", "*=", "/=", "%=", "&=", "|=", "^=", "<<=", ">>="].map
    String.toList).findSome? fun op =>
      (cut op s).bind fun p => if p.1 = [] then none else some (op, strip p.2)
  compound <|> (cut (lit "=") s).bind fun p => if p.1 = [] then none else some (lit "=", strip p.2)

/-- The text of the value that a declaration stores. -/
def declValue (raw : Text) : Option Text :=
  (cut (lit "=") (rstripChar ';' (strip raw))).bind fun p =>
    if p.1 = [] then none
    else
      let rhs := strip p.2
      some (if rhs.head? = some '{' ∧ rhs.getLast? = some '}' then strip (rhs.drop 1).dropLast
        else rhs)

/-- The expression tree of a statement. -/
def stmtExpr (stmt : Statement) : Option Expr :=
  match stmt.kind with
  | .assign =>
    let s := bareStmt stmt.raw
    let lName := stmt.lName.getD []
    match assignParts s with
    | some (op, rhs) => buildAssignExpr U lName op rhs
    | none =>
      (stepPattern.search s).map fun m =>
        .step (if m.1.between m.2 = lit "++" then .postInc else .postDec) (.name lName)
  | .decl => (declValue stmt.raw).bind (parseExpr U)
  | .branch | .loopHead | .control => (extractCondition stmt.raw stmt.kind).bind (parseExpr U)
  | .call => parseExpr U (bareStmt stmt.raw)
  | .funcDecl | .expr => none

/-- A statement with its expression tree. -/
def attachExpr (stmt : Statement) : Statement := { stmt with expr := stmtExpr U stmt }

/-! ### The segments of a file -/

section Segments

variable (P : SegmentStmts Char)

/-- The types of the segments. -/
def segTypes : List SegType :=
  (List.range P.stmts.length).map fun i => getSegType (P.header i)

/-- The names of the segments before those of `typedef`s are known. Loops and branches are numbered
in every parent. -/
def firstNames : List Text :=
  let types := segTypes P
  (List.range P.stmts.length).map fun i =>
    let ty := types.getD i .root
    let earlier := (List.range (i + 1)).filter fun j =>
      P.parents.getD j 0 = P.parents.getD i 0 ∧ types.getD j .root = ty
    getSegName U ty (P.header i) (if ty = .loop ∨ ty = .branch then earlier.length else 0)

/-- The name behind the first statement of a segment that is a `typedef` with a block. -/
def typedefName (stmts : List Text) : Option Text :=
  (stmts.zip (stmts.drop 1)).findSome? fun p =>
    let next := bareStmt p.2
    if contains (lit "typedef") p.1 ∧ contains (lit "{}") p.1 ∧
        ((identPattern U).fullMatch next).isSome then some next
    else none

/-- The names of the segments. -/
def segNames : List Text :=
  (firstNames U P).zipIdx.map fun p =>
    if p.1 = lit "__typedef__" then
      ((typedefName U (P.stmts.getD (P.parents.getD p.2 0) [])).filter
        (· ≠ lit "__typedef__")).getD (lit "struct_0")
    else p.1

/-- The names of the structures, with the numbers of their segments. -/
def structSegments : List (Text × ℕ) :=
  ((segNames U P).zipIdx.zip (segTypes P)).filterMap fun p =>
    if p.2 = .struct ∧ p.1.1 ≠ [] then some p.1 else none

/-- The type names of a file. -/
def userTypes : List Text := cTypes ++ (structSegments U P).map Prod.fst

/-- The fields of the structures of a file. -/
def structFields : StructFields :=
  (structSegments U P).foldl (fun structs p =>
    let ops := (P.stmts.getD p.2 []).map (classifyStatement U (userTypes U P) [])
    structs.upsert p.1 fun _ => ops.filterMap fun op =>
      if op.kind = .decl then op.lName.filter (· ≠ []) else none) Dict.empty

/-- The segments below a segment that belong to the same function or structure; `fuel` bounds the
nesting. -/
def ownedDescendants : ℕ → ℕ → List ℕ
  | 0, _ => []
  | fuel + 1, i =>
    (P.childrenOf i).flatMap fun child =>
      if getSegType (P.header child) = .function ∨ getSegType (P.header child) = .struct then []
      else child :: ownedDescendants fuel child

/-- The variables with fields that the header of a function declares. -/
def paramUdtVars (structs : StructFields) (head : Option Text) : List Text :=
  match head.bind betweenParens with
  | none => []
  | some inner => (inner.splitOn ',').filterMap fun param =>
    let toks := words param
    let pname := strip (stripChars ['*', '[', ']'] (toks.getLast?.getD []))
    if 2 ≤ toks.length ∧ (structs.get? (rstripChar '*' (toks.headD []))).isSome ∧ pname ≠ [] then
      some pname
    else none

/-- The variables with fields in a segment, when the segments before it are known. -/
def knownUdtVars (i : ℕ) (segments : List Segment) : List Text :=
  let structs := structFields U P
  let ty := getSegType (P.header i)
  let declared := (P.stmts.getD i []).filterMap fun stmt =>
    let op := classifyStatement U (userTypes U P) [] stmt
    if op.kind = .decl ∧ (structs.get? (rstripChar '*' (op.type.getD []))).isSome then
      op.lName.filter (· ≠ [])
    else none
  let params := if ty = .function then paramUdtVars structs (P.header i) else []
  let parent := P.parents.getD i 0
  let inherited :=
    if (ty = .loop ∨ ty = .branch) ∧ parent ≠ i then
      (segments[parent]?.elim [] Segment.memory).filterMap Slot.udtParent
    else []
  declared ++ params ++ inherited

/-- Read names with a variable with fields replaced by its fields. -/
def expandReads (memory : List Slot) (rNames : List Text) : List Text :=
  rNames.flatMap fun rn =>
    let fields := memory.filter fun slot => slot.udtParent = some rn
    if fields.isEmpty then [rn] else fields.map Slot.name

/-- Segment `i`, when the segments before it are known. -/
def buildSegment (i : ℕ) (segments : List Segment) : Segment :=
  let head := P.header i
  let ty := getSegType head
  let known := userTypes U P
  let structs := structFields U P
  let udtVars := knownUdtVars U P i segments
  let scopePath := buildScopePath (segNames U P) P.parents i
  let rawStmts := P.stmts.getD i []
  let params := if ty = .function then extractParams head scopePath known structs else []
  let memory := params ++ extractMemory U known rawStmts scopePath structs
  let classified := rawStmts.map fun raw =>
    let stmt := classifyStatement U known udtVars raw
    { stmt with rNames := expandReads memory stmt.rNames }
  let owned := (ownedDescendants P P.stmts.length i).flatMap fun d =>
    (P.stmts.getD d []).map (classifyStatement U known udtVars)
  { id := i
    parent := P.parents.getD i 0
    type := ty
    name := (segNames U P).getD i []
    scopePath
    head
    memory
    constants := if ty = .function ∨ ty = .root ∨ ty = .struct then
      extractConstants U (classified ++ owned) scopePath else []
    stmts := classified.map (attachExpr U) }

/-- The segments of a file. -/
def buildSegments : List Segment :=
  (List.range P.stmts.length).foldl (fun segments i => segments ++ [buildSegment U P i segments]) []

/-- There is one segment for every number, built for it. -/
theorem buildSegments_spec : (buildSegments U P).length = P.stmts.length ∧
    ∀ i seg, (buildSegments U P)[i]? = some seg →
      ∃ segments, seg = buildSegment U P i segments := by
  let step := fun (segments : List Segment) i => segments ++ [buildSegment U P i segments]
  have hrange : ∀ n, ((List.range n).foldl step []).length = n ∧
      ∀ i seg, ((List.range n).foldl step [])[i]? = some seg →
        ∃ segments, seg = buildSegment U P i segments := by
    intro n
    induction n with
    | zero => exact ⟨rfl, fun i seg hseg => by simp at hseg⟩
    | succ n ih =>
      obtain ⟨hlen, hget⟩ := ih
      rw [List.range_succ, List.foldl_append, List.foldl_cons, List.foldl_nil]
      refine ⟨by rw [List.length_append, hlen]; rfl, fun i seg hseg => ?_⟩
      rw [List.getElem?_append] at hseg
      split_ifs at hseg with hi
      · exact hget i seg hseg
      · rw [hlen] at hseg hi
        have hzero : i - n = 0 := by
          have hlt := (List.getElem?_eq_some_iff.mp hseg).1
          rw [List.length_singleton] at hlt
          omega
        obtain rfl : i = n := by omega
        rw [hzero] at hseg
        exact ⟨_, (Option.some.inj hseg).symm⟩
  exact hrange P.stmts.length

theorem map_id_parent_buildSegments :
    (buildSegments U P).map (fun seg => (seg.id, seg.parent))
      = (List.range P.stmts.length).map fun i => (i, P.parents.getD i 0) := by
  obtain ⟨hlen, hbuild⟩ := buildSegments_spec U P
  refine List.ext_getElem? fun i => ?_
  rw [List.getElem?_map, List.getElem?_map]
  cases hi : (buildSegments U P)[i]? with
  | none =>
    rw [List.getElem?_eq_none_iff, hlen] at hi
    rw [List.getElem?_eq_none (by rwa [List.length_range])]
    rfl
  | some seg =>
    obtain ⟨segments, rfl⟩ := hbuild i seg hi
    have hlt := (List.getElem?_eq_some_iff.mp hi).1
    rw [List.getElem?_range (by rwa [hlen] at hlt)]
    rfl

variable {U P}

/-- A segment is built for its own number, which is in range. -/
theorem exists_of_mem_buildSegments {seg : Segment} (hseg : seg ∈ buildSegments U P) :
    seg.id < P.stmts.length ∧ ∃ segments, seg = buildSegment U P seg.id segments := by
  obtain ⟨hlen, hbuild⟩ := buildSegments_spec U P
  obtain ⟨i, hget⟩ := List.mem_iff_getElem?.mp hseg
  obtain ⟨segments, hseg'⟩ := hbuild i seg hget
  have hid : seg.id = i := hseg' ▸ rfl
  have hlt := (List.getElem?_eq_some_iff.mp hget).1
  exact ⟨by omega, segments, hid ▸ hseg'⟩

/-- The statement that the parser makes of a text, in a segment with some slots. -/
def parsedStmt (U : CharTable) (known udtVars : List Text) (memory : List Slot) (raw : Text) :
    Statement :=
  let stmt := classifyStatement U known udtVars raw
  attachExpr U { stmt with rNames := expandReads memory stmt.rNames }

theorem kind_parsedStmt (known udtVars : List Text) (memory : List Slot) (raw : Text) :
    (parsedStmt U known udtVars memory raw).kind = (classifyStatement U known udtVars raw).kind :=
  rfl

/-- The statements of a segment are those that were cut out of the source, parsed one by one. -/
theorem stmts_of_mem_buildSegments {seg : Segment} (hseg : seg ∈ buildSegments U P) :
    ∃ known udtVars, seg.stmts
      = (P.stmts.getD seg.id []).map (parsedStmt U known udtVars seg.memory) := by
  obtain ⟨-, segments, hbuild⟩ := exists_of_mem_buildSegments hseg
  refine ⟨userTypes U P, knownUdtVars U P seg.id segments, ?_⟩
  rw [hbuild]
  exact List.map_map

end Segments

/-- Parse a C file. -/
def parseCFile (opts : Includes) (file : Text) : Option (List Segment) :=
  (segmentStmts opts file).map (buildSegments U)

/-! ### Tests -/

example : (parseCFile .ascii {} (lit "struct P { int x; }; int f(struct P p) { if (p) { return 1; } }")).map
      (List.map fun seg => (seg.type, seg.scopePath))
    = some [(.root, lit "root"), (.struct, lit "root.P"), (.function, lit "root.f"),
        (.branch, lit "root.f.branch_1")] := by decide +kernel

end Csc512
