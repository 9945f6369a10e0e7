import Csc512.Cdup.Classify
import Csc512.Cdup.SegmentTree
import Csc512.Lib.Deal
import Csc512.Lib.Dict
import Mathlib.Data.Char
import Mathlib.Data.List.Lex

/-!
# The dependency matrix

One row for every statement, with the slots that it reads, writes and declares, in program order. A
walk through the segments makes the rows. It gives the next child of a segment to every branch and
every loop that it comes to, and adds rows of its own: where the arms of a branch come together, and
where a loop begins.

## Main results

* `walkStmts_eq_walkPairs` — which child a statement gets does not depend on the walk
* `forall_rows_buildMatrix` — what holds of the rows of statements and of the added rows holds of
  all rows
-/

namespace Csc512

/-- The classes of rows: those of statements, and the rows that the walk adds. -/
inductive RowKind where
  | stmt (kind : Kind)
  | phi
deriving DecidableEq, Repr

/-- Why the walk added a row. -/
inductive RowNote where
  | loopEntry | branchReconvergence
deriving DecidableEq, Repr

/-- A row. Where the arms of a branch come together, `reads` are the scope paths of the arms. -/
structure Row where
  kind : RowKind
  segId : Option ℕ
  scopePath : Option Text
  raw : Text
  reads : List Text
  writes : List Text
  decls : List Text
  note : Option RowNote
  expr : Option Expr
deriving Repr

/-- A row without repetitions in its slots. -/
def makeRow (kind : RowKind) (segId : Option ℕ) (scopePath : Option Text) (raw : Text)
    (reads writes : List Text) (decls : List Text := []) (note : Option RowNote := none)
    (expr : Option Expr := none) : Row :=
  { kind, segId, scopePath, raw, reads := reads.eraseDups, writes := writes.eraseDups,
    decls := decls.eraseDups, note, expr }

/-! ### Slots -/

/-- The names of all slots, those of a segment before those of the segments with greater ids. -/
def allScopedSlots (segments : List Segment) : List Text :=
  ((segments.insertionSort fun a b => a.id ≤ b.id).flatMap fun seg =>
    (seg.memory ++ seg.constants).map Slot.scopedName).eraseDups

/-- A scope and the scopes around it, the innermost first. -/
def enclosingScopes (scopePath : Text) : List Text :=
  let parts := scopePath.splitOn '.'
  ((List.range parts.length).map fun depth => ['.'].intercalate (parts.take (depth + 1))).reverse

section Resolve

variable (U : CharTable) (scopePath : Text) (slotIndex : List Text)

/-- The slot of a name in the innermost scope that has one. -/
def findInScopes (name : Text) : Option Text :=
  ((enclosingScopes scopePath).map fun scope => scope ++ '.' :: name).find? (· ∈ slotIndex)

/-- The slot of a name: of a variable, of a member `a.x`, of a place `u[0]` of an array, or of the
whole array for `u[i]`. -/
def resolveSlot (name : Text) : Option Text :=
  let ident := Pattern.group 1 (identPattern U)
  let fixed := Pattern.seqs [ident, .one '[', .group 2 (digitsPattern U), .one ']']
  let dynamic := Pattern.seqs [ident, .one '[', identPattern U, .one ']']
  match fixed.fullMatch name with
  | some m =>
    findInScopes scopePath slotIndex (groupText 1 m ++ '.' :: groupText 2 m) <|>
      findInScopes scopePath slotIndex (groupText 1 m)
  | none => findInScopes scopePath slotIndex ((dynamic.fullMatch name).elim name (groupText 1))

/-- The slots of the literals of a statement. -/
def extractLiteralSlots (raw : Text) : List Text :=
  let lits := extractLiterals U raw
  let slot := fun kind (value : Text × ℕ) =>
    resolveSlot U scopePath slotIndex (canonicalConstantName U kind value.1 value.2)
  (lits.ints.zipIdx.filterMap (slot .int)) ++ (lits.floats.zipIdx.filterMap (slot .float)) ++
    (lits.chars.zipIdx.filterMap (slot .char)) ++ (lits.strings.zipIdx.filterMap (slot .string))

/-- The slot of a member of a variable, when the variable has slots for its members. -/
def resolveField (obj : Expr) (field : Text) : Option Text :=
  match obj with
  | .name n => resolveSlot U scopePath slotIndex (n ++ '.' :: field)
  | _ => none

mutual

/-- Replace the names in an expression by their slots, where they have some. -/
def resolveExpr : Expr → Expr
  | .name n => (resolveSlot U scopePath slotIndex n).elim (.name n) .slot
  | .slot s => .slot s
  | .const c => .const c
  | .bin op left right => .bin op (resolveExpr left) (resolveExpr right)
  | .un op arg => .un op (resolveExpr arg)
  | .step op arg => .step op (resolveExpr arg)
  | .index arr idx => .index (resolveExpr arr) (resolveExpr idx)
  | .field obj field =>
    (resolveField U scopePath slotIndex obj field).elim (.field (resolveExpr obj) field) .slot
  | .call fn args => .call fn (resolveExprs args)
  | .cast type arg => .cast type (resolveExpr arg)
  | .sizeofType of => .sizeofType of
  | .sizeofExpr arg => .sizeofExpr (resolveExpr arg)

/-- `resolveExpr` for all expressions of a list. -/
def resolveExprs : List Expr → List Expr
  | [] => []
  | e :: es => resolveExpr e :: resolveExprs es

end

end Resolve

/-! ### Rows of statements -/

/-- Sort texts. -/
def sortTexts (texts : List Text) : List Text := texts.insertionSort fun a b => a ≤ b

/-- What follows `front` in a text that begins with it. -/
def afterPrefix (front s : Text) : Option Text :=
  if front.isPrefixOf s then some (s.drop front.length) else none

/-- The slots for the members of a variable in this scope, without their own members. -/
def memberSlots (scopePath : Text) (slotIndex : List Text) (name : Text) : List Text :=
  sortTexts (slotIndex.filter fun slot =>
    (afterPrefix (scopePath ++ '.' :: name ++ ['.']) slot).any fun field => '.' ∉ field)

/-- The slots below a variable, in the innermost scope that has some. -/
def declaredMembers (scopePath : Text) (slotIndex : List Text) (name : Text) : List Text :=
  (((enclosingScopes scopePath).map fun scope => slotIndex.filter fun slot =>
    (scope ++ '.' :: name ++ ['.']).isPrefixOf slot).find? (· ≠ [])).elim [] sortTexts

section Walk

variable (U : CharTable) (segments : List Segment) (slotIndex : List Text)

/-- The slots that a statement reads, writes and declares. -/
structure Accesses where
  reads : List Text
  writes : List Text := []
  decls : List Text := []

/-- What a statement reads, writes and declares. -/
def stmtAccesses (stmt : Statement) (scopePath : Text) : Accesses :=
  let resolve := resolveSlot U scopePath slotIndex
  let reads := stmt.rNames.flatMap (fun rn =>
      (resolve rn).elim (memberSlots scopePath slotIndex rn) fun slot => [slot]) ++
    extractLiteralSlots U scopePath slotIndex stmt.raw
  match stmt.kind, stmt.lName.filter (· ≠ []) with
  | .decl, some name =>
    let slots := (resolve name).elim (declaredMembers scopePath slotIndex name) fun slot => [slot]
    { reads, writes := slots, decls := slots }
  | .assign, some name => { reads, writes := (resolve name).toList }
  | .loopHead, some name =>
    match resolve name with
    | some slot => { reads := reads.filter (· ≠ slot), writes := [slot], decls := [slot] }
    | none => { reads }
  | _, _ => { reads }

/-- The row of a statement. -/
def stmtToRow (stmt : Statement) (segId : ℕ) (scopePath : Text) : Row :=
  let acc := stmtAccesses U slotIndex stmt scopePath
  makeRow (.stmt stmt.kind) (some segId) (some scopePath) stmt.raw acc.reads acc.writes acc.decls
    none (stmt.expr.map (resolveExpr U scopePath slotIndex))

/-- The slots that the statements of a segment write or declare. -/
def segmentWrites (seg : Segment) : List Text :=
  seg.stmts.flatMap fun stmt =>
    let row := stmtToRow U slotIndex stmt seg.id seg.scopePath
    row.writes ++ row.decls

/-! ### Added rows -/

/-- The text of an added row. -/
def phiText (slot : Text) : Text := lit "phi(" ++ slot ++ lit ")"

/-- The rows where the arms of a branch come together: one for every slot that the statements of an
arm write, with the scopes of these arms. -/
def phiRowsForBranchGroup (branchChildIds : List ℕ) : List Row :=
  let writes := (branchChildIds.filterMap (segById segments)).flatMap fun child =>
    (segmentWrites U slotIndex child).map fun slot => (slot, child.scopePath)
  (Dict.collect writes).entries.map fun p =>
    makeRow .phi none none (phiText p.1) p.2 [p.1] [] (some .branchReconvergence)

/-- The slots that the statements of a segment and of the segments below it write or declare;
`fuel` bounds the nesting. -/
def collectWritesInSubtree : ℕ → ℕ → List Text
  | 0, _ => []
  | fuel + 1, segId =>
    (segById segments segId).elim [] (segmentWrites U slotIndex) ++
      (buildChildren segments segId).flatMap (collectWritesInSubtree fuel)

/-- The rows where a loop begins: one for every slot that is written anywhere in it. -/
def phiRowsForLoop (fuel : ℕ) (loopSeg : Segment) : List Row :=
  (sortTexts (collectWritesInSubtree U segments slotIndex fuel loopSeg.id).eraseDups).map
    fun slot => makeRow .phi (some loopSeg.id) (some loopSeg.scopePath) (phiText slot) [slot]
      [slot] [] (some .loopEntry)

/-! ### The walk -/

/-- Does a statement take a child? -/
def Statement.takesChild (stmt : Statement) : Bool := !stmt.kind.isPlain

/-- How far a walk through a segment has come: the rows so far, and the arms of the branch that is
not closed yet. -/
structure WalkState where
  rows : List Row := []
  branchGroup : List ℕ := []

/-- Close the branch. -/
def WalkState.flushBranchGroup (w : WalkState) : WalkState :=
  { rows := w.rows ++ phiRowsForBranchGroup U segments slotIndex w.branchGroup }

/-- Add rows. -/
def WalkState.extend (w : WalkState) (rows : List Row) : WalkState :=
  { w with rows := w.rows ++ rows }

variable (walk : ℕ → Option (List Row))

/-- Walk into a child of a segment. -/
def walkChild (w : WalkState) (childId : ℕ) : Option WalkState := do
  let child ← segById segments childId
  let rows ← walk childId
  if child.type = .branch then
    some { rows := w.rows ++ rows, branchGroup := w.branchGroup ++ [childId] }
  else some ((w.flushBranchGroup U segments slotIndex).extend rows)

/-- Walk through a statement, with the child that it gets. -/
def walkStmt (seg : Segment) (w : WalkState) (p : Statement × Option ℕ) : Option WalkState :=
  let row := stmtToRow U slotIndex p.1 seg.id seg.scopePath
  if p.1.takesChild then
    match p.2 with
    | some childId => walkChild U segments slotIndex walk (w.extend [row]) childId
    | none => some (w.extend [row])
  else some ((w.flushBranchGroup U segments slotIndex).extend [row])

/-- Walk through some statements of a segment. What is returned with the rows are the children
left. -/
def walkStmts (seg : Segment) :
    List Statement → List ℕ → WalkState → Option (WalkState × List ℕ)
  | [], children, w => some (w, children)
  | stmt :: stmts, children, w =>
    if stmt.takesChild then
      (walkStmt U segments slotIndex walk seg w (stmt, children.head?)).bind
        (walkStmts seg stmts children.tail)
    else
      (walkStmt U segments slotIndex walk seg w (stmt, none)).bind (walkStmts seg stmts children)

/-- Walk through the segments of a list, one after the other. -/
def walkAll (ids : List ℕ) : Option (List Row) :=
  (ids.mapM walk).map List.flatten

/-- Walk through a segment and the segments below it; `fuel` bounds the nesting. -/
def walkSegment : ℕ → ℕ → Option (List Row)
  | 0, _ => none
  | fuel + 1, segId => do
    let seg ← segById segments segId
    let entry := if seg.type = .loop then phiRowsForLoop U segments slotIndex fuel.succ seg else []
    let p ← walkStmts U segments slotIndex (walkSegment fuel) seg seg.stmts
      (buildChildren segments segId) { rows := entry }
    let left ← walkAll (walkSegment fuel) p.2
    some ((p.1.flushBranchGroup U segments slotIndex).rows ++ left)

/-- A dependency matrix. -/
structure Matrix where
  slots : List Text
  rows : List Row

/-- The rows of a root segment and of the segments below it. -/
def walkRoot (rootId : ℕ) : Option (List Row) := do
  let root ← segById segments rootId
  let rows ← walkAll (walkSegment U segments slotIndex segments.length)
    (buildChildren segments rootId)
  some (root.stmts.map (fun stmt => stmtToRow U slotIndex stmt rootId root.scopePath) ++ rows)

/-- The dependency matrix of some segments. -/
def buildMatrix : Option Matrix := do
  let slots := allScopedSlots segments
  let rootIds := ((segments.filter fun seg => seg.id = seg.parent).map
    Segment.id).insertionSort (· ≤ ·)
  let rows ← walkAll (walkRoot U segments slots) rootIds
  some { slots, rows }

/-! ### Which child a statement gets -/

/-- The statements of a segment, each with the child that it gets. -/
def takenChildren (segments : List Segment) (seg : Segment) : List (Statement × Option ℕ) :=
  deal Statement.takesChild seg.stmts (buildChildren segments seg.id)

variable {U segments slotIndex walk}

/-- **The children in order.** The walk gives the children to the branches and loops in order,
whatever it finds. -/
theorem walkStmts_eq_walkPairs (seg : Segment) (stmts : List Statement) (children : List ℕ)
    (w : WalkState) :
    walkStmts U segments slotIndex walk seg stmts children w
      = ((deal Statement.takesChild stmts children).foldlM
          (walkStmt U segments slotIndex walk seg) w).map
        fun w => (w, children.drop (stmts.countP Statement.takesChild)) := by
  induction stmts generalizing children w with
  | nil => rfl
  | cons stmt stmts ih =>
    by_cases htakes : stmt.takesChild
    · rw [walkStmts, if_pos htakes, deal_cons_pos _ htakes, List.foldlM_cons,
        List.countP_cons_of_pos htakes, Option.bind_eq_bind, Option.map_bind]
      refine Option.bind_congr fun w' _ => ?_
      rw [ih, List.drop_tail]
      rfl
    · rw [walkStmts, if_neg htakes, deal_cons_neg _ htakes, List.foldlM_cons,
        List.countP_cons_of_neg htakes, Option.bind_eq_bind, Option.map_bind]
      exact Option.bind_congr fun w' _ => ih children w'

/-! ### All rows -/

section AllRows

variable {p : Row → Prop}
  (hstmt : ∀ seg ∈ segments, ∀ stmt ∈ seg.stmts, p (stmtToRow U slotIndex stmt seg.id seg.scopePath))
  (hbranch : ∀ group, ∀ row ∈ phiRowsForBranchGroup U segments slotIndex group, p row)
  (hloop : ∀ fuel, ∀ seg ∈ segments, ∀ row ∈ phiRowsForLoop U segments slotIndex fuel seg, p row)

include hbranch

theorem forall_rows_flush {w : WalkState} (hw : ∀ row ∈ w.rows, p row) :
    ∀ row ∈ (w.flushBranchGroup U segments slotIndex).rows, p row := by
  intro row hrow
  rcases List.mem_append.mp hrow with hrow | hrow
  · exact hw row hrow
  · exact hbranch _ row hrow

include hstmt

theorem forall_rows_walkStmt (hwalk : ∀ c rows, walk c = some rows → ∀ row ∈ rows, p row)
    {seg : Segment} (hseg : seg ∈ segments) {q : Statement × Option ℕ} (hq : q.1 ∈ seg.stmts)
    {w w' : WalkState} (hw : ∀ row ∈ w.rows, p row)
    (h : walkStmt U segments slotIndex walk seg w q = some w') : ∀ row ∈ w'.rows, p row := by
  have hrow := hstmt seg hseg q.1 hq
  have hextend : ∀ {w : WalkState}, (∀ row ∈ w.rows, p row) →
      ∀ row ∈ (w.extend [stmtToRow U slotIndex q.1 seg.id seg.scopePath]).rows, p row := by
    intro w hw row hmem
    rcases List.mem_append.mp hmem with hmem | hmem
    · exact hw row hmem
    · exact List.mem_singleton.mp hmem ▸ hrow
  dsimp only [walkStmt] at h
  split_ifs at h
  · split at h
    · obtain ⟨child, -, h⟩ := Option.bind_eq_some_iff.mp h
      obtain ⟨rows, hrows, h⟩ := Option.bind_eq_some_iff.mp h
      have hchild := hwalk _ _ hrows
      split_ifs at h
      · obtain rfl := Option.some.inj h
        exact List.forall_mem_append.mpr ⟨hextend hw, hchild⟩
      · obtain rfl := Option.some.inj h
        exact List.forall_mem_append.mpr ⟨forall_rows_flush hbranch (hextend hw), hchild⟩
    · obtain rfl := Option.some.inj h
      exact hextend hw
  · obtain rfl := Option.some.inj h
    exact hextend (forall_rows_flush hbranch hw)

theorem forall_rows_walkPairs (hwalk : ∀ c rows, walk c = some rows → ∀ row ∈ rows, p row)
    {seg : Segment} (hseg : seg ∈ segments) {pairs : List (Statement × Option ℕ)}
    (hpairs : ∀ q ∈ pairs, q.1 ∈ seg.stmts) {w w' : WalkState} (hw : ∀ row ∈ w.rows, p row)
    (h : pairs.foldlM (walkStmt U segments slotIndex walk seg) w = some w') :
    ∀ row ∈ w'.rows, p row := by
  induction pairs generalizing w with
  | nil =>
    obtain rfl := Option.some.inj h
    exact hw
  | cons q pairs ih =>
    rw [List.forall_mem_cons] at hpairs
    rw [List.foldlM_cons] at h
    obtain ⟨w₁, hfirst, hrest⟩ := Option.bind_eq_some_iff.mp h
    exact ih hpairs.2 (forall_rows_walkStmt hstmt hbranch hwalk hseg hpairs.1 hw hfirst) hrest

omit hstmt hbranch in
theorem forall_rows_walkAll (hwalk : ∀ c rows, walk c = some rows → ∀ row ∈ rows, p row)
    {ids : List ℕ} {rows : List Row} (h : walkAll walk ids = some rows) : ∀ row ∈ rows, p row := by
  obtain ⟨parts, hparts, rfl⟩ := Option.map_eq_some_iff.mp h
  induction ids generalizing parts with
  | nil =>
    obtain rfl := Option.some.inj hparts
    simp
  | cons c ids ih =>
    rw [List.mapM_cons] at hparts
    obtain ⟨rows, hrows, hparts⟩ := Option.bind_eq_some_iff.mp hparts
    obtain ⟨rest, hrest, heq⟩ := Option.bind_eq_some_iff.mp hparts
    obtain rfl := Option.some.inj heq
    rw [List.flatten_cons]
    exact List.forall_mem_append.mpr
      ⟨hwalk c rows hrows, ih rest hrest (Option.map_eq_some_iff.mpr ⟨rest, hrest, rfl⟩)⟩

include hloop

theorem forall_rows_walkSegment {fuel segId : ℕ} {rows : List Row}
    (h : walkSegment U segments slotIndex fuel segId = some rows) : ∀ row ∈ rows, p row := by
  induction fuel generalizing segId rows with
  | zero => cases h
  | succ fuel ih =>
    obtain ⟨seg, hfound, h⟩ := Option.bind_eq_some_iff.mp h
    have hseg := mem_of_segById hfound
    dsimp only at h
    rw [walkStmts_eq_walkPairs] at h
    obtain ⟨⟨w, left⟩, hpairs, h⟩ := Option.bind_eq_some_iff.mp h
    obtain ⟨w', hfold, heq⟩ := Option.map_eq_some_iff.mp hpairs
    obtain ⟨rfl, rfl⟩ := Prod.mk.inj heq
    obtain ⟨rest, hrest, heq⟩ := Option.bind_eq_some_iff.mp h
    obtain rfl := Option.some.inj heq
    have hentry : ∀ row ∈ (if seg.type = .loop then
        phiRowsForLoop U segments slotIndex fuel.succ seg else []), p row := by
      split_ifs
      · exact hloop _ seg hseg
      · exact fun row hrow => absurd hrow List.not_mem_nil
    have hstmts : ∀ q ∈ deal Statement.takesChild seg.stmts (buildChildren segments segId),
        q.1 ∈ seg.stmts := by
      intro q hq
      have hfst := map_fst_deal Statement.takesChild seg.stmts (buildChildren segments segId)
      rw [← hfst]
      exact List.mem_map_of_mem hq
    have hwalked := forall_rows_walkPairs hstmt hbranch (fun c rows => ih) hseg hstmts hentry hfold
    exact List.forall_mem_append.mpr
      ⟨forall_rows_flush hbranch hwalked, forall_rows_walkAll (fun c rows => ih) hrest⟩

end AllRows

/-- **All rows.** What holds of the rows of statements and of the added rows holds of all rows. -/
theorem forall_rows_buildMatrix {p : Row → Prop} {m : Matrix}
    (h : buildMatrix U segments = some m)
    (hstmt : ∀ seg ∈ segments, ∀ stmt ∈ seg.stmts, p (stmtToRow U m.slots stmt seg.id seg.scopePath))
    (hbranch : ∀ group, ∀ row ∈ phiRowsForBranchGroup U segments m.slots group, p row)
    (hloop : ∀ fuel, ∀ seg ∈ segments, ∀ row ∈ phiRowsForLoop U segments m.slots fuel seg, p row) :
    ∀ row ∈ m.rows, p row := by
  obtain ⟨rows, hrows, heq⟩ := Option.bind_eq_some_iff.mp h
  obtain rfl := Option.some.inj heq
  refine forall_rows_walkAll (fun rootId rows hroot => ?_) hrows
  obtain ⟨root, hfound, hroot⟩ := Option.bind_eq_some_iff.mp hroot
  obtain ⟨below, hbelow, heq⟩ := Option.bind_eq_some_iff.mp hroot
  obtain rfl := Option.some.inj heq
  have hid : root.id = rootId := id_of_segById hfound
  refine List.forall_mem_append.mpr ⟨?_, ?_⟩
  · rw [List.forall_mem_map]
    exact fun stmt hs => hid ▸ hstmt root (mem_of_segById hfound) stmt hs
  · exact forall_rows_walkAll
      (fun c rows => forall_rows_walkSegment hstmt hbranch hloop) hbelow

end Walk

end Csc512
