import Csc512.Cdup.Matrix
import Mathlib.Logic.Relation

/-!
# The data-flow graph

A node for every row of the dependency matrix, and one for the entry of every function, structure
and root, which writes what comes from outside. One scan over the nodes draws an edge from the last
write of a slot to every read of it; where the arms of a branch come together, from the last write
in the scope of every arm. A last pass draws the edges back into the loops.

## Main results

* `dag_wellFormed` — edges carry slots that are written and read, none twice, and all but those into
  loops go forward
-/

namespace Csc512

/-- The classes of nodes. -/
inductive NodeKind where
  | row (kind : RowKind)
  | fileEntry | structDef | funcEntry
deriving DecidableEq, Repr

/-- Why there is a node that is no statement. -/
inductive NodeNote where
  | phi (note : RowNote)
  | synthetic
deriving DecidableEq, Repr

/-- A node. -/
structure Node where
  id : ℕ
  kind : NodeKind
  segId : Option ℕ
  scopePath : Option Text
  raw : Text
  reads : List Text
  writes : List Text
  decls : List Text
  note : Option NodeNote
  expr : Option Expr
deriving Repr

/-- The classes of edges. -/
inductive EdgeKind where
  | dataFlow | phiLoop | phiBranch
deriving DecidableEq, Repr

/-- An edge. -/
structure Edge where
  source : ℕ
  target : ℕ
  slot : Text
  kind : EdgeKind
deriving DecidableEq, Repr

/-- What tells edges apart. -/
def Edge.key (e : Edge) : ℕ × ℕ × Text := (e.source, e.target, e.slot)

/-- A data-flow graph. -/
structure Dag where
  nodes : List Node
  edges : List Edge

/-! ### Nodes -/

/-- The node of a row, without its number. -/
def Row.node (row : Row) : Node :=
  { id := 0, kind := .row row.kind, segId := row.segId, scopePath := row.scopePath, raw := row.raw,
    reads := row.reads, writes := row.writes, decls := row.decls, note := row.note.map .phi,
    expr := row.expr }

/-- The node at the entry of a segment, without its number. -/
def makeEntryNode (seg : Segment) : Node :=
  let writes := (seg.memory.filter Slot.param).map Slot.scopedName ++
    seg.constants.map Slot.scopedName
  { id := 0
    kind := match seg.type with
      | .root => .fileEntry
      | .struct => .structDef
      | _ => .funcEntry
    segId := some seg.id
    scopePath := some seg.scopePath
    raw := lit "entry(" ++ seg.scopePath ++ lit ")"
    reads := []
    writes
    decls := writes
    note := some .synthetic
    expr := none }

/-- Has a segment an entry node? -/
def SegType.hasEntry (type : SegType) : Bool :=
  type = .function || type = .root || type = .struct

/-- Where the entry nodes go: in front of the first node of their segment, or at the end if it has
none; the last place first. -/
def entryInsertions (segments : List Segment) (rawNodes : List Node) : List (ℕ × Node) :=
  ((segments.filter fun seg => seg.type.hasEntry).map fun seg =>
    (rawNodes.findIdx fun node => node.segId = some seg.id, makeEntryNode seg)).insertionSort
      fun a b => b.1 ≤ a.1

/-- Insert nodes one after the other. -/
def insertNodes (insertions : List (ℕ × Node)) (rawNodes : List Node) : List Node :=
  insertions.foldl (fun nodes p => nodes.insertIdx p.1 p.2) rawNodes

/-- Number the nodes. -/
def numberNodes (rawNodes : List Node) : List Node :=
  rawNodes.zipIdx.map fun p => { p.1 with id := p.2 }

/-- The nodes of a matrix. -/
def dagNodes (segments : List Segment) (rows : List Row) : List Node :=
  let rawNodes := rows.map Row.node
  numberNodes (insertNodes (entryInsertions segments rawNodes) rawNodes)

/-! ### Edges -/

/-- Add an edge, unless there is one with the same ends and the same slot. -/
def addEdge (edges : List Edge) (e : Edge) : List Edge :=
  if edges.any fun e' => e'.key = e.key then edges else edges ++ [e]

/-- Add an edge from a node, if there is one. -/
def addEdgeFrom (edges : List Edge) (source : Option ℕ) (target : ℕ) (slot : Text)
    (kind : EdgeKind) : List Edge :=
  match source with
  | some source => addEdge edges ⟨source, target, slot, kind⟩
  | none => edges

/-- How far the scan over the nodes has come: the edges, and the last writes of all slots, also by
scope. -/
structure DagScan where
  edges : List Edge := []
  lastWrite : Dict Text ℕ := Dict.empty
  scopeLastWrite : Dict (Text × Text) ℕ := Dict.empty

/-- Draw the edges to a node. -/
def DagScan.readEdges (scan : DagScan) (node : Node) : List Edge :=
  if node.note = some (.phi .branchReconvergence) then
    match node.writes.head? with
    | some slot => node.reads.foldl (fun edges scope =>
        addEdgeFrom edges (scan.scopeLastWrite.get? (scope, slot)) node.id slot .phiBranch) scan.edges
    | none => scan.edges
  else
    let kind := if node.note = some (.phi .loopEntry) then EdgeKind.phiLoop else .dataFlow
    node.reads.foldl (fun edges slot =>
      addEdgeFrom edges (scan.lastWrite.get? slot) node.id slot kind) scan.edges

/-- Draw the edges to a node, and remember what it writes. -/
def DagScan.read (scan : DagScan) (node : Node) : DagScan where
  edges := scan.readEdges node
  lastWrite := node.writes.foldl (fun d slot => d.upsert slot fun _ => node.id) scan.lastWrite
  scopeLastWrite :=
    match node.scopePath with
    | some scope => node.writes.foldl (fun d slot => d.upsert (scope, slot) fun _ => node.id)
        scan.scopeLastWrite
    | none => scan.scopeLastWrite

/-- Does a node write a slot in a loop, behind the node where the loop begins? -/
def writesInLoop (phi : Node) (slot : Text) (n : Node) : Bool :=
  phi.id < n.id && (n.scopePath.any fun scope => phi.scopePath.any fun loop =>
    loop.isPrefixOf scope) && slot ∈ n.writes

/-- The last node that writes a slot in a loop. -/
def lastInLoop (nodes : List Node) (phi : Node) (slot : Text) : Option ℕ :=
  ((nodes.filter (writesInLoop phi slot)).getLast?).map Node.id

/-- Draw the edges back to a node, if a loop begins there. -/
def addBackEdges (nodes : List Node) (edges : List Edge) (phi : Node) : List Edge :=
  if phi.note = some (.phi .loopEntry) then
    phi.writes.foldl (fun edges slot =>
      addEdgeFrom edges (lastInLoop nodes phi slot) phi.id slot .phiLoop) edges
  else edges

/-- The data-flow graph of some nodes. -/
def dagOfNodes (nodes : List Node) : Dag :=
  { nodes, edges := nodes.foldl (addBackEdges nodes) (nodes.foldl DagScan.read {}).edges }

/-- The data-flow graph of some segments and their matrix. -/
def buildDag (segments : List Segment) (matrix : Matrix) : Dag :=
  dagOfNodes (dagNodes segments matrix.rows)

/-! ### Numbers of nodes -/

theorem getElem?_numberNodes (rawNodes : List Node) (n : ℕ) :
    (numberNodes rawNodes)[n]? = rawNodes[n]?.map fun node => { node with id := n } := by
  rw [numberNodes, List.getElem?_map, List.getElem?_zipIdx, Nat.zero_add, Option.map_map]
  rfl

theorem id_of_numberNodes {rawNodes : List Node} {n : ℕ} {node : Node}
    (h : (numberNodes rawNodes)[n]? = some node) : node.id = n := by
  rw [getElem?_numberNodes, Option.map_eq_some_iff] at h
  obtain ⟨_, -, rfl⟩ := h
  rfl

/-- What holds of the nodes of rows and of entry nodes, whatever their numbers, holds of all
nodes. -/
theorem forall_dagNodes {p : Node → Prop} (hid : ∀ node id, p node → p { node with id })
    {segments : List Segment} {rows : List Row} (hrows : ∀ row ∈ rows, p row.node)
    (hentry : ∀ seg ∈ segments, p (makeEntryNode seg)) : ∀ node ∈ dagNodes segments rows, p node := by
  have hinsert : ∀ (insertions : List (ℕ × Node)) (nodes : List Node),
      (∀ q ∈ insertions, p q.2) → (∀ node ∈ nodes, p node) →
      ∀ node ∈ insertNodes insertions nodes, p node := by
    intro insertions
    induction insertions with
    | nil => exact fun nodes _ hnodes => hnodes
    | cons q insertions ih =>
      intro nodes hins hnodes
      rw [List.forall_mem_cons] at hins
      refine ih _ hins.2 fun node hnode => ?_
      by_cases hle : q.1 ≤ nodes.length
      · rcases (List.mem_insertIdx hle).mp hnode with rfl | hnode
        · exact hins.1
        · exact hnodes node hnode
      · have hsame := List.insertIdx_of_length_lt (Nat.lt_of_not_le hle) (x := q.2)
        exact hnodes node (hsame ▸ hnode)
  intro node hnode
  obtain ⟨q, hq, rfl⟩ := List.mem_map.mp hnode
  refine hid _ _ (hinsert _ _ (fun q hq => ?_) (fun node hnode => ?_) _
    (List.fst_mem_of_mem_zipIdx hq))
  · rw [entryInsertions, List.mem_insertionSort, List.mem_map] at hq
    obtain ⟨seg, hseg, rfl⟩ := hq
    exact hentry seg (List.mem_filter.mp hseg).1
  · obtain ⟨row, hrow, rfl⟩ := List.mem_map.mp hnode
    exact hrows row hrow

/-! ### Lists of edges -/

/-- Different edges, all with a property. -/
structure Edges (Q : Edge → Prop) (edges : List Edge) : Prop where
  all : ∀ e ∈ edges, Q e
  nodup : (edges.map Edge.key).Nodup

section Edges

variable {Q : Edge → Prop} {edges : List Edge}

theorem Edges.addEdge (h : Edges Q edges) {e : Edge} (he : Q e) : Edges Q (addEdge edges e) := by
  unfold Csc512.addEdge
  split_ifs with hany
  · exact h
  · refine ⟨List.forall_mem_append.mpr ⟨h.all, List.forall_mem_singleton.mpr he⟩, ?_⟩
    have hnew : e.key ∉ edges.map Edge.key := by
      rintro hmem
      obtain ⟨e', he', hkey⟩ := List.mem_map.mp hmem
      exact hany (List.any_eq_true.mpr ⟨e', he', decide_eq_true hkey⟩)
    rw [List.map_append, List.nodup_append]
    refine ⟨h.nodup, List.nodup_singleton _, fun k hk k' hk' heq => hnew ?_⟩
    obtain rfl : k' = e.key := List.mem_singleton.mp hk'
    exact heq ▸ hk

theorem Edges.addEdgeFrom (h : Edges Q edges) {source : Option ℕ} {target : ℕ} {slot : Text}
    {kind : EdgeKind} (he : ∀ n, source = some n → Q ⟨n, target, slot, kind⟩) :
    Edges Q (addEdgeFrom edges source target slot kind) := by
  cases source with
  | none => exact h
  | some n => exact h.addEdge (he n rfl)

/-- Adding edges one after the other. -/
theorem Edges.foldl {α : Type} (h : Edges Q edges) {add : List Edge → α → List Edge} {xs : List α}
    (hadd : ∀ edges, Edges Q edges → ∀ x ∈ xs, Edges Q (add edges x)) :
    Edges Q (xs.foldl add edges) := by
  induction xs generalizing edges with
  | nil => exact h
  | cons x xs ih =>
    exact ih (hadd edges h x List.mem_cons_self)
      fun edges h y hy => hadd edges h y (List.mem_cons_of_mem _ hy)

end Edges

/-! ### The edges of the scan -/

/-- An edge fits its ends: its slot is written at its source and read at its target, and it goes
forward, unless it leads back into a loop. -/
structure FitsEnds (a b : Node) (e : Edge) : Prop where
  writes : e.slot ∈ a.writes
  reads : e.slot ∈ b.reads ∨ b.note = some (.phi .branchReconvergence) ∧ e.slot ∈ b.writes
  forward : e.kind ≠ .phiLoop → e.source < e.target
  back : ¬ e.source < e.target → e.kind = .phiLoop ∧ b.note = some (.phi .loopEntry)

/-- An edge has two ends, and fits them. -/
def Fits (nodes : List Node) (e : Edge) : Prop :=
  ∃ a b, nodes[e.source]? = some a ∧ nodes[e.target]? = some b ∧ FitsEnds a b e

/-- A table of writes holds nodes before number `i` that write. -/
def WritesBefore {κ : Type} [DecidableEq κ] (nodes : List Node) (i : ℕ) (slot : κ → Text)
    (table : Dict κ ℕ) : Prop :=
  ∀ k n, table.get? k = some n → n < i ∧ ∃ a, nodes[n]? = some a ∧ slot k ∈ a.writes

/-- What the scan knows when it has read the nodes before number `i`. -/
structure DagScan.Valid (nodes : List Node) (i : ℕ) (scan : DagScan) : Prop where
  edges : Edges (Fits nodes) scan.edges
  lastWrite : WritesBefore nodes i id scan.lastWrite
  scopeLastWrite : WritesBefore nodes i Prod.snd scan.scopeLastWrite

/-- A node where a loop begins reads what it writes. -/
def Node.ReadsPhi (node : Node) : Prop :=
  node.note = some (.phi .loopEntry) → ∀ slot ∈ node.writes, slot ∈ node.reads

section Scan

variable {nodes : List Node} {i : ℕ} {node : Node}

/-- Remembering the writes of a node. -/
theorem WritesBefore.record {κ : Type} [DecidableEq κ] {slot : κ → Text} {table : Dict κ ℕ}
    (h : WritesBefore nodes i slot table) (hnode : nodes[i]? = some node) (key : Text → κ)
    (hkey : ∀ s, slot (key s) = s) :
    WritesBefore nodes (i + 1) slot
      (node.writes.foldl (fun d s => d.upsert (key s) fun _ => i) table) := by
  intro k n hn
  rw [Dict.get?_foldl_upsert_const] at hn
  split_ifs at hn with hmem
  · obtain rfl := Option.some.inj hn
    obtain ⟨s, hs, rfl⟩ := List.mem_map.mp hmem
    exact ⟨Nat.lt_succ_self _, node, hnode, (hkey s).symm ▸ hs⟩
  · obtain ⟨hlt, hwrites⟩ := h k n hn
    exact ⟨Nat.lt_succ_of_lt hlt, hwrites⟩

variable (hnode : nodes[i]? = some node) (hid : node.id = i)

include hnode hid

theorem DagScan.Valid.readEdges {scan : DagScan} (h : scan.Valid nodes i) :
    Edges (Fits nodes) (scan.readEdges node) := by
  unfold DagScan.readEdges
  by_cases hnote : node.note = some (.phi .branchReconvergence)
  · -- the arms of a branch come together here
    rw [if_pos hnote]
    cases hslot : node.writes.head? with
    | none => exact h.edges
    | some slot =>
      have hwrites : slot ∈ node.writes := List.mem_of_head? hslot
      refine h.edges.foldl fun edges hedges scope _ => hedges.addEdgeFrom fun n hn => ?_
      obtain ⟨hlt, a, ha, hslot⟩ := h.scopeLastWrite (scope, slot) n hn
      rw [hid]
      exact ⟨a, node, ha, hnode, hslot, Or.inr ⟨hnote, hwrites⟩, fun _ => hlt,
        fun hge => absurd hlt hge⟩
  · rw [if_neg hnote]
    refine h.edges.foldl fun edges hedges slot hread => hedges.addEdgeFrom fun n hn => ?_
    obtain ⟨hlt, a, ha, hslot⟩ := h.lastWrite slot n hn
    rw [hid]
    exact ⟨a, node, ha, hnode, hslot, Or.inl hread, fun _ => hlt, fun hge => absurd hlt hge⟩

theorem DagScan.Valid.read {scan : DagScan} (h : scan.Valid nodes i) :
    (scan.read node).Valid nodes (i + 1) := by
  refine ⟨h.readEdges hnode hid, ?_, ?_⟩
  · dsimp only [DagScan.read]
    rw [hid]
    exact h.lastWrite.record hnode id fun _ => rfl
  · dsimp only [DagScan.read]
    rw [hid]
    cases node.scopePath with
    | none => exact fun k n hn => (h.scopeLastWrite k n hn).imp_left Nat.lt_succ_of_lt
    | some scope => exact h.scopeLastWrite.record hnode (fun slot => (scope, slot)) fun _ => rfl

omit hnode hid in
/-- The scan over all nodes. -/
theorem valid_scan (hids : ∀ (n : ℕ) node, nodes[n]? = some node → node.id = n) :
    (nodes.foldl DagScan.read {}).Valid nodes nodes.length := by
  have hprefix : ∀ front back, front ++ back = nodes →
      (front.foldl DagScan.read {}).Valid nodes front.length := by
    intro front
    induction front using List.reverseRecOn with
    | nil =>
      intro back _
      exact ⟨⟨fun e he => absurd he List.not_mem_nil, List.nodup_nil⟩,
        fun k n hn => by simp at hn, fun k n hn => by simp at hn⟩
    | append_singleton front node ih =>
      intro back heq
      have hnode : nodes[front.length]? = some node := by
        rw [← heq, List.append_assoc, List.getElem?_append_right le_rfl, Nat.sub_self]
        rfl
      rw [List.foldl_append, List.length_append]
      exact (ih (node :: back) (by simpa using heq)).read hnode (hids _ _ hnode)
  exact hprefix nodes [] (List.append_nil _)

end Scan

/-- The last node that writes a slot in a loop is such a node. -/
theorem lastInLoop_spec {nodes : List Node} {phi : Node} {slot : Text} {n : ℕ}
    (h : lastInLoop nodes phi slot = some n) : ∃ a ∈ nodes, a.id = n ∧ writesInLoop phi slot a := by
  obtain ⟨a, ha, rfl⟩ := Option.map_eq_some_iff.mp h
  obtain ⟨hmem, hwrites⟩ := List.mem_filter.mp (List.mem_of_getLast? ha)
  exact ⟨a, hmem, rfl, hwrites⟩

/-- The graph of nodes that are numbered and read what they write where loops begin. -/
theorem edges_dagOfNodes {nodes : List Node} (hids : ∀ (n : ℕ) node, nodes[n]? = some node → node.id = n)
    (hphis : ∀ node ∈ nodes, node.ReadsPhi) : Edges (Fits nodes) (dagOfNodes nodes).edges := by
  refine (valid_scan hids).edges.foldl fun edges hedges phi hphi => ?_
  unfold addBackEdges
  split_ifs with hnote
  · refine hedges.foldl fun edges hedges slot hslot => hedges.addEdgeFrom fun n hn => ?_
    obtain ⟨a, ha, rfl, hwrites⟩ := lastInLoop_spec hn
    simp only [writesInLoop, Bool.and_eq_true, decide_eq_true_eq] at hwrites
    obtain ⟨k, hk⟩ := List.mem_iff_getElem?.mp ha
    obtain ⟨k', hk'⟩ := List.mem_iff_getElem?.mp hphi
    obtain rfl := hids k a hk
    obtain rfl := hids k' phi hk'
    exact ⟨a, phi, hk, hk', hwrites.2, Or.inl (hphis phi hphi hnote slot hslot),
      fun hkind => absurd rfl hkind, fun _ => ⟨rfl, hnote⟩⟩
  · exact hedges

/-! ### Well-formed graphs -/

/-- A well-formed graph: its nodes are numbered, its edges fit their ends, none occurs twice, and
without the edges into loops it has no cycles. -/
structure Dag.WellFormed (dag : Dag) : Prop where
  ids : ∀ (n : ℕ) node, dag.nodes[n]? = some node → node.id = n
  fits : ∀ e ∈ dag.edges, Fits dag.nodes e
  nodup : (dag.edges.map Edge.key).Nodup
  acyclic : ∀ n, ¬ Relation.TransGen
    (fun a b => ∃ e ∈ dag.edges, e.kind ≠ .phiLoop ∧ e.source = a ∧ e.target = b) n n

/-- Edges that go forward make no cycle. -/
theorem not_transGen_of_forward {R : ℕ → ℕ → Prop} (h : ∀ a b, R a b → a < b) (n : ℕ) :
    ¬ Relation.TransGen R n n := by
  have hlt : ∀ a b, Relation.TransGen R a b → a < b := by
    intro a b hab
    induction hab with
    | single hstep => exact h _ _ hstep
    | tail _ hstep ih => exact Nat.lt_trans ih (h _ _ hstep)
  exact fun hcycle => Nat.lt_irrefl n (hlt n n hcycle)

variable (U : CharTable)

/-- **Data-flow graphs are well-formed.** -/
theorem dag_wellFormed (segments : List Segment) (matrix : Matrix)
    (h : buildMatrix U segments = some matrix) : (buildDag segments matrix).WellFormed := by
  have hids : ∀ (n : ℕ) node, (dagNodes segments matrix.rows)[n]? = some node → node.id = n :=
    fun n node => id_of_numberNodes
  have hphis : ∀ node ∈ dagNodes segments matrix.rows, node.ReadsPhi := by
    refine forall_dagNodes (fun _ _ h => h) (fun row hrow => ?_) fun seg _ hnote => ?_
    · refine forall_rows_buildMatrix (p := fun row => row.node.ReadsPhi) h ?_ ?_ ?_ row hrow
      · intro seg _ stmt _ hnote
        cases hnote
      · intro group row hrow hnote
        obtain ⟨q, -, rfl⟩ := List.mem_map.mp hrow
        cases hnote
      · intro fuel seg _ row hrow _ slot hslot
        obtain ⟨s, -, rfl⟩ := List.mem_map.mp hrow
        exact hslot
    · cases hnote
  have hedges := edges_dagOfNodes hids hphis
  refine ⟨hids, hedges.all, hedges.nodup, not_transGen_of_forward ?_⟩
  rintro a b ⟨e, he, hkind, rfl, rfl⟩
  obtain ⟨_, _, -, -, hfits⟩ := hedges.all e he
  exact hfits.forward hkind

/-- A function with a loop that counts its parameter down. -/
def countdownSegs : List Segment :=
  let param : Slot :=
    { name := lit "n", scopedName := lit "root.f.n", type := lit "int", param := true }
  [{ id := 0, parent := 0, type := .root, name := lit "root", scopePath := lit "root", head := none,
     stmts := [{ raw := lit "void f(int n) {}", kind := .funcDecl, lName := some (lit "f") }] },
   { id := 1, parent := 0, type := .function, name := lit "f", scopePath := lit "root.f",
     head := some (lit "void f(int n) {}"), memory := [param],
     stmts := [{ raw := lit "while (n) {}", kind := .loopHead, rNames := [lit "n"] }] },
   { id := 2, parent := 1, type := .loop, name := lit "loop_1", scopePath := lit "root.f.loop_1",
     head := some (lit "while (n) {}"),
     stmts := [{ raw := lit "n--;", kind := .assign, lName := some (lit "n"),
                 rNames := [lit "n"] }] }]

theorem isSome_buildMatrix_countdownSegs : (buildMatrix .ascii countdownSegs).isSome := by
  decide +kernel

theorem dag_wellFormed_countdown : ∃ matrix, buildMatrix .ascii countdownSegs = some matrix ∧
    (buildDag countdownSegs matrix).edges.map Edge.key
      = [(2, 3, lit "root.f.n"), (2, 4, lit "root.f.n"), (4, 5, lit "root.f.n"),
        (5, 4, lit "root.f.n")] ∧
    (buildDag countdownSegs matrix).WellFormed := by
  have h := (Option.some_get isSome_buildMatrix_countdownSegs).symm
  exact ⟨_, h, by decide +kernel, dag_wellFormed .ascii countdownSegs _ h⟩

end Csc512
