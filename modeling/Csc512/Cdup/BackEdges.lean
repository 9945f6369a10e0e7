import Csc512.Cdup.Dag
import Csc512.Cdup.ScopePaths

/-!
# Edges back into loops

The edge back to the node where a loop begins comes from the last node in the loop that writes the
slot. What counts as being in the loop is decided by the scope path, which must begin with the path
of the loop, character by character. The path of `loop_10` begins with that of `loop_1`, and blocks
without headers share their paths. Such a node is only harmless when the loop itself writes the slot
later.

## Main results

* `backEdge_iff` — the edges of a graph that go back
* `backEdgeRight_iff` — when the edge back comes from the last write in the loop
* `not_backEdgeRight` — loops in two blocks without headers
-/

namespace Csc512

/-! ### Edges that go back -/

theorem subset_addEdge (edges : List Edge) (e : Edge) : edges ⊆ addEdge edges e := by
  rw [addEdge]
  split_ifs
  · exact List.Subset.refl _
  · exact List.subset_append_left _ _

theorem subset_addEdgeFrom (edges : List Edge) (source : Option ℕ) (target : ℕ) (slot : Text)
    (kind : EdgeKind) : edges ⊆ addEdgeFrom edges source target slot kind := by
  cases source with
  | none => exact List.Subset.refl _
  | some n => exact subset_addEdge edges _

/-- There is an edge with this key afterwards. -/
theorem exists_key_addEdge (edges : List Edge) (e : Edge) :
    ∃ e' ∈ addEdge edges e, e'.key = e.key := by
  rw [addEdge]
  split_ifs with hany
  · obtain ⟨e', he', hkey⟩ := List.any_eq_true.mp hany
    exact ⟨e', he', of_decide_eq_true hkey⟩
  · exact ⟨e, List.mem_append_right _ List.mem_cons_self, rfl⟩

section Folds

variable {α : Type} {add : List Edge → α → List Edge} (hsub : ∀ edges x, edges ⊆ add edges x)

include hsub

theorem subset_foldl_add (xs : List α) (edges : List Edge) : edges ⊆ xs.foldl add edges := by
  induction xs generalizing edges with
  | nil => exact List.Subset.refl _
  | cons x xs ih => exact List.Subset.trans (hsub edges x) (ih _)

/-- What is added on the way is there at the end. -/
theorem exists_key_foldl_add {key : ℕ × ℕ × Text} {x : α} {xs : List α} (hx : x ∈ xs)
    (hkey : ∀ edges, ∃ e ∈ add edges x, e.key = key) (edges : List Edge) :
    ∃ e ∈ xs.foldl add edges, e.key = key := by
  induction xs generalizing edges with
  | nil => cases hx
  | cons y ys ih =>
    rcases List.mem_cons.mp hx with rfl | hx
    · obtain ⟨e, he, hkey⟩ := hkey edges
      exact ⟨e, subset_foldl_add hsub ys _ he, hkey⟩
    · exact ih hx _

end Folds

theorem subset_addBackEdges (nodes : List Node) (edges : List Edge) (phi : Node) :
    edges ⊆ addBackEdges nodes edges phi := by
  rw [addBackEdges]
  split_ifs
  · exact subset_foldl_add (fun edges slot => subset_addEdgeFrom edges _ _ slot _) _ _
  · exact List.Subset.refl _

section Graph

variable {nodes : List Node}

theorem eq_of_id_eq (hids : ∀ (n : ℕ) node, nodes[n]? = some node → node.id = n) {a b : Node}
    (ha : a ∈ nodes) (hb : b ∈ nodes) (h : a.id = b.id) : a = b := by
  obtain ⟨i, hi⟩ := List.mem_iff_getElem?.mp ha
  obtain ⟨j, hj⟩ := List.mem_iff_getElem?.mp hb
  rw [hids i a hi, hids j b hj] at h
  rw [h, hj] at hi
  exact (Option.some.inj hi).symm

/-- The edges of the scan go forward. -/
theorem forward_scan (hids : ∀ (n : ℕ) node, nodes[n]? = some node → node.id = n) :
    Edges (fun e => e.source < e.target) (nodes.foldl DagScan.read {}).edges := by
  induction nodes using List.reverseRecOn with
  | nil => exact ⟨fun e he => absurd he List.not_mem_nil, List.nodup_nil⟩
  | append_singleton front node ih =>
    have hfront : ∀ (n : ℕ) a, front[n]? = some a → a.id = n := fun n a ha =>
      hids n a (by rw [List.getElem?_append_left (List.getElem?_eq_some_iff.mp ha).1, ha])
    have hid : node.id = front.length := hids _ _ (by
      rw [List.getElem?_append_right le_rfl, Nat.sub_self]
      rfl)
    have hvalid := valid_scan hfront
    rw [List.foldl_append]
    show Edges _ ((front.foldl DagScan.read {}).readEdges node)
    rw [DagScan.readEdges]
    by_cases hnote : node.note = some (.phi .branchReconvergence)
    · rw [if_pos hnote]
      cases node.writes.head? with
      | none => exact ih hfront
      | some slot =>
        exact (ih hfront).foldl fun edges hedges scope _ => hedges.addEdgeFrom fun n hn =>
          hid ▸ (hvalid.scopeLastWrite (scope, slot) n hn).1
    · rw [if_neg hnote]
      exact (ih hfront).foldl fun edges hedges slot _ => hedges.addEdgeFrom fun n hn =>
        hid ▸ (hvalid.lastWrite slot n hn).1

/-- A loop begins at a node, and the last write of the slot in it is here. -/
structure LeadsBack (nodes : List Node) (phi : Node) (slot : Text) (source : ℕ) : Prop where
  note : phi.note = some (.phi .loopEntry)
  writes : slot ∈ phi.writes
  source : lastInLoop nodes phi slot = some source

/-- **The edges that go back** lead to nodes where loops begin. -/
theorem backEdge_iff (hids : ∀ (n : ℕ) node, nodes[n]? = some node → node.id = n) {source : ℕ}
    {phi : Node} (hphi : phi ∈ nodes) (slot : Text) (hback : phi.id < source) :
    (∃ e ∈ (dagOfNodes nodes).edges, e.key = (source, phi.id, slot)) ↔
      LeadsBack nodes phi slot source := by
  constructor
  · rintro ⟨e, he, hkey⟩
    have hall : Edges (fun e => e.source < e.target ∨
        ∃ phi ∈ nodes, phi.id = e.target ∧ LeadsBack nodes phi e.slot e.source)
        (dagOfNodes nodes).edges := by
      refine Edges.foldl ⟨fun e he => .inl ((forward_scan hids).all e he), (forward_scan hids).nodup⟩
        fun edges hedges phi hphi => ?_
      rw [addBackEdges]
      split_ifs with hnote
      · exact hedges.foldl fun edges hedges slot hslot => hedges.addEdgeFrom fun n hn =>
          .inr ⟨phi, hphi, rfl, hnote, hslot, hn⟩
      · exact hedges
    obtain ⟨hsource, htarget, hslot⟩ := Prod.mk.injEq .. ▸ (Prod.mk.injEq .. ▸ hkey)
    rcases hall.all e he with hlt | ⟨phi', hphi', hid, hleads⟩
    · omega
    · obtain rfl := eq_of_id_eq hids hphi' hphi (hid.trans htarget)
      exact hslot ▸ hsource ▸ hleads
  · rintro ⟨hnote, hslot, hsource⟩
    refine exists_key_foldl_add (subset_addBackEdges nodes) hphi (fun edges => ?_) _
    rw [addBackEdges, if_pos hnote]
    refine exists_key_foldl_add (fun edges slot => subset_addEdgeFrom edges _ _ slot _) hslot
      (fun edges => ?_) _
    rw [hsource]
    exact exists_key_addEdge edges _

end Graph

/-! ### The last write in a loop -/

theorem pairwise_id {nodes : List Node}
    (hids : ∀ (n : ℕ) node, nodes[n]? = some node → node.id = n) :
    nodes.Pairwise fun a b => a.id < b.id := by
  rw [List.pairwise_iff_getElem]
  intro i j hi hj hij
  rw [hids i _ (List.getElem?_eq_getElem hi), hids j _ (List.getElem?_eq_getElem hj)]
  exact hij

/-- The last node has the greatest number. -/
theorem lastInLoop_eq_some_iff {nodes : List Node}
    (hids : ∀ (n : ℕ) node, nodes[n]? = some node → node.id = n) {phi : Node} {slot : Text}
    {k : ℕ} : lastInLoop nodes phi slot = some k ↔
      ∃ a ∈ nodes, a.id = k ∧ writesInLoop phi slot a = true ∧
        ∀ b ∈ nodes, writesInLoop phi slot b = true → b.id ≤ k := by
  have hsorted := (pairwise_id hids).filter (writesInLoop phi slot)
  constructor
  · intro h
    obtain ⟨a, hlast, rfl⟩ := Option.map_eq_some_iff.mp h
    obtain ⟨ha, hwrites⟩ := List.mem_filter.mp (List.mem_of_getLast? hlast)
    refine ⟨a, ha, rfl, hwrites, fun b hb hwrites' => ?_⟩
    obtain ⟨front, hfront⟩ := List.getLast?_eq_some_iff.mp hlast
    have hmem := List.mem_filter.mpr ⟨hb, hwrites'⟩
    rw [hfront] at hmem hsorted
    rcases List.mem_append.mp hmem with hmem | hmem
    · exact ((List.pairwise_append.mp hsorted).2.2 b hmem a List.mem_cons_self).le
    · exact (List.mem_singleton.mp hmem ▸ le_rfl)
  · rintro ⟨a, ha, rfl, hwrites, hmax⟩
    have hmem : a ∈ nodes.filter (writesInLoop phi slot) := List.mem_filter.mpr ⟨ha, hwrites⟩
    rw [lastInLoop, List.getLast?_eq_getLast_of_ne_nil (List.ne_nil_of_mem hmem), Option.map_some]
    have hlast := List.getLast_mem (List.ne_nil_of_mem hmem)
    obtain ⟨hlast', hwrites'⟩ := List.mem_filter.mp hlast
    refine congrArg some (le_antisymm (hmax _ hlast' hwrites') ?_)
    obtain ⟨front, hfront⟩ := List.getLast?_eq_some_iff.mp
      (List.getLast?_eq_getLast_of_ne_nil (List.ne_nil_of_mem hmem))
    rw [hfront] at hsorted
    rw [hfront] at hmem
    rcases List.mem_append.mp hmem with hmem | hmem
    · exact ((List.pairwise_append.mp hsorted).2.2 a hmem _ List.mem_cons_self).le
    · exact (List.mem_singleton.mp hmem ▸ le_rfl)

/-! ### The segments in a loop -/

/-- A segment is the segment `top` or lies inside it. -/
inductive Nested (segments : List Segment) (top : ℕ) : ℕ → Prop
  | top : Nested segments top top
  | inside {seg : Segment} (hseg : seg ∈ segments) (h : Nested segments top seg.parent) :
    Nested segments top seg.id

/-- A node belongs to the segment of a loop or to a segment inside it. -/
def InSubtree (segments : List Segment) (phi n : Node) : Prop :=
  ∃ top i, phi.segId = some top ∧ n.segId = some i ∧ Nested segments top i

theorem intercalate_prefix (names rest : List Text) :
    ['.'].intercalate names <+: ['.'].intercalate (names ++ rest) := by
  induction names with
  | nil => exact List.nil_prefix
  | cons name names ih =>
    cases names with
    | nil =>
      cases rest with
      | nil => exact List.prefix_rfl
      | cons next rest =>
        show name ++ [] <+: name ++ ('.' :: ['.'].intercalate (next :: rest))
        exact (List.prefix_append_right_inj name).mpr List.nil_prefix
    | cons next names =>
      show name ++ '.' :: ['.'].intercalate (next :: names)
        <+: name ++ '.' :: ['.'].intercalate (next :: names ++ rest)
      exact (List.prefix_append_right_inj name).mpr (List.cons_prefix_cons.mpr ⟨rfl, ih⟩)

section Parsed

variable {U : CharTable} {P : SegmentStmts Char}

/-- The way to a segment goes through the segments around it. -/
theorem Nested.wayNames_prefix (hparents : ParentsBefore P) {top i : ℕ}
    (h : Nested (buildSegments U P) top i) : wayNames U P top <+: wayNames U P i := by
  induction h with
  | top => exact List.prefix_rfl
  | @inside seg hseg _ ih =>
    obtain ⟨hlt, earlier, hbuild⟩ := exists_of_mem_buildSegments hseg
    have hparent : seg.parent = P.parents.getD seg.id 0 := by rw [hbuild]; rfl
    rw [hparent] at ih
    rcases Nat.eq_zero_or_pos seg.id with hzero | hpos
    · rwa [hzero, hparents.root, ← hzero] at ih
    · rw [wayNames_pos hparents hpos hlt]
      exact ih.trans (List.prefix_append _ _)

/-- The scope path of a segment begins with the paths of the segments around it. -/
theorem Nested.scopePath_prefix (hparents : ParentsBefore P) {outer inner : Segment}
    (houter : outer ∈ buildSegments U P) (hinner : inner ∈ buildSegments U P)
    (h : Nested (buildSegments U P) outer.id inner.id) : outer.scopePath <+: inner.scopePath := by
  obtain ⟨-, _, hbuild⟩ := exists_of_mem_buildSegments houter
  obtain ⟨-, _, hbuild'⟩ := exists_of_mem_buildSegments hinner
  obtain ⟨rest, hrest⟩ := h.wayNames_prefix hparents
  rw [hbuild, hbuild', scopePath_buildSegment, scopePath_buildSegment, ← hrest]
  exact intercalate_prefix _ rest

end Parsed

/-- A node that belongs to a segment has its path. -/
def Node.Placed (segments : List Segment) (node : Node) : Prop :=
  ∀ i, node.segId = some i → ∃ seg ∈ segments, seg.id = i ∧ node.scopePath = some seg.scopePath

theorem placed_dagNodes {U : CharTable} {segments : List Segment} {matrix : Matrix}
    (h : buildMatrix U segments = some matrix) :
    ∀ node ∈ dagNodes segments matrix.rows, node.Placed segments := by
  refine forall_dagNodes (fun _ _ h => h) (fun row hrow => ?_) fun seg hseg i hi => ?_
  · refine forall_rows_buildMatrix (p := fun row => row.node.Placed segments) h ?_ ?_ ?_ row hrow
    · intro seg hseg stmt _ i hi
      exact ⟨seg, hseg, Option.some.inj hi, rfl⟩
    · intro group row hrow i hi
      obtain ⟨q, -, rfl⟩ := List.mem_map.mp hrow
      cases hi
    · intro fuel seg hseg row hrow i hi
      obtain ⟨s, -, rfl⟩ := List.mem_map.mp hrow
      exact ⟨seg, hseg, Option.some.inj hi, rfl⟩
  · exact ⟨seg, hseg, Option.some.inj hi, rfl⟩

/-! ### Where the edges back come from -/

/-- The edge back into a loop for a slot comes from the last node in the loop that writes the
slot. -/
def BackEdgeRight (segments : List Segment) (dag : Dag) (phi : Node) (slot : Text) : Prop :=
  ∀ e ∈ dag.edges, e.target = phi.id → e.slot = slot → phi.id < e.source →
    ∃ n ∈ dag.nodes, n.id = e.source ∧ InSubtree segments phi n ∧ slot ∈ n.writes ∧
      ∀ m ∈ dag.nodes, InSubtree segments phi m → slot ∈ m.writes → m.id ≤ n.id

/-- A node that is taken for a node of the loop, and writes the slot, is followed by a node of the
loop that does. -/
def StrangersOvertaken (segments : List Segment) (nodes : List Node) (phi : Node) (slot : Text) :
    Prop :=
  ∀ n ∈ nodes, writesInLoop phi slot n = true → ¬ InSubtree segments phi n →
    ∃ m ∈ nodes, InSubtree segments phi m ∧ slot ∈ m.writes ∧ n.id < m.id

section Right

variable {U : CharTable} {opts : Includes} {file : Text} {segments : List Segment} {matrix : Matrix}

/-- What is in the loop and behind its beginning is found by its path. -/
theorem writesInLoop_of_inSubtree (hparse : parseCFile U opts file = some segments)
    (hmatrix : buildMatrix U segments = some matrix) {phi n : Node} {slot : Text}
    (hphi : phi ∈ dagNodes segments matrix.rows) (hn : n ∈ dagNodes segments matrix.rows)
    (hin : InSubtree segments phi n) (hwrites : slot ∈ n.writes) (hlt : phi.id < n.id) :
    writesInLoop phi slot n = true := by
  obtain ⟨P, hP, rfl⟩ := Option.map_eq_some_iff.mp hparse
  obtain ⟨top, i, htop, hi, hnested⟩ := hin
  obtain ⟨outer, houter, rfl, hpath⟩ := placed_dagNodes hmatrix phi hphi top htop
  obtain ⟨inner, hinner, rfl, hpath'⟩ := placed_dagNodes hmatrix n hn i hi
  have hprefix := hnested.scopePath_prefix (.of_segmentStmts hP) houter hinner
  simp [writesInLoop, hlt, hpath, hpath', hprefix, hwrites]

/-- **The edge back comes from the loop** if and only if the loop has the last word over all nodes
whose path begins with its own. -/
theorem backEdgeRight_iff (hparse : parseCFile U opts file = some segments)
    (hmatrix : buildMatrix U segments = some matrix) {phi : Node} {slot : Text}
    (hphi : phi ∈ (buildDag segments matrix).nodes) (hnote : phi.note = some (.phi .loopEntry))
    (hslot : slot ∈ phi.writes) :
    BackEdgeRight segments (buildDag segments matrix) phi slot ↔
      StrangersOvertaken segments (buildDag segments matrix).nodes phi slot := by
  have hids : ∀ (n : ℕ) node, (dagNodes segments matrix.rows)[n]? = some node → node.id = n :=
    fun n node => id_of_numberNodes
  have hback : ∀ {source : ℕ}, phi.id < source →
      ((∃ e ∈ (dagOfNodes (dagNodes segments matrix.rows)).edges, e.key = (source, phi.id, slot)) ↔
        LeadsBack (dagNodes segments matrix.rows) phi slot source) :=
    fun hlt => backEdge_iff hids hphi slot hlt
  constructor
  · intro hright n hn hwrites hout
    have hlt : phi.id < n.id := by
      simp only [writesInLoop, Bool.and_eq_true, decide_eq_true_eq] at hwrites
      exact hwrites.1.1
    -- there is an edge back, because `n` is a candidate
    obtain ⟨a, hlast⟩ : ∃ a, ((dagNodes segments matrix.rows).filter
        (writesInLoop phi slot)).getLast? = some a :=
      ⟨_, List.getLast?_eq_getLast_of_ne_nil
        (List.ne_nil_of_mem (List.mem_filter.mpr ⟨hn, hwrites⟩))⟩
    have hsource : lastInLoop (dagNodes segments matrix.rows) phi slot = some a.id :=
      congrArg (Option.map Node.id) hlast
    obtain ⟨b, hb, hid, -, hmax⟩ := (lastInLoop_eq_some_iff hids).mp hsource
    have hle : n.id ≤ a.id := hmax n hn hwrites
    have hfar : phi.id < a.id := hlt.trans_le hle
    obtain ⟨e, he, hkey⟩ := (hback hfar).mpr ⟨hnote, hslot, hsource⟩
    have hsource' : e.source = a.id := congrArg Prod.fst hkey
    have htarget : e.target = phi.id := congrArg (fun key => key.2.1) hkey
    have hslot' : e.slot = slot := congrArg (fun key => key.2.2) hkey
    obtain ⟨m, hm, hmid, hin, hmwrites, -⟩ := hright e he htarget hslot' (hsource' ▸ hfar)
    refine ⟨m, hm, hin, hmwrites, lt_of_le_of_ne (hmid ▸ hsource' ▸ hle) fun hsame => hout ?_⟩
    exact eq_of_id_eq hids hn hm hsame ▸ hin
  · intro hovertaken e he htarget hslot' hlt
    have hkey : e.key = (e.source, phi.id, slot) := by rw [← htarget, ← hslot']; rfl
    have hleads := (hback hlt).mp ⟨e, he, hkey⟩
    obtain ⟨a, ha, hid, hwrites, hmax⟩ := (lastInLoop_eq_some_iff hids).mp hleads.source
    have hfound : ∀ m ∈ dagNodes segments matrix.rows, InSubtree segments phi m →
        slot ∈ m.writes → phi.id < m.id → m.id ≤ e.source := fun m hm hin hmwrites hfar =>
      hmax m hm (writesInLoop_of_inSubtree hparse hmatrix hphi hm hin hmwrites hfar)
    have hin : InSubtree segments phi a := by
      by_contra hout
      obtain ⟨m, hm, hin, hmwrites, hbehind⟩ := hovertaken a ha hwrites hout
      have hle := hfound m hm hin hmwrites (by omega)
      omega
    have hawrites : slot ∈ a.writes := by
      simp only [writesInLoop, Bool.and_eq_true, decide_eq_true_eq] at hwrites
      exact hwrites.2
    refine ⟨a, ha, hid, hin, hawrites, fun m hm hmin hmwrites => ?_⟩
    rcases Nat.lt_or_ge phi.id m.id with hfar | hnear
    · exact hid ▸ hfound m hm hmin hmwrites hfar
    · omega

end Right

/-- A function with one loop. -/
def oneLoopFile : Text := lit "void f(int n) { while (n) { n = n - 1; } }"

theorem backEdgeRight_iff_sample : ∃ (segments : List Segment) (matrix : Matrix) (phi : Node),
    parseCFile .ascii {} oneLoopFile = some segments ∧
    buildMatrix .ascii segments = some matrix ∧ phi ∈ (buildDag segments matrix).nodes ∧
    BackEdgeRight segments (buildDag segments matrix) phi (lit "root.f.n") := by
  have hsome : (parseCFile .ascii {} oneLoopFile).isSome := by decide +kernel
  obtain ⟨segments, hparse⟩ := Option.isSome_iff_exists.mp hsome
  have hfacts : ∀ segments ∈ parseCFile .ascii {} oneLoopFile,
      (buildMatrix .ascii segments).isSome = true ∧ ∀ matrix ∈ buildMatrix .ascii segments,
        ∃ phi ∈ dagNodes segments matrix.rows, phi.note = some (.phi .loopEntry) ∧
          lit "root.f.n" ∈ phi.writes ∧ phi.segId = some 2 ∧
          ∀ n ∈ dagNodes segments matrix.rows, writesInLoop phi (lit "root.f.n") n = true →
            n.segId = some 2 := by decide +kernel
  obtain ⟨hmatrix, hphi⟩ := hfacts segments hparse
  obtain ⟨matrix, hmatrix⟩ := Option.isSome_iff_exists.mp hmatrix
  obtain ⟨phi, hmem, hnote, hslot, hseg, hall⟩ := hphi matrix hmatrix
  refine ⟨segments, matrix, phi, hparse, hmatrix, hmem,
    (backEdgeRight_iff hparse hmatrix hmem hnote hslot).mpr fun n hn hwrites hout => ?_⟩
  exact absurd ⟨2, 2, hseg, hall n hn hwrites, .top⟩ hout

/-- A function with two blocks without headers, and a loop in each. -/
def twoBlocksFile : Text :=
  lit "void f(int n) { { while (n) { n = n - 1; } } { while (n) { n = n - 1; } } }"

/-- **An edge from another loop**: the loops have the same path, and the last write in the second one
is taken for the last write in the first one. -/
theorem not_backEdgeRight : ¬ ∀ (file : Text) (segments : List Segment) (matrix : Matrix)
    (phi : Node) (slot : Text), parseCFile .ascii {} file = some segments →
      buildMatrix .ascii segments = some matrix → phi ∈ (buildDag segments matrix).nodes →
      phi.note = some (.phi .loopEntry) → slot ∈ phi.writes →
      BackEdgeRight segments (buildDag segments matrix) phi slot := by
  intro h
  have hsome : (parseCFile .ascii {} twoBlocksFile).isSome := by decide +kernel
  obtain ⟨segments, hparse⟩ := Option.isSome_iff_exists.mp hsome
  have hfacts : ∀ segments ∈ parseCFile .ascii {} twoBlocksFile,
      (∀ seg ∈ segments, seg.parent ≠ 3) ∧ (buildMatrix .ascii segments).isSome = true ∧
      ∀ matrix ∈ buildMatrix .ascii segments,
        ∃ phi ∈ (buildDag segments matrix).nodes, phi.note = some (.phi .loopEntry) ∧
          lit "root.f.n" ∈ phi.writes ∧ phi.segId = some 3 ∧
          ∃ e ∈ (buildDag segments matrix).edges, e.target = phi.id ∧ e.slot = lit "root.f.n" ∧
            phi.id < e.source ∧
            ∀ n ∈ (buildDag segments matrix).nodes, n.id = e.source → n.segId = some 5 := by
    decide +kernel
  obtain ⟨hleaf, hmatrix, hphi⟩ := hfacts segments hparse
  obtain ⟨matrix, hmatrix⟩ := Option.isSome_iff_exists.mp hmatrix
  obtain ⟨phi, hmem, hnote, hslot, hseg, e, he, htarget, heslot, hlt, hall⟩ := hphi matrix hmatrix
  obtain ⟨n, hn, hid, ⟨top, i, htop, hi, hnested⟩, -, -⟩ :=
    h _ segments matrix phi _ hparse hmatrix hmem hnote hslot e he htarget heslot hlt
  obtain rfl : 3 = top := Option.some.inj (hseg.symm.trans htop)
  obtain rfl : 5 = i := Option.some.inj ((hall n hn hid).symm.trans hi)
  -- no segment lies inside the first loop
  have hself : ∀ i, Nested segments 3 i → i = 3 := by
    intro i hi
    induction hi with
    | top => rfl
    | inside hseg _ ih => exact absurd ih (hleaf _ hseg)
  exact absurd (hself 5 hnested) (by decide)

end Csc512
