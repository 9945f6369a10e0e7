import Csc512.Cdup.BackEdges

/-!
# Definitions and uses

The scan over the nodes remembers the last write of every slot. So the edges to a node come from
where the values that it reads were written: the last node before it that writes the slot, or, where
the arms of a branch come together, the last one in the scope of every arm. With the edges back into
loops these are all edges, and the node that an edge leads to gives its kind.

## Main results

* `DagScan.Exact.read` — what the scan knows after one node more
* `mem_edges_buildDag_iff` — the edges of the graph
-/

namespace Csc512

/-! ### The last place -/

section LastIn

variable {α : Type*} {p : α → Prop} {xs : List α} {x : α} {n : ℕ}

/-- The last element with a property is number `n`. -/
structure LastIn (p : α → Prop) (xs : List α) (n : ℕ) : Prop where
  here : ∃ x, xs[n]? = some x ∧ p x
  later : ∀ m x, n < m → xs[m]? = some x → ¬ p x

theorem not_lastIn_nil : ¬ LastIn p [] n := by
  rintro ⟨⟨x, hx, -⟩, -⟩
  cases hx

/-- The last place in a list that got longer. -/
theorem lastIn_concat :
    LastIn p (xs ++ [x]) n ↔ (p x ∧ n = xs.length) ∨ (¬ p x ∧ LastIn p xs n) := by
  have hlast : (xs ++ [x])[xs.length]? = some x := by simp
  constructor
  · rintro ⟨⟨y, hy, hpy⟩, hlater⟩
    by_cases hpx : p x
    · refine .inl ⟨hpx, ?_⟩
      have hlt := (List.getElem?_eq_some_iff.mp hy).1
      have hge : ¬ n < xs.length := fun hn => hlater _ x hn hlast hpx
      rw [List.length_append, List.length_singleton] at hlt
      omega
    · have hlt : n < xs.length := by
        by_contra hge
        have hle := (List.getElem?_eq_some_iff.mp hy).1
        rw [List.length_append, List.length_singleton] at hle
        obtain rfl : n = xs.length := by omega
        rw [hlast] at hy
        exact hpx (Option.some.inj hy ▸ hpy)
      rw [List.getElem?_append_left hlt] at hy
      refine .inr ⟨hpx, ⟨y, hy, hpy⟩, fun m z hm hz => hlater m z hm ?_⟩
      rw [List.getElem?_append_left (List.getElem?_eq_some_iff.mp hz).1, hz]
  · rintro (⟨hpx, rfl⟩ | ⟨hpx, ⟨y, hy, hpy⟩, hlater⟩)
    · refine ⟨⟨x, hlast, hpx⟩, fun m z hm hz => ?_⟩
      have hlt := (List.getElem?_eq_some_iff.mp hz).1
      rw [List.length_append, List.length_singleton] at hlt
      omega
    · have hlt := (List.getElem?_eq_some_iff.mp hy).1
      refine ⟨⟨y, by rw [List.getElem?_append_left hlt, hy], hpy⟩, fun m z hm hz => ?_⟩
      rcases Nat.lt_trichotomy m xs.length with hm' | rfl | hm'
      · exact hlater m z hm (by rw [← hz, List.getElem?_append_left hm'])
      · rw [hlast] at hz
        exact Option.some.inj hz ▸ hpx
      · have hlt' := (List.getElem?_eq_some_iff.mp hz).1
        rw [List.length_append, List.length_singleton] at hlt'
        omega

end LastIn

/-! ### Keys of edges -/

section Keys

variable {edges : List Edge} {k : ℕ × ℕ × Text}

theorem mem_keys_addEdge {e : Edge} :
    k ∈ (addEdge edges e).map Edge.key ↔ k ∈ edges.map Edge.key ∨ k = e.key := by
  rw [addEdge]
  split_ifs with hany
  · obtain ⟨e', he', hkey⟩ := List.any_eq_true.mp hany
    have hmem : e.key ∈ edges.map Edge.key :=
      of_decide_eq_true hkey ▸ List.mem_map_of_mem he'
    exact ⟨.inl, fun h => h.elim id fun heq => heq ▸ hmem⟩
  · simp

theorem mem_keys_addEdgeFrom {source : Option ℕ} {target : ℕ} {slot : Text} {kind : EdgeKind} :
    k ∈ (addEdgeFrom edges source target slot kind).map Edge.key ↔
      k ∈ edges.map Edge.key ∨ ∃ n, source = some n ∧ k = (n, target, slot) := by
  cases source with
  | none => simp [addEdgeFrom]
  | some n =>
    rw [addEdgeFrom, mem_keys_addEdge]
    simp [Edge.key]

/-- Edges that are added one after the other. -/
theorem mem_keys_foldl {α : Type} {add : List Edge → α → List Edge} {new : α → ℕ × ℕ × Text → Prop}
    (hadd : ∀ edges x k, k ∈ (add edges x).map Edge.key ↔ k ∈ edges.map Edge.key ∨ new x k)
    (xs : List α) (edges : List Edge) :
    k ∈ (xs.foldl add edges).map Edge.key ↔ k ∈ edges.map Edge.key ∨ ∃ x ∈ xs, new x k := by
  induction xs generalizing edges with
  | nil => simp
  | cons x xs ih =>
    rw [List.foldl_cons, ih, hadd, or_assoc, List.exists_mem_cons_iff]

/-- Edges to one node. -/
theorem mem_keys_foldl_addEdgeFrom {α : Type} (source : α → Option ℕ) (target : ℕ) (slot : α → Text)
    (kind : EdgeKind) (xs : List α) :
    k ∈ (xs.foldl (fun edges x => addEdgeFrom edges (source x) target (slot x) kind)
        edges).map Edge.key ↔
      k ∈ edges.map Edge.key ∨ ∃ x ∈ xs, ∃ n, source x = some n ∧ k = (n, target, slot x) :=
  @mem_keys_foldl k α _ (fun x k => ∃ n, source x = some n ∧ k = (n, target, slot x))
    (fun _ _ _ => mem_keys_addEdgeFrom) xs edges

end Keys

/-! ### Where values come from -/

/-- What a node reads of a slot was written by node number `source`, among the nodes before it.
Where the arms of a branch come together, its reads are the scopes of the arms. -/
inductive Feeds (before : List Node) (node : Node) (slot : Text) (source : ℕ) : Prop where
  | read (hnote : node.note ≠ some (.phi .branchReconvergence)) (hread : slot ∈ node.reads)
      (hlast : LastIn (fun a => slot ∈ a.writes) before source)
  | arm (scope : Text) (hnote : node.note = some (.phi .branchReconvergence))
      (hslot : node.writes.head? = some slot) (hscope : scope ∈ node.reads)
      (hlast : LastIn (fun a => a.scopePath = some scope ∧ slot ∈ a.writes) before source)

/-- The scan knows the last writes of the nodes that it has read, and has drawn their edges. -/
structure DagScan.Exact (front : List Node) (scan : DagScan) : Prop where
  lastWrite : ∀ slot n, scan.lastWrite.get? slot = some n ↔
    LastIn (fun a => slot ∈ a.writes) front n
  scopeLastWrite : ∀ scope slot n, scan.scopeLastWrite.get? (scope, slot) = some n ↔
    LastIn (fun a => a.scopePath = some scope ∧ slot ∈ a.writes) front n
  edges : ∀ source target slot, (source, target, slot) ∈ scan.edges.map Edge.key ↔
    ∃ node, front[target]? = some node ∧ Feeds (front.take target) node slot source

namespace DagScan.Exact

variable {front : List Node} {scan : DagScan} (h : scan.Exact front) {node : Node}

include h

/-- The edges to a node. -/
theorem readEdges {source target : ℕ} {slot : Text} :
    (source, target, slot) ∈ (scan.readEdges node).map Edge.key ↔
      (source, target, slot) ∈ scan.edges.map Edge.key ∨
        target = node.id ∧ Feeds front node slot source := by
  rw [DagScan.readEdges]
  by_cases hnote : node.note = some (.phi .branchReconvergence)
  · rw [if_pos hnote]
    cases hhead : node.writes.head? with
    | none =>
      refine ⟨.inl, fun hmem => hmem.resolve_right ?_⟩
      rintro ⟨-, ⟨hne, -, -⟩ | ⟨scope, -, hslot, -, -⟩⟩
      · exact hne hnote
      · rw [hhead] at hslot
        cases hslot
    | some written =>
      refine (mem_keys_foldl_addEdgeFrom (fun scope => scan.scopeLastWrite.get? (scope, written))
        node.id (fun _ => written) .phiBranch node.reads).trans (or_congr_right ⟨?_, ?_⟩)
      · rintro ⟨scope, hscope, n, hn, heq⟩
        obtain ⟨rfl, rfl, rfl⟩ : source = n ∧ target = node.id ∧ slot = written := by
          simpa using heq
        exact ⟨rfl, .arm scope hnote hhead hscope ((h.scopeLastWrite _ _ _).mp hn)⟩
      · rintro ⟨rfl, ⟨hne, -, -⟩ | ⟨scope, -, hslot, hscope, hlast⟩⟩
        · exact absurd hnote hne
        · obtain rfl : written = slot := Option.some.inj (hhead.symm.trans hslot)
          exact ⟨scope, hscope, source, (h.scopeLastWrite _ _ _).mpr hlast, rfl⟩
  · rw [if_neg hnote]
    refine (mem_keys_foldl_addEdgeFrom scan.lastWrite.get? node.id id _ node.reads).trans
      (or_congr_right ⟨?_, ?_⟩)
    · rintro ⟨read, hread, n, hn, heq⟩
      obtain ⟨rfl, rfl, rfl⟩ : source = n ∧ target = node.id ∧ slot = read := by simpa using heq
      exact ⟨rfl, .read hnote hread ((h.lastWrite _ _).mp hn)⟩
    · rintro ⟨rfl, ⟨-, hread, hlast⟩ | ⟨scope, hnote', -, -, -⟩⟩
      · exact ⟨slot, hread, source, (h.lastWrite _ _).mpr hlast, rfl⟩
      · exact absurd hnote' hnote

/-- **One node more.** -/
theorem read (hid : node.id = front.length) : (scan.read node).Exact (front ++ [node]) := by
  refine ⟨fun slot n => ?_, fun scope slot n => ?_, fun source target slot => ?_⟩
  · have hget : (scan.read node).lastWrite.get? slot
        = if slot ∈ node.writes then some node.id else scan.lastWrite.get? slot :=
      (Dict.get?_foldl_upsert_const id node.id node.writes scan.lastWrite slot).trans
        (by simp)
    rw [lastIn_concat, ← h.lastWrite, hget, ← hid]
    split_ifs with hslot <;> simp [hslot, eq_comm]
  · rw [lastIn_concat, ← h.scopeLastWrite, ← hid]
    dsimp only [DagScan.read]
    cases hpath : node.scopePath with
    | none => simp
    | some path =>
      show (node.writes.foldl (fun d slot => d.upsert (path, slot) fun _ => node.id)
        scan.scopeLastWrite).get? (scope, slot) = some n ↔ _
      rw [Dict.get?_foldl_upsert_const fun slot => (path, slot)]
      have hmem : (scope, slot) ∈ node.writes.map (fun slot => (path, slot)) ↔
          path = scope ∧ slot ∈ node.writes := by
        simp [eq_comm, and_comm]
      by_cases hwrites : path = scope ∧ slot ∈ node.writes
      · rw [if_pos (hmem.mpr hwrites)]
        simp [hwrites, eq_comm]
      · rw [if_neg (mt hmem.mp hwrites)]
        simp [hwrites]
  · have hread : (source, target, slot) ∈ (scan.read node).edges.map Edge.key ↔ _ := h.readEdges
    rw [hread, h.edges, hid]
    constructor
    · rintro (⟨a, ha, hfeeds⟩ | ⟨rfl, hfeeds⟩)
      · have hlt := (List.getElem?_eq_some_iff.mp ha).1
        exact ⟨a, by rw [List.getElem?_append_left hlt, ha],
          by rwa [List.take_append_of_le_length hlt.le]⟩
      · exact ⟨node, by simp, by simpa using hfeeds⟩
    · rintro ⟨a, ha, hfeeds⟩
      have hle := (List.getElem?_eq_some_iff.mp ha).1
      rw [List.length_append, List.length_singleton] at hle
      rcases Nat.lt_or_eq_of_le (Nat.le_of_lt_succ hle) with hlt | rfl
      · rw [List.getElem?_append_left hlt] at ha
        rw [List.take_append_of_le_length hlt.le] at hfeeds
        exact .inl ⟨a, ha, hfeeds⟩
      · obtain rfl : node = a := by simpa using ha
        exact .inr ⟨rfl, by simpa using hfeeds⟩

end DagScan.Exact

section Graph

variable {nodes : List Node} (hids : ∀ (n : ℕ) node, nodes[n]? = some node → node.id = n)

include hids

/-- The scan over all nodes. -/
theorem exact_scan : (nodes.foldl DagScan.read {}).Exact nodes := by
  induction nodes using List.reverseRecOn with
  | nil =>
    refine ⟨fun slot n => ?_, fun scope slot n => ?_, fun source target slot => ?_⟩
    · simp [not_lastIn_nil]
    · simp [not_lastIn_nil]
    · simp
  | append_singleton front node ih =>
    have hfront : ∀ (n : ℕ) a, front[n]? = some a → a.id = n := fun n a ha =>
      hids n a (by rw [List.getElem?_append_left (List.getElem?_eq_some_iff.mp ha).1, ha])
    rw [List.foldl_append]
    exact (ih hfront).read (hids _ node (by simp))

omit hids in
/-- The edges that lead back. -/
theorem mem_keys_addBackEdges {edges : List Edge} {phi : Node} {k : ℕ × ℕ × Text} :
    k ∈ (addBackEdges nodes edges phi).map Edge.key ↔ k ∈ edges.map Edge.key ∨
      ∃ slot source, LeadsBack nodes phi slot source ∧ k = (source, phi.id, slot) := by
  rw [addBackEdges]
  split_ifs with hnote
  · refine (mem_keys_foldl_addEdgeFrom (lastInLoop nodes phi) phi.id id .phiLoop phi.writes).trans
      (or_congr_right ⟨?_, ?_⟩)
    · rintro ⟨slot, hslot, n, hn, rfl⟩
      exact ⟨slot, n, ⟨hnote, hslot, hn⟩, rfl⟩
    · rintro ⟨slot, n, hleads, rfl⟩
      exact ⟨slot, hleads.writes, n, hleads.source, rfl⟩
  · refine ⟨.inl, fun hmem => hmem.resolve_right ?_⟩
    rintro ⟨slot, source, hleads, -⟩
    exact hnote hleads.note

/-- All edges, by their ends and their slots. -/
theorem mem_keys_dagOfNodes {source target : ℕ} {slot : Text} :
    (source, target, slot) ∈ (dagOfNodes nodes).edges.map Edge.key ↔
      ∃ node, nodes[target]? = some node ∧
        (Feeds (nodes.take target) node slot source ∨ LeadsBack nodes node slot source) := by
  have hback := @mem_keys_foldl (source, target, slot) Node (addBackEdges nodes)
    (fun phi k => ∃ slot source, LeadsBack nodes phi slot source ∧ k = (source, phi.id, slot))
    (fun _ _ _ => mem_keys_addBackEdges) nodes (nodes.foldl DagScan.read {}).edges
  refine hback.trans ?_
  rw [(exact_scan hids).edges]
  constructor
  · rintro (⟨node, hnode, hfeeds⟩ | ⟨phi, hphi, slot', source', hleads, heq⟩)
    · exact ⟨node, hnode, .inl hfeeds⟩
    · obtain ⟨rfl, rfl, rfl⟩ : source = source' ∧ target = phi.id ∧ slot = slot' := by
        simpa using heq
      obtain ⟨i, hi⟩ := List.mem_iff_getElem?.mp hphi
      exact ⟨phi, by rw [hids i phi hi, hi], .inr hleads⟩
  · rintro ⟨node, hnode, hfeeds | hleads⟩
    · exact .inl ⟨node, hnode, hfeeds⟩
    · exact .inr ⟨node, List.mem_of_getElem? hnode, slot, source, hleads, by
        rw [hids target node hnode]⟩

end Graph

/-! ### The kinds of edges -/

/-- The kind of the edges to a node. -/
def Node.inKind (node : Node) : EdgeKind :=
  if node.note = some (.phi .branchReconvergence) then .phiBranch
  else if node.note = some (.phi .loopEntry) then .phiLoop else .dataFlow

/-- An edge has the kind of the node that it leads to. -/
def HasInKind (nodes : List Node) (e : Edge) : Prop :=
  ∀ node ∈ nodes, node.id = e.target → e.kind = node.inKind

section Kinds

variable {nodes : List Node} (hids : ∀ (n : ℕ) node, nodes[n]? = some node → node.id = n)

include hids

theorem hasInKind_readEdges {scan : DagScan} (h : Edges (HasInKind nodes) scan.edges) {node : Node}
    (hnode : node ∈ nodes) : Edges (HasInKind nodes) (scan.readEdges node) := by
  have heq : ∀ a ∈ nodes, a.id = node.id → a = node := fun a ha => eq_of_id_eq hids ha hnode
  rw [DagScan.readEdges]
  by_cases hnote : node.note = some (.phi .branchReconvergence)
  · rw [if_pos hnote]
    cases node.writes.head? with
    | none => exact h
    | some slot =>
      refine h.foldl fun edges hedges scope _ => hedges.addEdgeFrom fun n _ a ha hid => ?_
      rw [heq a ha hid, Node.inKind, if_pos hnote]
  · rw [if_neg hnote]
    refine h.foldl fun edges hedges slot _ => hedges.addEdgeFrom fun n _ a ha hid => ?_
    rw [heq a ha hid, Node.inKind, if_neg hnote]

theorem hasInKind_dagOfNodes : Edges (HasInKind nodes) (dagOfNodes nodes).edges := by
  have hscan : ∀ front : List Node, (∀ node ∈ front, node ∈ nodes) →
      Edges (HasInKind nodes) (front.foldl DagScan.read {}).edges := by
    intro front
    induction front using List.reverseRecOn with
    | nil => exact fun _ => ⟨fun e he => absurd he List.not_mem_nil, List.nodup_nil⟩
    | append_singleton front node ih =>
      intro hfront
      rw [List.forall_mem_append, List.forall_mem_singleton] at hfront
      rw [List.foldl_append]
      exact hasInKind_readEdges hids (ih hfront.1) hfront.2
  refine (hscan nodes fun _ h => h).foldl fun edges hedges phi hphi => ?_
  rw [addBackEdges]
  split_ifs with hnote
  · refine hedges.foldl fun edges hedges slot _ => hedges.addEdgeFrom fun n _ a ha hid => ?_
    rw [eq_of_id_eq hids ha hphi hid, Node.inKind, if_neg (by simp [hnote]), if_pos hnote]
  · exact hedges

end Kinds

theorem id_dagNodes {segments : List Segment} {rows : List Row} (n : ℕ) (node : Node)
    (h : (dagNodes segments rows)[n]? = some node) : node.id = n :=
  id_of_numberNodes h

end Csc512
