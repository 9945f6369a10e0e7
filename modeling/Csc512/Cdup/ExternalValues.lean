import Csc512.Cdup.Dag
import Csc512.Cdup.ParseFile
import Csc512.Lib.Cover
import Csc512.Lib.Insertions

/-!
# Where external values come from

Parameters and constants come into the data-flow graph through the entry nodes. A row gets an edge
for such a slot if some node in front of it writes the slot, and the entry node of a segment stands
in front of the first row of that segment. So a row that reads the slot of a segment that comes
later, or of a segment without an entry node, gets none. A node where a loop begins has one more
chance, the edge back from the end of the loop.

## Main results

* `hasEdge_dagOfNodes_iff` — which nodes have an edge for a slot
* `externalsSourced_iff` — when every external value that is read has a source
* `not_externalsSourced_sameName` — where this fails
-/

namespace Csc512

/-! ### Edges for a slot -/

/-- There is an edge into a node for a slot. -/
def HasEdge (edges : List Edge) (target : ℕ) (slot : Text) : Prop :=
  ∃ e ∈ edges, e.target = target ∧ e.slot = slot

section Edges

variable {edges : List Edge} {t : ℕ} {s : Text}

theorem hasEdge_addEdge (e : Edge) :
    HasEdge (addEdge edges e) t s ↔ HasEdge edges t s ∨ e.target = t ∧ e.slot = s := by
  rw [addEdge]
  split
  · rename_i hany
    refine ⟨.inl, fun h => h.elim id ?_⟩
    rintro ⟨rfl, rfl⟩
    obtain ⟨e', he', hkey⟩ := List.any_eq_true.mp hany
    have hkey : e'.key = e.key := of_decide_eq_true hkey
    exact ⟨e', he', (Prod.mk.inj (Prod.mk.inj hkey).2).1, (Prod.mk.inj (Prod.mk.inj hkey).2).2⟩
  · constructor
    · rintro ⟨e', he', h⟩
      rcases List.mem_append.mp he' with he' | he'
      · exact .inl ⟨e', he', h⟩
      · exact .inr (List.mem_singleton.mp he' ▸ h)
    · rintro (⟨e', he', h⟩ | h)
      · exact ⟨e', List.mem_append_left _ he', h⟩
      · exact ⟨e, List.mem_append_right _ (List.mem_singleton.mpr rfl), h⟩

theorem hasEdge_addEdgeFrom (source : Option ℕ) (target : ℕ) (slot : Text) (kind : EdgeKind) :
    HasEdge (addEdgeFrom edges source target slot kind) t s ↔
      HasEdge edges t s ∨ source.isSome ∧ target = t ∧ slot = s := by
  cases source with
  | none =>
    show HasEdge edges t s ↔ _
    simp
  | some n =>
    rw [addEdgeFrom, hasEdge_addEdge]
    simp

/-- Adding edges for some slots. -/
theorem hasEdge_foldl {α : Type} (source : α → Option ℕ) (target : ℕ) (slot : α → Text)
    (kind : EdgeKind) (xs : List α) :
    HasEdge (xs.foldl (fun edges x => addEdgeFrom edges (source x) target (slot x) kind) edges) t s ↔
      HasEdge edges t s ∨ target = t ∧ ∃ x ∈ xs, (source x).isSome ∧ slot x = s := by
  induction xs generalizing edges with
  | nil => simp
  | cons x xs ih =>
    rw [List.foldl_cons, ih, hasEdge_addEdgeFrom, List.exists_mem_cons_iff, or_assoc]
    refine or_congr_right ?_
    constructor
    · rintro (⟨hx, rfl, rfl⟩ | ⟨rfl, h⟩)
      · exact ⟨rfl, .inl ⟨hx, rfl⟩⟩
      · exact ⟨rfl, .inr h⟩
    · rintro ⟨rfl, ⟨hx, rfl⟩ | h⟩
      · exact .inl ⟨hx, rfl, rfl⟩
      · exact .inr ⟨rfl, h⟩

end Edges

/-! ### The scan over the nodes -/

/-- The slots whose last write is known are those that some node has written. -/
theorem isSome_lastWrite (nodes : List Node) (scan : DagScan) (s : Text) :
    ((nodes.foldl DagScan.read scan).lastWrite.get? s).isSome ↔
      (scan.lastWrite.get? s).isSome ∨ ∃ node ∈ nodes, s ∈ node.writes := by
  induction nodes generalizing scan with
  | nil => simp
  | cons node nodes ih =>
    rw [List.foldl_cons, ih, List.exists_mem_cons_iff, ← or_assoc]
    refine or_congr_left ?_
    show ((node.writes.foldl (fun d slot => d.upsert slot fun _ => node.id)
      scan.lastWrite).get? s).isSome ↔ _
    rw [Dict.get?_foldl_upsert_const (fun slot : Text => slot), List.map_id']
    by_cases hs : s ∈ node.writes
    · simp [hs]
    · simp [hs]

/-- The edges that the scan draws to a node that is no reconvergence. -/
theorem hasEdge_scan {front back : List Node} {node : Node}
    (hids : ∀ n ∈ front ++ back, n.id ≠ node.id)
    (hnote : node.note ≠ some (.phi .branchReconvergence)) (s : Text) :
    HasEdge ((front ++ node :: back).foldl DagScan.read {}).edges node.id s ↔
      s ∈ node.reads ∧ ∃ n ∈ front, s ∈ n.writes := by
  have hother : ∀ (nodes : List Node), (∀ n ∈ nodes, n.id ≠ node.id) → ∀ scan : DagScan,
      (HasEdge (nodes.foldl DagScan.read scan).edges node.id s ↔
        HasEdge scan.edges node.id s) := by
    intro nodes
    induction nodes with
    | nil => exact fun _ _ => Iff.rfl
    | cons n nodes ih =>
      intro hne scan
      obtain ⟨hn, hne⟩ := List.forall_mem_cons.mp hne
      rw [List.foldl_cons, ih hne]
      show HasEdge (scan.readEdges n) node.id s ↔ _
      rw [DagScan.readEdges]
      split
      · split
        · rw [hasEdge_foldl (fun scope : Text => _) _ (fun _ => _)]
          simp [hn]
        · rfl
      · rw [hasEdge_foldl _ _ fun slot : Text => slot]
        simp [hn]
  obtain ⟨hfront, hback⟩ := List.forall_mem_append.mp hids
  rw [List.foldl_append, List.foldl_cons, hother back hback]
  show HasEdge ((front.foldl DagScan.read {}).readEdges node) node.id s ↔ _
  rw [DagScan.readEdges, if_neg hnote, hasEdge_foldl _ _ (fun slot : Text => slot),
    hother front hfront]
  have hstart : ¬ HasEdge ({} : DagScan).edges node.id s := by
    rintro ⟨e, he, -⟩
    cases he
  simp only [hstart, false_or, true_and]
  constructor
  · rintro ⟨slot, hslot, hsome, rfl⟩
    refine ⟨hslot, ((isSome_lastWrite front {} slot).mp hsome).resolve_left ?_⟩
    exact Bool.false_ne_true
  · rintro ⟨hs, hwritten⟩
    exact ⟨s, hs, (isSome_lastWrite front {} s).mpr (.inr hwritten), rfl⟩

/-- The edges back to the nodes where loops begin. -/
theorem hasEdge_addBackEdges (nodes phis : List Node) (edges : List Edge) (t : ℕ) (s : Text) :
    HasEdge (phis.foldl (addBackEdges nodes) edges) t s ↔ HasEdge edges t s ∨
      ∃ phi ∈ phis, phi.id = t ∧ phi.note = some (.phi .loopEntry) ∧ s ∈ phi.writes ∧
        ∃ n ∈ nodes, writesInLoop phi s n := by
  induction phis generalizing edges with
  | nil => simp
  | cons phi phis ih =>
    rw [List.foldl_cons, ih, List.exists_mem_cons_iff, ← or_assoc]
    refine or_congr_left ?_
    rw [addBackEdges]
    split
    · rename_i hnote
      rw [hasEdge_foldl _ _ fun slot : Text => slot]
      refine or_congr_right ?_
      have hlast : ∀ slot, (lastInLoop nodes phi slot).isSome ↔
          ∃ n ∈ nodes, writesInLoop phi slot n := by
        intro slot
        rw [lastInLoop, Option.isSome_map, List.getLast?_isSome, ne_eq, List.filter_eq_nil_iff]
        push Not
        rfl
      constructor
      · rintro ⟨rfl, slot, hslot, hsome, rfl⟩
        exact ⟨rfl, hnote, hslot, (hlast slot).mp hsome⟩
      · rintro ⟨rfl, -, hs, hsome⟩
        exact ⟨rfl, s, hs, (hlast s).mpr hsome, rfl⟩
    · rename_i hnote
      simp [hnote]

/-! ### Nodes at places -/

/-- A node is in the scope of another one. -/
def InScope (outer : Option Text) (inner : Option Text) : Prop :=
  ∃ loop scope, outer = some loop ∧ inner = some scope ∧ loop <+: scope

theorem writesInLoop_iff {phi n : Node} {s : Text} : writesInLoop phi s n ↔
    phi.id < n.id ∧ InScope phi.scopePath n.scopePath ∧ s ∈ n.writes := by
  rw [writesInLoop, Bool.and_eq_true, Bool.and_eq_true, decide_eq_true_iff, decide_eq_true_iff,
    and_assoc]
  refine and_congr_right fun _ => and_congr_left fun _ => ?_
  rw [InScope]
  cases phi.scopePath with
  | none => cases n.scopePath <;> simp
  | some loop =>
    cases n.scopePath with
    | none => simp
    | some scope => simp

/-- **Which nodes have an edge for a slot**: one that reads it behind a node that writes it, and one
where a loop begins that writes it again. -/
theorem hasEdge_dagOfNodes_iff {rawNodes : List Node} {n : ℕ} {x : Node}
    (hx : rawNodes[n]? = some x) (hnote : x.note ≠ some (.phi .branchReconvergence)) (s : Text) :
    HasEdge (dagOfNodes (numberNodes rawNodes)).edges n s ↔
      (s ∈ x.reads ∧ ∃ m ∈ rawNodes.take n, s ∈ m.writes) ∨
      (x.note = some (.phi .loopEntry) ∧ s ∈ x.writes ∧
        ∃ m ∈ rawNodes.drop (n + 1), InScope x.scopePath m.scopePath ∧ s ∈ m.writes) := by
  let node : Node := { x with id := n }
  have hnode : (numberNodes rawNodes)[n]? = some node := by rw [getElem?_numberNodes, hx]; rfl
  have hlt := (List.getElem?_eq_some_iff.mp hnode).1
  have hsplit : numberNodes rawNodes
      = (numberNodes rawNodes).take n ++ node :: (numberNodes rawNodes).drop (n + 1) := by
    rw [← (List.getElem?_eq_some_iff.mp hnode).2, List.cons_getElem_drop_succ,
      List.take_append_drop]
  have hids : ∀ m ∈ (numberNodes rawNodes).take n ++ (numberNodes rawNodes).drop (n + 1),
      m.id ≠ node.id := by
    intro m hm
    rcases List.mem_append.mp hm with hm | hm
    · obtain ⟨j, hj⟩ := List.mem_iff_getElem?.mp hm
      rw [List.getElem?_take] at hj
      split_ifs at hj with hjn
      rw [id_of_numberNodes hj]
      exact Nat.ne_of_lt hjn
    · obtain ⟨j, hj⟩ := List.mem_iff_getElem?.mp hm
      rw [List.getElem?_drop] at hj
      rw [id_of_numberNodes hj]
      show n + 1 + j ≠ n
      omega
  have hshape : (numberNodes rawNodes).map (fun m => (m.scopePath, m.writes))
      = rawNodes.map fun m => (m.scopePath, m.writes) := by
    refine List.ext_getElem? fun j => ?_
    rw [List.getElem?_map, List.getElem?_map, getElem?_numberNodes, Option.map_map]
    rfl
  have hfront : (∃ m ∈ (numberNodes rawNodes).take n, s ∈ m.writes) ↔
      ∃ m ∈ rawNodes.take n, s ∈ m.writes := by
    have h := congrArg (List.take n) hshape
    rw [← List.map_take, ← List.map_take] at h
    have hmem : ∀ l : List Node, (∃ m ∈ l, s ∈ m.writes) ↔
        ∃ p ∈ l.map fun m => (m.scopePath, m.writes), s ∈ p.2 := by simp
    rw [hmem, h, ← hmem]
  have hback : (∃ m ∈ (numberNodes rawNodes).drop (n + 1),
      InScope x.scopePath m.scopePath ∧ s ∈ m.writes) ↔
      ∃ m ∈ rawNodes.drop (n + 1), InScope x.scopePath m.scopePath ∧ s ∈ m.writes := by
    have h := congrArg (List.drop (n + 1)) hshape
    rw [← List.map_drop, ← List.map_drop] at h
    have hmem : ∀ l : List Node, (∃ m ∈ l, InScope x.scopePath m.scopePath ∧ s ∈ m.writes) ↔
        ∃ p ∈ l.map fun m => (m.scopePath, m.writes), InScope x.scopePath p.1 ∧ s ∈ p.2 := by simp
    rw [hmem, h, ← hmem]
  have hscan := hasEdge_scan hids (show node.note ≠ _ from hnote) s
  rw [← hsplit] at hscan
  rw [dagOfNodes, hasEdge_addBackEdges]
  refine or_congr (hscan.trans (and_congr_right fun _ => hfront)) ?_
  constructor
  · rintro ⟨phi, hphi, hid, hloop, hs, m, hm, hwrites⟩
    obtain ⟨j, hj⟩ := List.mem_iff_getElem?.mp hphi
    have hjn : j = n := (id_of_numberNodes hj).symm.trans hid
    subst hjn
    obtain rfl := Option.some.inj (hnode.symm.trans hj)
    obtain ⟨hlater, hscope, hwrites⟩ := writesInLoop_iff.mp hwrites
    obtain ⟨k, hk⟩ := List.mem_iff_getElem?.mp hm
    have hlater : j < k := by rwa [id_of_numberNodes hk] at hlater
    refine ⟨hloop, hs, hback.mp ⟨m, List.mem_iff_getElem?.mpr ⟨k - (j + 1), ?_⟩, hscope, hwrites⟩⟩
    rw [List.getElem?_drop, show j + 1 + (k - (j + 1)) = k by omega]
    exact hk
  · rintro ⟨hloop, hs, hm⟩
    obtain ⟨m, hm, hscope, hwrites⟩ := hback.mpr hm
    refine ⟨node, List.mem_of_getElem? hnode, rfl, hloop, hs, m, List.mem_of_mem_drop hm,
      writesInLoop_iff.mpr ⟨?_, hscope, hwrites⟩⟩
    obtain ⟨j, hj⟩ := List.mem_iff_getElem?.mp hm
    rw [List.getElem?_drop] at hj
    rw [id_of_numberNodes hj]
    show n < n + 1 + j
    omega

/-! ### External values -/

/-- The parameters and constants of a segment. -/
def externalSlots (seg : Segment) : List Text :=
  (seg.memory.filter Slot.param).map Slot.scopedName ++ seg.constants.map Slot.scopedName

section Sources

variable (segments : List Segment) (rows : List Row)

/-- **Every external value has a source**: there is an edge for every parameter and every constant
of a segment that a node reads, where no arms of a branch come together. -/
def ExternalsSourced (dag : Dag) : Prop :=
  ∀ node ∈ dag.nodes, node.note ≠ some (.phi .branchReconvergence) → ∀ slot ∈ node.reads,
    (∃ seg ∈ segments, slot ∈ externalSlots seg) → HasEdge dag.edges node.id slot

/-- A segment has an entry node for a slot. -/
def EntersAt (slot : Text) (seg : Segment) : Prop :=
  seg ∈ segments ∧ seg.type.hasEntry ∧ slot ∈ externalSlots seg

/-- A row in front of row `i` writes a slot, or row `i` does not come before the first row of a
segment that has an entry node for it. -/
def WrittenBefore (i : ℕ) (slot : Text) : Prop :=
  (∃ row ∈ rows.take i, slot ∈ row.writes) ∨
    ∃ seg, EntersAt segments slot seg ∧ ∃ row ∈ rows.take (i + 1), row.segId = some seg.id

/-- A loop begins at row `i`, which writes a slot again, and behind it the slot is written in the
scope of the loop, by a row or at the entry of a segment. -/
def WrittenInLoop (i : ℕ) (row : Row) (slot : Text) : Prop :=
  row.note = some .loopEntry ∧ slot ∈ row.writes ∧
    ((∃ later ∈ rows.drop (i + 1), InScope row.scopePath later.scopePath ∧ slot ∈ later.writes) ∨
      ∃ seg, EntersAt segments slot seg ∧ InScope row.scopePath (some seg.scopePath) ∧
        ∀ earlier ∈ rows.take (i + 1), earlier.segId ≠ some seg.id)

end Sources

section Insertions

variable {segments : List Segment} {rows : List Row}

variable (segments) in
theorem pairwise_entryInsertions (rawNodes : List Node) :
    (entryInsertions segments rawNodes).Pairwise fun p q => q.1 ≤ p.1 := by
  rw [entryInsertions]
  refine (@pairwise_insertionSort _ Prod.fst (fun _ _ => True) _
    (List.pairwise_of_forall fun _ _ => trivial)).imp ?_
  rintro p q (h | ⟨h, -⟩)
  · exact h.le
  · exact h.le

theorem mem_entryInsertions {rawNodes : List Node} {q : ℕ × Node} :
    q ∈ entryInsertions segments rawNodes ↔ ∃ seg ∈ segments, seg.type.hasEntry ∧
      q = (rawNodes.findIdx fun node => node.segId = some seg.id, makeEntryNode seg) := by
  rw [entryInsertions, List.mem_insertionSort, List.mem_map]
  simp only [List.mem_filter, and_assoc, eq_comm]

theorem le_of_mem_entryInsertions {rawNodes : List Node} {q : ℕ × Node}
    (hq : q ∈ entryInsertions segments rawNodes) : q.1 ≤ rawNodes.length := by
  obtain ⟨seg, -, -, rfl⟩ := mem_entryInsertions.mp hq
  exact List.findIdx_le_length

/-- The first row of a segment is at or before a place. -/
theorem findIdx_le_iff {i : ℕ} (hi : i < rows.length) (id : ℕ) :
    (rows.map Row.node).findIdx (fun node => node.segId = some id) ≤ i ↔
      ∃ row ∈ rows.take (i + 1), row.segId = some id := by
  have hlen : ((rows.map Row.node).take (i + 1)).length = i + 1 := by
    rw [List.length_take_of_le (by rw [List.length_map]; exact hi)]
  have hfound := @List.findIdx_lt_length _ (fun node : Node => decide (node.segId = some id))
    ((rows.map Row.node).take (i + 1))
  rw [hlen, List.findIdx_take] at hfound
  have hmin : min (i + 1) ((rows.map Row.node).findIdx fun node => decide (node.segId = some id))
      < i + 1 ↔ (rows.map Row.node).findIdx (fun node => decide (node.segId = some id)) ≤ i := by
    omega
  rw [← hmin, hfound, ← List.map_take]
  simp only [List.mem_map, exists_exists_and_eq_and, decide_eq_true_eq]
  rfl

/-- **When a node reads a slot that has a source**, in terms of the rows. -/
theorem hasEdge_row_iff {i n : ℕ} {row : Row} (hrow : rows[i]? = some row)
    (hnote : row.note ≠ some .branchReconvergence)
    (htake : (insertNodes (entryInsertions segments (rows.map Row.node)) (rows.map Row.node)).take n
      = insertAll ((entryInsertions segments (rows.map Row.node)).filter fun q => q.1 ≤ i)
        ((rows.map Row.node).take i))
    (hdrop : (insertNodes (entryInsertions segments (rows.map Row.node))
        (rows.map Row.node)).drop (n + 1)
      = insertAll (((entryInsertions segments (rows.map Row.node)).filter fun q => i < q.1).map
          fun q => (q.1 - (i + 1), q.2)) ((rows.map Row.node).drop (i + 1)))
    (hx : (insertNodes (entryInsertions segments (rows.map Row.node)) (rows.map Row.node))[n]?
      = some row.node) {slot : Text} (hslot : slot ∈ row.reads) :
    HasEdge (buildDag segments ⟨[], rows⟩).edges n slot ↔
      WrittenBefore segments rows i slot ∨ WrittenInLoop segments rows i row slot := by
  have hi : i < rows.length := (List.getElem?_eq_some_iff.mp hrow).1
  have hphi : ∀ note, row.node.note = some (.phi note) ↔ row.note = some note := by
    intro note
    show row.note.map NodeNote.phi = _ ↔ _
    cases row.note <;> simp
  rw [buildDag, dagNodes, hasEdge_dagOfNodes_iff hx (fun h => hnote ((hphi _).mp h)), htake, hdrop,
    hphi]
  refine or_congr ?_ ?_
  · have hfront := @mem_insertAll _
      ((entryInsertions segments (rows.map Row.node)).filter fun q => q.1 ≤ i)
      ((rows.map Row.node).take i) fun q hq => by
        rw [List.length_take_of_le (by rw [List.length_map]; exact hi.le)]
        exact of_decide_eq_true (List.mem_filter.mp hq).2
    constructor
    · rintro ⟨-, m, hm, hwrites⟩
      rcases hfront.mp hm with hm | ⟨q, hq, rfl⟩
      · rw [← List.map_take] at hm
        obtain ⟨row', hrow', rfl⟩ := List.mem_map.mp hm
        exact .inl ⟨row', hrow', hwrites⟩
      · obtain ⟨hq, hle⟩ := List.mem_filter.mp hq
        obtain ⟨seg, hseg, hentry, rfl⟩ := mem_entryInsertions.mp hq
        exact .inr ⟨seg, ⟨hseg, hentry, hwrites⟩,
          (findIdx_le_iff hi seg.id).mp (of_decide_eq_true hle)⟩
    · rintro (⟨row', hrow', hwrites⟩ | ⟨seg, ⟨hseg, hentry, hwrites⟩, hfirst⟩)
      · refine ⟨hslot, row'.node, hfront.mpr (.inl ?_), hwrites⟩
        rw [← List.map_take]
        exact List.mem_map_of_mem hrow'
      · refine ⟨hslot, makeEntryNode seg, hfront.mpr (.inr ⟨_, List.mem_filter.mpr
          ⟨mem_entryInsertions.mpr ⟨seg, hseg, hentry, rfl⟩, ?_⟩, rfl⟩), hwrites⟩
        exact decide_eq_true ((findIdx_le_iff hi seg.id).mpr hfirst)
  · refine and_congr_right fun _ => and_congr_right fun _ => ?_
    have hback := @mem_insertAll _
      (((entryInsertions segments (rows.map Row.node)).filter fun q => i < q.1).map
        fun q => (q.1 - (i + 1), q.2)) ((rows.map Row.node).drop (i + 1)) fun q hq => by
          obtain ⟨p, hp, rfl⟩ := List.mem_map.mp hq
          have hle := le_of_mem_entryInsertions (List.mem_of_mem_filter hp)
          rw [List.length_drop]
          exact Nat.sub_le_sub_right hle _
    constructor
    · rintro ⟨m, hm, hscope, hwrites⟩
      rcases hback.mp hm with hm | ⟨q, hq, rfl⟩
      · rw [← List.map_drop] at hm
        obtain ⟨row', hrow', rfl⟩ := List.mem_map.mp hm
        exact .inl ⟨row', hrow', hscope, hwrites⟩
      · obtain ⟨p, hp, rfl⟩ := List.mem_map.mp hq
        obtain ⟨hp, hlt⟩ := List.mem_filter.mp hp
        obtain ⟨seg, hseg, hentry, rfl⟩ := mem_entryInsertions.mp hp
        refine .inr ⟨seg, ⟨hseg, hentry, hwrites⟩, hscope, fun row' hrow' hid => ?_⟩
        exact absurd (of_decide_eq_true hlt) (Nat.not_lt_of_le
          ((findIdx_le_iff hi seg.id).mpr ⟨row', hrow', hid⟩))
    · rintro (⟨row', hrow', hscope, hwrites⟩ | ⟨seg, ⟨hseg, hentry, hwrites⟩, hscope, hnone⟩)
      · refine ⟨row'.node, hback.mpr (.inl ?_), hscope, hwrites⟩
        rw [← List.map_drop]
        exact List.mem_map_of_mem hrow'
      · refine ⟨makeEntryNode seg, hback.mpr (.inr ⟨_, List.mem_map_of_mem
          (List.mem_filter.mpr ⟨mem_entryInsertions.mpr ⟨seg, hseg, hentry, rfl⟩, ?_⟩), rfl⟩),
          hscope, hwrites⟩
        refine decide_eq_true (Nat.lt_of_not_le fun hle => ?_)
        obtain ⟨row', hrow', hid⟩ := (findIdx_le_iff hi seg.id).mp hle
        exact hnone row' hrow' hid

end Insertions

/-- **When every external value has a source.** The data-flow graph of segments and rows has an edge
for every parameter and constant that a node reads exactly if each of these reads comes behind a
write of the slot, or not before the first row of a segment that has an entry node for the slot, or
stands where a loop begins that writes the slot again. -/
theorem externalsSourced_iff (segments : List Segment) (matrix : Matrix) :
    ExternalsSourced segments (buildDag segments matrix) ↔
      ∀ i row, matrix.rows[i]? = some row → row.note ≠ some .branchReconvergence →
        ∀ slot ∈ row.reads, (∃ seg ∈ segments, slot ∈ externalSlots seg) →
          WrittenBefore segments matrix.rows i slot ∨
            WrittenInLoop segments matrix.rows i row slot := by
  have hsorted := pairwise_entryInsertions segments (matrix.rows.map Row.node)
  have hle : ∀ q ∈ entryInsertions segments (matrix.rows.map Row.node),
      q.1 ≤ (matrix.rows.map Row.node).length := fun q => le_of_mem_entryInsertions
  constructor
  · intro hall i row hrow hnote slot hslot hexternal
    have hnode : (matrix.rows.map Row.node)[i]? = some row.node := by
      rw [List.getElem?_map, hrow]
      rfl
    have hi := (List.getElem?_eq_some_iff.mp hnode).1
    have hrows : matrix.rows.map Row.node = (matrix.rows.map Row.node).take i ++ row.node ::
        (matrix.rows.map Row.node).drop (i + 1) := by
      rw [← (List.getElem?_eq_some_iff.mp hnode).2, List.cons_getElem_drop_succ,
        List.take_append_drop]
    have hsplit := insertAll_split hsorted ((matrix.rows.map Row.node).take i) row.node
      ((matrix.rows.map Row.node).drop (i + 1))
    rw [← hrows, List.length_take_of_le hi.le] at hsplit
    generalize hfront : insertAll ((entryInsertions segments (matrix.rows.map Row.node)).filter
      fun q => q.1 ≤ i) ((matrix.rows.map Row.node).take i) = front at hsplit
    have hx : (insertAll (entryInsertions segments (matrix.rows.map Row.node))
        (matrix.rows.map Row.node))[front.length]? = some row.node := by
      rw [hsplit, List.getElem?_append_right le_rfl, Nat.sub_self]
      rfl
    refine (hasEdge_row_iff hrow hnote ?_ ?_ hx hslot).mp (hall { row.node with id := front.length }
      (List.mem_of_getElem? (i := front.length) ?_) ?_ slot hslot hexternal)
    · exact (congrArg (List.take front.length) hsplit).trans (by rw [List.take_left, hfront])
    · refine (congrArg (List.drop (front.length + 1)) hsplit).trans ?_
      rw [List.drop_append, List.drop_eq_nil_of_le (Nat.le_succ _), List.nil_append,
        Nat.add_sub_cancel_left]
      rfl
    · show (numberNodes _)[front.length]? = _
      rw [getElem?_numberNodes]
      exact congrArg _ hx
    · intro h
      refine hnote ?_
      have h : row.note.map NodeNote.phi = some (.phi .branchReconvergence) := h
      cases hn : row.note with
      | none =>
        rw [hn] at h
        cases h
      | some note =>
        rw [hn] at h
        exact congrArg some (NodeNote.phi.inj (Option.some.inj h))
  · intro hrows node hnode hnote slot hslot hexternal
    obtain ⟨n, hn⟩ := List.mem_iff_getElem?.mp hnode
    have hid := id_of_numberNodes hn
    rw [buildDag, dagOfNodes, dagNodes, getElem?_numberNodes] at hn
    obtain ⟨x, hx, rfl⟩ := Option.map_eq_some_iff.mp hn
    rcases insertAll_cases hsorted hle hx with ⟨q, hq, rfl⟩ | ⟨i, hi, htake, hdrop⟩
    · obtain ⟨seg, -, -, rfl⟩ := mem_entryInsertions.mp hq
      cases hslot
    · rw [List.getElem?_map] at hi
      obtain ⟨row, hrow, rfl⟩ := Option.map_eq_some_iff.mp hi
      have hrownote : row.note ≠ some .branchReconvergence := by
        intro h
        exact hnote (show row.note.map NodeNote.phi = _ by rw [h]; rfl)
      exact (hasEdge_row_iff hrow hrownote htake hdrop hx hslot).mpr
        (hrows i row hrow hrownote slot hslot hexternal)

/-! ### A parameter with the name of a function -/

/-- Two functions; the parameter of the second one is called like the first one. -/
def sameNameSource : Text :=
  lit "int max(int p) \x7b return p; \x7d int f(int max) \x7b return max; \x7d"

/-- Its segments. -/
def sameNameSegments : List Segment := (parseCFile .ascii {} sameNameSource).getD []

/-- The header of the second function is a statement of the root, and reads the parameter of the
first one there, in front of the entry of the first function. -/
theorem not_externalsSourced_sameName :
    ¬ ∀ (file : Text) (segs : List Segment) (matrix : Matrix),
      parseCFile .ascii {} file = some segs → buildMatrix .ascii segs = some matrix →
      ExternalsSourced segs (buildDag segs matrix) := by
  intro h
  have hparse : parseCFile .ascii {} sameNameSource = some sameNameSegments := by
    obtain ⟨segs, hsegs⟩ := Option.isSome_iff_exists.mp
      (show (parseCFile .ascii {} sameNameSource).isSome by decide +kernel)
    rw [sameNameSegments, hsegs]
    rfl
  obtain ⟨matrix, hmatrix⟩ := Option.isSome_iff_exists.mp
    (show (buildMatrix .ascii sameNameSegments).isSome by decide +kernel)
  have hread : (buildMatrix .ascii sameNameSegments).any fun matrix =>
      (buildDag sameNameSegments matrix).nodes.any (fun node => node.id = 2 && node.note = none &&
        lit "root.max.p" ∈ node.reads) &&
      (buildDag sameNameSegments matrix).edges.all (fun e => e.target ≠ 2) &&
      sameNameSegments.any fun seg => lit "root.max.p" ∈ externalSlots seg := by decide +kernel
  rw [hmatrix, Option.any_some, Bool.and_eq_true, Bool.and_eq_true] at hread
  obtain ⟨⟨hnode, hedges⟩, hexternal⟩ := hread
  obtain ⟨node, hmem, hnode⟩ := List.any_eq_true.mp hnode
  obtain ⟨seg, hseg, hslot⟩ := List.any_eq_true.mp hexternal
  rw [Bool.and_eq_true, Bool.and_eq_true] at hnode
  obtain ⟨⟨hid, hnote⟩, hreads⟩ := hnode
  obtain ⟨e, he, htarget, -⟩ := h _ _ _ hparse hmatrix node hmem
    (by rw [of_decide_eq_true hnote]; exact nofun) _ (of_decide_eq_true hreads)
    ⟨seg, hseg, of_decide_eq_true hslot⟩
  exact of_decide_eq_true (List.all_eq_true.mp hedges e he) (htarget.trans (of_decide_eq_true hid))

end Csc512
