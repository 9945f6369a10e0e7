import Csc512.Cdup.Merge
import Csc512.Cdup.Pairing
import Csc512.Cdup.StatementRows

/-!
# The matrix of merged files

The walk through merged files goes through one file after the other. The segments of a file are
`Embedded` in all segments: they are found under other numbers, with the same children. So a file
is walked among the others as it is walked alone, but for two things: the rows get the new numbers,
and names are looked up among the slots of all files.

The slots of all files come in an order that depends on the files, and no row depends on it. So
files that are merged in another order have the same rows.

## Main results

* `Embedded.walkSegment_eq` — the walk through a segment of a file, among other files
* `stmtToRow_perm` — no row depends on the order of the slots
* `matrix_of_files` — the matrix of merged files, file by file
* `matrix_order_independent` — and it does not depend on their order
-/

namespace Csc512

/-! ### Other numbers -/

/-- The row of a segment with another number. -/
def Row.renumber (idOffset : ℕ) (row : Row) : Row :=
  { row with segId := row.segId.map (idOffset + ·) }

/-- A walk through segments with other numbers. -/
def WalkState.renumber (idOffset : ℕ) (w : WalkState) : WalkState where
  rows := w.rows.map (Row.renumber idOffset)
  branchGroup := w.branchGroup.map (idOffset + ·)

theorem id_renumberSegment (idOffset : ℕ) (seg : Segment) :
    (renumberSegment idOffset seg).id = idOffset + seg.id :=
  Nat.add_comm _ _

theorem id_comp_renumberSegment (idOffset : ℕ) :
    Segment.id ∘ renumberSegment idOffset = (idOffset + ·) ∘ Segment.id :=
  funext (id_renumberSegment idOffset)

/-- The segments of a file among others, under other numbers. -/
structure Embedded (idOffset : ℕ) (segments merged : List Segment) : Prop where
  numbered : Numbered segments
  segById : ∀ i < segments.length,
    segById merged (idOffset + i) = (segById segments i).map (renumberSegment idOffset)
  children : ∀ i < segments.length,
    buildChildren merged (idOffset + i) = (buildChildren segments i).map (idOffset + ·)

section Walk

variable {U : CharTable} {slotIndex : List Text} {idOffset : ℕ} {segments merged : List Segment}
  {walk walk' : ℕ → Option (List Row)}

theorem stmtToRow_renumber (stmt : Statement) (seg : Segment) :
    stmtToRow U slotIndex stmt (renumberSegment idOffset seg).id seg.scopePath
      = (stmtToRow U slotIndex stmt seg.id seg.scopePath).renumber idOffset := by
  rw [id_renumberSegment]
  rfl

theorem WalkState.extend_renumber (w : WalkState) (rows : List Row) :
    (w.renumber idOffset).extend (rows.map (Row.renumber idOffset))
      = (w.extend rows).renumber idOffset := by
  simp [WalkState.extend, WalkState.renumber]

theorem walkAll_cons (c : ℕ) (ids : List ℕ) :
    walkAll walk (c :: ids) = (walk c).bind fun rows => (walkAll walk ids).map (rows ++ ·) := by
  rw [walkAll, walkAll, List.mapM_cons]
  cases walk c with
  | none => rfl
  | some rows => cases ids.mapM walk <;> rfl

namespace Embedded

variable (h : Embedded idOffset segments merged)

include h

theorem child_bounds {i c : ℕ} (hc : c ∈ buildChildren segments i) :
    i < c ∧ c < segments.length := by
  obtain ⟨seg, hseg, rfl, rfl, hne⟩ := mem_buildChildren.mp hc
  exact ⟨lt_of_le_of_ne (h.numbered.parents seg hseg).1 hne, h.numbered.id_lt hseg⟩

/-- What is written below a segment, whatever the others are. -/
theorem collectWritesInSubtree_eq {fuel fuel' i : ℕ} (hi : i < segments.length)
    (hfuel : segments.length ≤ fuel + i) (hfuel' : segments.length ≤ fuel' + i) :
    collectWritesInSubtree U merged slotIndex fuel' (idOffset + i)
      = collectWritesInSubtree U segments slotIndex fuel i := by
  induction fuel generalizing fuel' i with
  | zero => omega
  | succ fuel ih =>
    -- Children have greater numbers, so the fuel is enough as long as there are numbers left.
    obtain ⟨fuel', rfl⟩ : ∃ k, fuel' = k + 1 := ⟨fuel' - 1, by omega⟩
    rw [collectWritesInSubtree, collectWritesInSubtree, h.segById i hi, h.children i hi,
      List.flatMap_map]
    congr 1
    · cases Csc512.segById segments i <;> rfl
    · refine List.flatMap_congr fun c hc => ?_
      obtain ⟨hlt, hgt⟩ := h.child_bounds hc
      exact ih hgt (by omega) (by omega)

theorem phiRowsForLoop_eq {fuel fuel' : ℕ} {seg : Segment} (hseg : seg ∈ segments)
    (hfuel : segments.length ≤ fuel + seg.id) (hfuel' : segments.length ≤ fuel' + seg.id) :
    phiRowsForLoop U merged slotIndex fuel' (renumberSegment idOffset seg)
      = (phiRowsForLoop U segments slotIndex fuel seg).map (Row.renumber idOffset) := by
  rw [phiRowsForLoop, phiRowsForLoop, id_renumberSegment,
    h.collectWritesInSubtree_eq (h.numbered.id_lt hseg) hfuel hfuel', List.map_map]
  rfl

theorem phiRowsForBranchGroup_eq {group : List ℕ} (hgroup : ∀ c ∈ group, c < segments.length) :
    phiRowsForBranchGroup U merged slotIndex (group.map (idOffset + ·))
      = (phiRowsForBranchGroup U segments slotIndex group).map (Row.renumber idOffset) := by
  have hchildren : (group.map (idOffset + ·)).filterMap (Csc512.segById merged)
      = (group.filterMap (Csc512.segById segments)).map (renumberSegment idOffset) := by
    rw [List.filterMap_map, List.map_filterMap]
    exact List.filterMap_congr fun c hc => h.segById c (hgroup c hc)
  rw [phiRowsForBranchGroup, phiRowsForBranchGroup, hchildren, List.flatMap_map, List.map_map]
  rfl

theorem flushBranchGroup_eq {w : WalkState} (hw : ∀ c ∈ w.branchGroup, c < segments.length) :
    (w.renumber idOffset).flushBranchGroup U merged slotIndex
      = (w.flushBranchGroup U segments slotIndex).renumber idOffset := by
  simp [WalkState.flushBranchGroup, WalkState.renumber, h.phiRowsForBranchGroup_eq hw]

/-- The walk into a child. -/
theorem walkChild_eq {w : WalkState} (hw : ∀ c ∈ w.branchGroup, c < segments.length) {c : ℕ}
    (hc : c < segments.length)
    (hwalk : walk' (idOffset + c) = (walk c).map (List.map (Row.renumber idOffset))) :
    walkChild U merged slotIndex walk' (w.renumber idOffset) (idOffset + c)
      = (walkChild U segments slotIndex walk w c).map (WalkState.renumber idOffset) := by
  rw [walkChild, walkChild, h.segById c hc, hwalk]
  cases hchild : Csc512.segById segments c with
  | none => rfl
  | some child =>
    cases hrows : walk c with
    | none => rfl
    | some rows =>
      have htype : (renumberSegment idOffset child).type = child.type := rfl
      simp only [Option.map_some, Option.bind_eq_bind, Option.bind_some, htype]
      split_ifs
      · simp [WalkState.renumber]
      · rw [h.flushBranchGroup_eq hw, WalkState.extend_renumber]
        rfl

/-- The walk through a statement. -/
theorem walkStmt_eq {w : WalkState} (hw : ∀ c ∈ w.branchGroup, c < segments.length) (seg : Segment)
    {p : Statement × Option ℕ} (hp : ∀ c ∈ p.2, c < segments.length ∧
      walk' (idOffset + c) = (walk c).map (List.map (Row.renumber idOffset))) :
    walkStmt U merged slotIndex walk' (renumberSegment idOffset seg) (w.renumber idOffset)
        (p.1, p.2.map (idOffset + ·))
      = (walkStmt U segments slotIndex walk seg w p).map (WalkState.renumber idOffset) := by
  have hpath : (renumberSegment idOffset seg).scopePath = seg.scopePath := rfl
  have hrow : ∀ w : WalkState, (w.renumber idOffset).extend
      [stmtToRow U slotIndex p.1 (renumberSegment idOffset seg).id seg.scopePath]
        = (w.extend [stmtToRow U slotIndex p.1 seg.id seg.scopePath]).renumber idOffset := by
    intro w
    rw [stmtToRow_renumber, ← WalkState.extend_renumber]
    rfl
  simp only [walkStmt, hpath, hrow]
  split_ifs
  · cases hchild : p.2 with
    | none => rfl
    | some c =>
      obtain ⟨hc, hwalk⟩ := hp c hchild
      exact h.walkChild_eq (w := w.extend _) hw hc hwalk
  · rw [h.flushBranchGroup_eq hw, hrow]
    rfl

omit h in
/-- The open branch has children of the segment only. -/
theorem branchGroup_walkStmt {w w' : WalkState} {seg : Segment} {p : Statement × Option ℕ}
    {q : ℕ → Prop} (hw : ∀ c ∈ w.branchGroup, q c) (hp : ∀ c ∈ p.2, q c)
    (hstep : walkStmt U segments slotIndex walk seg w p = some w') : ∀ c ∈ w'.branchGroup, q c := by
  dsimp only [walkStmt] at hstep
  split_ifs at hstep
  · split at hstep
    · next c hc =>
      obtain ⟨child, -, hstep⟩ := Option.bind_eq_some_iff.mp hstep
      obtain ⟨rows, -, hstep⟩ := Option.bind_eq_some_iff.mp hstep
      split_ifs at hstep
      · obtain rfl := Option.some.inj hstep
        exact List.forall_mem_append.mpr ⟨hw, List.forall_mem_singleton.mpr (hp c hc)⟩
      · obtain rfl := Option.some.inj hstep
        exact fun _ hmem => absurd hmem List.not_mem_nil
    · obtain rfl := Option.some.inj hstep
      exact hw
  · obtain rfl := Option.some.inj hstep
    exact fun _ hmem => absurd hmem List.not_mem_nil

/-- The walk through the statements of a segment. -/
theorem walkStmts_eq {w : WalkState} (hw : ∀ c ∈ w.branchGroup, c < segments.length) (seg : Segment)
    {pairs : List (Statement × Option ℕ)} (hpairs : ∀ p ∈ pairs, ∀ c ∈ p.2, c < segments.length ∧
      walk' (idOffset + c) = (walk c).map (List.map (Row.renumber idOffset))) :
    (pairs.map fun p => (p.1, p.2.map (idOffset + ·))).foldlM
        (walkStmt U merged slotIndex walk' (renumberSegment idOffset seg)) (w.renumber idOffset)
      = (pairs.foldlM (walkStmt U segments slotIndex walk seg) w).map
          (WalkState.renumber idOffset) := by
  induction pairs generalizing w with
  | nil => rfl
  | cons p pairs ih =>
    rw [List.forall_mem_cons] at hpairs
    rw [List.map_cons, List.foldlM_cons, List.foldlM_cons, h.walkStmt_eq hw seg hpairs.1]
    cases hstep : walkStmt U segments slotIndex walk seg w p with
    | none => rfl
    | some w' =>
      exact ih (branchGroup_walkStmt hw (fun c hc => (hpairs.1 c hc).1) hstep) hpairs.2

omit h in
/-- The walks through segments one after the other. -/
theorem walkAll_eq {ids : List ℕ}
    (hwalk : ∀ c ∈ ids, walk' (idOffset + c) = (walk c).map (List.map (Row.renumber idOffset))) :
    walkAll walk' (ids.map (idOffset + ·))
      = (walkAll walk ids).map (List.map (Row.renumber idOffset)) := by
  induction ids with
  | nil => rfl
  | cons c ids ih =>
    rw [List.forall_mem_cons] at hwalk
    rw [List.map_cons, walkAll_cons, walkAll_cons, hwalk.1, ih hwalk.2]
    cases walk c with
    | none => rfl
    | some rows =>
      cases walkAll walk ids with
      | none => rfl
      | some rest => simp

omit h in
theorem branchGroup_walkStmts {w w' : WalkState} {seg : Segment}
    {pairs : List (Statement × Option ℕ)} {q : ℕ → Prop} (hw : ∀ c ∈ w.branchGroup, q c)
    (hpairs : ∀ p ∈ pairs, ∀ c ∈ p.2, q c)
    (hsteps : pairs.foldlM (walkStmt U segments slotIndex walk seg) w = some w') :
    ∀ c ∈ w'.branchGroup, q c := by
  induction pairs generalizing w with
  | nil =>
    obtain rfl := Option.some.inj hsteps
    exact hw
  | cons p pairs ih =>
    rw [List.forall_mem_cons] at hpairs
    rw [List.foldlM_cons] at hsteps
    obtain ⟨w₁, hstep, hrest⟩ := Option.bind_eq_some_iff.mp hsteps
    exact ih (branchGroup_walkStmt hw hpairs.1 hstep) hpairs.2 hrest

/-- The walk through a segment, where the walks through its children are known. -/
theorem walkPairs_eq {fuel fuel' : ℕ} {seg : Segment} (hseg : seg ∈ segments)
    (hfuel : segments.length ≤ fuel + 1 + seg.id) (hfuel' : segments.length ≤ fuel' + 1 + seg.id)
    (hchild : ∀ c ∈ buildChildren segments seg.id,
      walkSegment U merged slotIndex fuel' (idOffset + c)
        = (walkSegment U segments slotIndex fuel c).map (List.map (Row.renumber idOffset))) :
    walkPairs U merged slotIndex fuel' (renumberSegment idOffset seg)
      = (walkPairs U segments slotIndex fuel seg).map (List.map (Row.renumber idOffset)) := by
  have hi := h.numbered.id_lt hseg
  have htype : (renumberSegment idOffset seg).type = seg.type := rfl
  have hstmts : (renumberSegment idOffset seg).stmts = seg.stmts := rfl
  have htaken : takenChildren merged (renumberSegment idOffset seg)
      = (takenChildren segments seg).map fun p => (p.1, p.2.map (idOffset + ·)) := by
    rw [takenChildren, id_renumberSegment, h.children seg.id hi, deal_map_right]
    rfl
  have hentry : (if seg.type = .loop then
        phiRowsForLoop U merged slotIndex (fuel' + 1) (renumberSegment idOffset seg) else [])
      = (if seg.type = .loop then phiRowsForLoop U segments slotIndex (fuel + 1) seg else []).map
          (Row.renumber idOffset) := by
    rw [h.phiRowsForLoop_eq hseg hfuel hfuel', apply_ite (List.map (Row.renumber idOffset)),
      List.map_nil]
  have hbound : ∀ p ∈ takenChildren segments seg, ∀ c ∈ p.2, c < segments.length :=
    fun p hp c hc => (h.child_bounds (mem_of_mem_deal _ hp hc)).2
  have hleft := walkAll_eq fun c (hc : c ∈ (buildChildren segments seg.id).drop
    (seg.stmts.countP Statement.takesChild)) => hchild c (List.mem_of_mem_drop hc)
  rw [walkPairs, walkPairs]
  simp only [htype, hstmts, id_renumberSegment, htaken, h.children seg.id hi, ← List.map_drop, hleft,
    hentry]
  generalize (if seg.type = .loop then phiRowsForLoop U segments slotIndex (fuel + 1) seg else [])
    = entry
  rw [show ({ rows := entry.map (Row.renumber idOffset) } : WalkState)
      = ({ rows := entry } : WalkState).renumber idOffset from rfl,
    h.walkStmts_eq (fun _ hmem => absurd hmem List.not_mem_nil) seg
      fun p hp c hc => ⟨hbound p hp c hc, hchild c (mem_of_mem_deal _ hp hc)⟩]
  cases hsteps : (takenChildren segments seg).foldlM (walkStmt U segments slotIndex
      (walkSegment U segments slotIndex fuel) seg) { rows := entry } with
  | none => rfl
  | some w =>
    have hw := branchGroup_walkStmts (fun _ hmem => absurd hmem List.not_mem_nil) hbound hsteps
    simp only [Option.map_some, Option.bind_some, h.flushBranchGroup_eq hw, Option.map_map]
    congr 1
    funext left
    simp [WalkState.renumber]

/-- **The walk through a segment of a file** is that through the file, whatever else was merged. -/
theorem walkSegment_eq {fuel fuel' i : ℕ} (hi : i < segments.length)
    (hfuel : segments.length ≤ fuel + i) (hfuel' : segments.length ≤ fuel' + i) :
    walkSegment U merged slotIndex fuel' (idOffset + i)
      = (walkSegment U segments slotIndex fuel i).map (List.map (Row.renumber idOffset)) := by
  induction fuel generalizing fuel' i with
  | zero => omega
  | succ fuel ih =>
    obtain ⟨fuel', rfl⟩ : ∃ k, fuel' = k + 1 := ⟨fuel' - 1, by omega⟩
    rw [walkSegment_eq_walkPairs, walkSegment_eq_walkPairs, h.segById i hi]
    cases hseg : Csc512.segById segments i with
    | none => rfl
    | some seg =>
      obtain rfl := id_of_segById hseg
      refine h.walkPairs_eq (mem_of_segById hseg) hfuel hfuel' fun c hc => ?_
      obtain ⟨hlt, hle⟩ := h.child_bounds hc
      exact ih hle (by omega) (by omega)

/-- The walk through a root and the segments below it. -/
theorem walkRoot_eq (hlen : segments.length ≤ merged.length) {i : ℕ} (hi : i < segments.length) :
    walkRoot U merged slotIndex (idOffset + i)
      = (walkRoot U segments slotIndex i).map (List.map (Row.renumber idOffset)) := by
  have hbelow : walkAll (walkSegment U merged slotIndex merged.length)
        ((buildChildren segments i).map (idOffset + ·))
      = (walkAll (walkSegment U segments slotIndex segments.length) (buildChildren segments i)).map
          (List.map (Row.renumber idOffset)) :=
    walkAll_eq fun c hc => h.walkSegment_eq (h.child_bounds hc).2 (by omega) (by omega)
  rw [walkRoot, walkRoot, h.segById i hi, h.children i hi, hbelow]
  cases hroot : Csc512.segById segments i with
  | none => rfl
  | some root =>
    cases walkAll (walkSegment U segments slotIndex segments.length) (buildChildren segments i) with
    | none => rfl
    | some rows => simp [renumberSegment, Row.renumber, stmtToRow, makeRow]

end Embedded

end Walk

/-! ### The rows of all files -/

section Merged

variable (U : CharTable) (slotIndex : List Text)

/-- The roots of some segments. -/
def rootIds (segments : List Segment) : List ℕ :=
  ((segments.filter fun seg => seg.id = seg.parent).map Segment.id).insertionSort (· ≤ ·)

/-- The rows of some segments, among slots that need not be theirs. -/
def matrixRows (segments : List Segment) : Option (List Row) :=
  walkAll (walkRoot U segments slotIndex) (rootIds segments)

/-- The rows of the files from here on, each file by itself. -/
def mergeRowsFrom : ℕ → List (List Segment) → Option (List Row)
  | _, [] => some []
  | idOffset, segments :: files => do
    let rows ← matrixRows U slotIndex segments
    let rest ← mergeRowsFrom (idOffset + segments.length) files
    some (rows.map (Row.renumber idOffset) ++ rest)

/-- The rows of all files, each file by itself. -/
def mergeRows (files : List (List Segment)) : Option (List Row) := mergeRowsFrom U slotIndex 0 files

variable {U slotIndex}

theorem walkAll_append {walk : ℕ → Option (List Row)} (ids ids' : List ℕ) :
    walkAll walk (ids ++ ids')
      = (walkAll walk ids).bind fun rows => (walkAll walk ids').map (rows ++ ·) := by
  induction ids with
  | nil => exact Option.map_id'.symm
  | cons c ids ih =>
    rw [List.cons_append, walkAll_cons, walkAll_cons, ih]
    cases walk c with
    | none => rfl
    | some rows =>
      cases walkAll walk ids with
      | none => rfl
      | some rows' => cases walkAll walk ids' <;> simp

theorem rootIds_of_pairwise {segments : List Segment}
    (h : (segments.map Segment.id).Pairwise (· < ·)) :
    rootIds segments = (segments.filter fun seg => seg.id = seg.parent).map Segment.id :=
  List.Pairwise.insertionSort_eq
    ((h.sublist (List.filter_sublist.map Segment.id)).imp Nat.le_of_lt)

theorem Numbered.pairwise_id {segments : List Segment} (h : Numbered segments) :
    (segments.map Segment.id).Pairwise (· < ·) := by
  rw [h.ids]
  exact List.pairwise_lt_range

theorem Numbered.rootIds_lt {segments : List Segment} (h : Numbered segments) :
    ∀ i ∈ rootIds segments, i < segments.length := by
  intro i hi
  rw [rootIds_of_pairwise h.pairwise_id, List.mem_map] at hi
  obtain ⟨seg, hseg, rfl⟩ := hi
  exact h.id_lt (List.mem_filter.mp hseg).1

section Files

variable {before after : List (List Segment)} {segments : List Segment}
  (h : ∀ segs ∈ before ++ segments :: after, Numbered segs)

include h

theorem buildChildren_mergeSegments {i : ℕ} (hi : i < segments.length) :
    buildChildren (mergeSegments (before ++ segments :: after)) (segmentCount before + i)
      = (buildChildren segments i).map (segmentCount before + ·) := by
  rw [buildChildren, buildChildren, filter_mergeSegments h hi fun seg hseg => Or.inr (by
    have hall := of_decide_eq_true hseg
    exact hall.2),
    List.map_insertionSort (· ≤ ·) _ _ _ fun a _ b _ => (Nat.add_le_add_iff_left).symm,
    List.map_map, List.map_map, id_comp_renumberSegment]
  congr 2
  refine List.filter_congr fun seg _ => decide_eq_decide.mpr ?_
  simp only [renumberSegment]
  omega

/-- Every file is a part of the merged segments. -/
theorem embedded_mergeSegments :
    Embedded (segmentCount before) segments (mergeSegments (before ++ segments :: after)) where
  numbered := h segments (by simp)
  segById _ hi := segById_mergeSegments h hi
  children _ hi := buildChildren_mergeSegments h hi

omit h in
theorem length_mergeSegmentsFrom (idOffset : ℕ) (files : List (List Segment)) :
    (mergeSegmentsFrom idOffset files).length = segmentCount files := by
  induction files generalizing idOffset with
  | nil => rfl
  | cons segments files ih =>
    rw [mergeSegmentsFrom, List.length_append, List.length_map, ih, segmentCount, segmentCount,
      List.map_cons, List.sum_cons]

end Files

/-- The walks through the roots of the files from here on. -/
theorem walkAll_mergeSegmentsFrom {before after : List (List Segment)}
    (h : ∀ segs ∈ before ++ after, Numbered segs) :
    walkAll (walkRoot U (mergeSegments (before ++ after)) slotIndex)
        (((mergeSegmentsFrom (segmentCount before) after).filter fun seg =>
          seg.id = seg.parent).map Segment.id)
      = mergeRowsFrom U slotIndex (segmentCount before) after := by
  induction after generalizing before with
  | nil => rfl
  | cons segments after ih =>
    have hnumbered : Numbered segments := h segments (by simp)
    have hfirst : ((segments.map (renumberSegment (segmentCount before))).filter fun seg =>
          seg.id = seg.parent).map Segment.id
        = (rootIds segments).map (segmentCount before + ·) := by
      rw [rootIds_of_pairwise hnumbered.pairwise_id, List.filter_map, List.map_map, List.map_map,
        id_comp_renumberSegment]
      congr 1
      refine List.filter_congr fun seg _ => decide_eq_decide.mpr ?_
      exact Nat.add_right_cancel_iff
    have hlen : segments.length ≤ (mergeSegments (before ++ segments :: after)).length := by
      rw [mergeSegments, length_mergeSegmentsFrom, segmentCount, List.map_append, List.sum_append,
        List.map_cons, List.sum_cons]
      omega
    have hcount : segmentCount (before ++ [segments])
        = segmentCount before + segments.length := by
      simp [segmentCount]
    have hsplit : before ++ segments :: after = (before ++ [segments]) ++ after := by simp
    have h' : ∀ segs ∈ (before ++ [segments]) ++ after, Numbered segs := hsplit ▸ h
    have hrest := ih h'
    rw [← hsplit, hcount] at hrest
    rw [mergeSegmentsFrom, List.filter_append, List.map_append, walkAll_append, hfirst, hrest,
      Embedded.walkAll_eq fun c hc => (embedded_mergeSegments h).walkRoot_eq hlen
        (hnumbered.rootIds_lt c hc), mergeRowsFrom, matrixRows]
    cases walkAll (walkRoot U segments slotIndex) (rootIds segments) with
    | none => rfl
    | some rows =>
      cases mergeRowsFrom U slotIndex (segmentCount before + segments.length) after <;> rfl

/-- The rows of merged files are the rows of the files one after the other. -/
theorem buildMatrix_mergeSegments {files : List (List Segment)}
    (h : ∀ segs ∈ files, Numbered segs) :
    buildMatrix U (mergeSegments files) =
      (mergeRows U (allScopedSlots (mergeSegments files)) files).map fun rows =>
        { slots := allScopedSlots (mergeSegments files), rows } := by
  have hpairwise : ((mergeSegments files).map Segment.id).Pairwise (· < ·) := by
    rw [map_id_mergeSegments h]
    exact List.pairwise_lt_range
  have hrows : walkAll (walkRoot U (mergeSegments files) (allScopedSlots (mergeSegments files)))
      (rootIds (mergeSegments files))
        = mergeRows U (allScopedSlots (mergeSegments files)) files := by
    rw [rootIds_of_pairwise hpairwise]
    exact @walkAll_mergeSegmentsFrom U _ [] files h
  rw [← hrows]
  exact (Option.map_eq_bind ..).symm

end Merged

/-! ### The order of the files -/

theorem nodup_eraseDups {α : Type*} [BEq α] [LawfulBEq α] (l : List α) : l.eraseDups.Nodup := by
  induction hlen : l.length using Nat.strongRecOn generalizing l with
  | ind k ih =>
    cases l with
    | nil => exact List.nodup_nil
    | cons x l =>
      rw [List.eraseDups_cons, List.nodup_cons]
      have hle := List.length_filter_le (fun y => !y == x) l
      rw [List.length_cons] at hlen
      exact ⟨fun hmem => by simp at hmem, ih _ (by omega) _ rfl⟩

section Slots

variable {slotIndex slotIndex' : List Text} (h : slotIndex.Perm slotIndex') (U : CharTable)
  (scopePath : Text)

theorem sortTexts_perm {texts texts' : List Text} (h : texts.Perm texts') :
    sortTexts texts = sortTexts texts' :=
  (((List.perm_insertionSort _ _).trans h).trans (List.perm_insertionSort _ _).symm).eq_of_pairwise'
    (List.pairwise_insertionSort _ _) (List.pairwise_insertionSort _ _)

mutual

theorem resolveExpr_congr
    (h : resolveSlot U scopePath slotIndex = resolveSlot U scopePath slotIndex') (e : Expr) :
    resolveExpr U scopePath slotIndex e = resolveExpr U scopePath slotIndex' e := by
  cases e with
  | name n => rw [resolveExpr, resolveExpr, h]
  | slot s => rw [resolveExpr, resolveExpr]
  | const c => rw [resolveExpr, resolveExpr]
  | bin op left right =>
    rw [resolveExpr, resolveExpr, resolveExpr_congr h left, resolveExpr_congr h right]
  | un op arg => rw [resolveExpr, resolveExpr, resolveExpr_congr h arg]
  | step op arg => rw [resolveExpr, resolveExpr, resolveExpr_congr h arg]
  | index arr idx => rw [resolveExpr, resolveExpr, resolveExpr_congr h arr, resolveExpr_congr h idx]
  | field obj field =>
    have hfield : resolveField U scopePath slotIndex = resolveField U scopePath slotIndex' := by
      funext obj field
      simp only [resolveField, h]
    rw [resolveExpr, resolveExpr, resolveExpr_congr h obj, hfield]
  | call fn args => rw [resolveExpr, resolveExpr, resolveExprs_congr h args]
  | cast type arg => rw [resolveExpr, resolveExpr, resolveExpr_congr h arg]
  | sizeofType of => rw [resolveExpr, resolveExpr]
  | sizeofExpr arg => rw [resolveExpr, resolveExpr, resolveExpr_congr h arg]

theorem resolveExprs_congr
    (h : resolveSlot U scopePath slotIndex = resolveSlot U scopePath slotIndex') (es : List Expr) :
    resolveExprs U scopePath slotIndex es = resolveExprs U scopePath slotIndex' es := by
  cases es with
  | nil => rfl
  | cons e es => rw [resolveExprs, resolveExprs, resolveExpr_congr h e, resolveExprs_congr h es]

end

include h

theorem resolveSlot_perm :
    resolveSlot U scopePath slotIndex = resolveSlot U scopePath slotIndex' := by
  have hfind : findInScopes scopePath slotIndex = findInScopes scopePath slotIndex' := by
    funext name
    simp only [findInScopes, h.mem_iff]
  funext name
  simp only [resolveSlot, hfind]

theorem memberSlots_perm (name : Text) :
    memberSlots scopePath slotIndex name = memberSlots scopePath slotIndex' name :=
  sortTexts_perm (h.filter _)

theorem declaredMembers_perm (name : Text) :
    declaredMembers scopePath slotIndex name = declaredMembers scopePath slotIndex' name := by
  rw [declaredMembers, declaredMembers]
  induction enclosingScopes scopePath with
  | nil => rfl
  | cons scope scopes ih =>
    have hslots := h.filter fun slot => (scope ++ '.' :: name ++ ['.']).isPrefixOf slot
    rw [List.map_cons, List.map_cons, List.find?_cons, List.find?_cons]
    by_cases hnil : slotIndex.filter (fun slot => (scope ++ '.' :: name ++ ['.']).isPrefixOf slot)
      = []
    · have hnil' := hslots
      rw [hnil, List.nil_perm] at hnil'
      simpa only [hnil, hnil', ne_eq, not_true_eq_false, decide_false] using ih
    · have hnil' : ¬ slotIndex'.filter (fun slot =>
          (scope ++ '.' :: name ++ ['.']).isPrefixOf slot) = [] := by
        intro heq
        rw [heq, List.perm_nil] at hslots
        exact hnil hslots
      simp only [ne_eq, hnil, hnil', not_false_eq_true, decide_true]
      exact sortTexts_perm hslots

/-- **Slots in another order** make the same rows. -/
theorem stmtToRow_perm : stmtToRow U slotIndex = stmtToRow U slotIndex' := by
  funext stmt segId scopePath
  have hliterals : extractLiteralSlots U scopePath slotIndex
      = extractLiteralSlots U scopePath slotIndex' := by
    funext raw
    simp only [extractLiteralSlots, resolveSlot_perm h]
  have hexpr : resolveExpr U scopePath slotIndex = resolveExpr U scopePath slotIndex' :=
    funext (resolveExpr_congr U scopePath (resolveSlot_perm h U scopePath))
  have haccesses : stmtAccesses U slotIndex stmt scopePath
      = stmtAccesses U slotIndex' stmt scopePath := by
    simp only [stmtAccesses, resolveSlot_perm h, hliterals, memberSlots_perm h,
      declaredMembers_perm h]
  rw [stmtToRow, stmtToRow, haccesses, hexpr]

variable (segments : List Segment)

theorem segmentWrites_perm : segmentWrites U slotIndex = segmentWrites U slotIndex' := by
  funext seg
  simp only [segmentWrites, stmtToRow_perm h]

theorem collectWritesInSubtree_perm (fuel : ℕ) :
    collectWritesInSubtree U segments slotIndex fuel
      = collectWritesInSubtree U segments slotIndex' fuel := by
  induction fuel with
  | zero => rfl
  | succ fuel ih =>
    funext segId
    rw [collectWritesInSubtree, collectWritesInSubtree, ih, segmentWrites_perm h]

theorem walkStmt_perm (walk : ℕ → Option (List Row)) :
    walkStmt U segments slotIndex walk = walkStmt U segments slotIndex' walk := by
  have hflush : WalkState.flushBranchGroup U segments slotIndex
      = WalkState.flushBranchGroup U segments slotIndex' := by
    funext w
    simp only [WalkState.flushBranchGroup, phiRowsForBranchGroup, segmentWrites_perm h]
  funext seg w p
  simp only [walkStmt, walkChild, stmtToRow_perm h, hflush]

theorem walkSegment_perm (fuel : ℕ) :
    walkSegment U segments slotIndex fuel = walkSegment U segments slotIndex' fuel := by
  induction fuel with
  | zero => rfl
  | succ fuel ih =>
    funext segId
    rw [walkSegment_eq_walkPairs, walkSegment_eq_walkPairs]
    refine Option.bind_congr fun seg _ => ?_
    simp only [walkPairs, ih, walkStmt_perm h, phiRowsForLoop, collectWritesInSubtree_perm h,
      WalkState.flushBranchGroup, phiRowsForBranchGroup, segmentWrites_perm h]

theorem matrixRows_perm : matrixRows U slotIndex = matrixRows U slotIndex' := by
  funext segments
  have hroot : walkRoot U segments slotIndex = walkRoot U segments slotIndex' := by
    funext rootId
    simp only [walkRoot, walkSegment_perm h, stmtToRow_perm h]
  rw [matrixRows, matrixRows, hroot]

end Slots

theorem mem_allScopedSlots {segments : List Segment} {slot : Text} :
    slot ∈ allScopedSlots segments ↔
      ∃ seg ∈ segments, slot ∈ (seg.memory ++ seg.constants).map Slot.scopedName := by
  simp only [allScopedSlots, List.mem_eraseDups, List.mem_flatMap, List.mem_insertionSort]

/-- The slots of merged files are those of the files. -/
theorem mem_allScopedSlots_mergeSegments {files : List (List Segment)} {slot : Text} :
    slot ∈ allScopedSlots (mergeSegments files) ↔
      ∃ segments ∈ files, slot ∈ allScopedSlots segments := by
  simp only [mem_allScopedSlots]
  constructor
  · rintro ⟨seg, hseg, hslot⟩
    obtain ⟨before, segments, after, rfl, seg', hseg', rfl⟩ := mem_mergeSegmentsFrom.mp hseg
    exact ⟨segments, by simp, seg', hseg', hslot⟩
  · rintro ⟨segments, hsegments, seg, hseg, hslot⟩
    obtain ⟨before, after, rfl⟩ := List.append_of_mem hsegments
    exact ⟨_, mem_mergeSegmentsFrom.mpr ⟨before, segments, after, rfl, seg, hseg, rfl⟩, hslot⟩

theorem allScopedSlots_perm {files files' : List (List Segment)} (h : files.Perm files') :
    (allScopedSlots (mergeSegments files)).Perm (allScopedSlots (mergeSegments files')) := by
  refine (List.perm_ext_iff_of_nodup (nodup_eraseDups (α := Text) _)
    (nodup_eraseDups _)).mpr fun slot => ?_
  show slot ∈ allScopedSlots (mergeSegments files) ↔ slot ∈ allScopedSlots (mergeSegments files')
  rw [mem_allScopedSlots_mergeSegments, mem_allScopedSlots_mergeSegments]
  simp only [h.mem_iff]

/-- A row without the number of its segment. -/
def Row.unnumbered (row : Row) : Row := { row with segId := none }

theorem map_unnumbered_mergeRowsFrom {U : CharTable} {slotIndex : List Text} {idOffset : ℕ}
    {files : List (List Segment)} {rows : List Row}
    (h : mergeRowsFrom U slotIndex idOffset files = some rows) :
    rows.map Row.unnumbered
      = (files.filterMap (matrixRows U slotIndex)).flatten.map Row.unnumbered := by
  induction files generalizing idOffset rows with
  | nil =>
    obtain rfl := Option.some.inj h
    rfl
  | cons segments files ih =>
    obtain ⟨first, hfirst, h⟩ := Option.bind_eq_some_iff.mp h
    obtain ⟨rest, hrest, heq⟩ := Option.bind_eq_some_iff.mp h
    obtain rfl := Option.some.inj heq
    have hfront : (first.map (Row.renumber idOffset)).map Row.unnumbered
        = first.map Row.unnumbered := by
      rw [List.map_map]
      rfl
    rw [List.filterMap_cons_some hfirst, List.flatten_cons, List.map_append, List.map_append,
      hfront, ih hrest]

theorem forest_mergeSegments {files : List (List Segment)}
    (h : ∀ segments ∈ files, Numbered segments) : Forest (mergeSegments files) where
  nodup := nodup_mergeSegments h
  parent_mem seg hseg := by
    have hrange := range_of_mem_mergeSegmentsFrom h hseg
    rw [map_id_mergeSegments h, List.mem_range]
    omega
  ranked := ⟨id, fun seg hseg hne => by
    obtain ⟨before, segments, after, rfl, seg', hseg', rfl⟩ := mem_mergeSegmentsFrom.mp hseg
    have hparents := (h segments (by simp)).parents seg' hseg'
    simp only [renumberSegment, id] at hne ⊢
    omega⟩

/-- The merged files have a matrix, and its rows are those of the files. -/
theorem exists_rows_mergeSegments (U : CharTable) {files : List (List Segment)}
    (h : ∀ segments ∈ files, Numbered segments) :
    ∃ rows, mergeRows U (allScopedSlots (mergeSegments files)) files = some rows ∧
      buildMatrix U (mergeSegments files)
        = some { slots := allScopedSlots (mergeSegments files), rows } := by
  obtain ⟨m, hm⟩ := Option.isSome_iff_exists.mp (buildMatrix_isSome U (forest_mergeSegments h))
  have hmatrix := buildMatrix_mergeSegments (U := U) h
  rw [hm] at hmatrix
  obtain ⟨rows, hrows, heq⟩ := Option.map_eq_some_iff.mp hmatrix.symm
  exact ⟨rows, hrows, by rw [hm, heq]⟩

/-- **The matrix of merged files**: each file is walked by itself, among the slots of all files, and
its rows follow those of the files before it. -/
theorem matrix_of_files {U : CharTable} {opts : Includes} {parsed : List (List Segment)}
    (hparsed : ∀ segs ∈ parsed, ∃ file, parseCFile U opts file = some segs) :
    ∃ rows, mergeRows U (allScopedSlots (mergeSegments parsed)) parsed = some rows ∧
      buildMatrix U (mergeSegments parsed)
        = some { slots := allScopedSlots (mergeSegments parsed), rows } :=
  exists_rows_mergeSegments U (numbered_of_parsed hparsed)

/-- The segments of a source, and of another one. -/
def bracedSegments : List Segment :=
  (parseCFile .ascii {} bracedSource).get isSome_parse_bracedSource.1

def bareSegments : List Segment := (parseCFile .ascii {} bareSource).get isSome_parse_bareSource.1

theorem parsed_bracedSegments : ∀ segs ∈ [bracedSegments, bareSegments],
    ∃ file, parseCFile .ascii {} file = some segs := by
  rw [List.forall_mem_cons, List.forall_mem_singleton]
  exact ⟨⟨bracedSource, (Option.some_get _).symm⟩, ⟨bareSource, (Option.some_get _).symm⟩⟩

theorem matrix_of_files_braced :
    ∃ rows, mergeRows .ascii (allScopedSlots (mergeSegments [bracedSegments, bareSegments]))
        [bracedSegments, bareSegments] = some rows ∧
      buildMatrix .ascii (mergeSegments [bracedSegments, bareSegments]) =
        some { slots := allScopedSlots (mergeSegments [bracedSegments, bareSegments]), rows } :=
  matrix_of_files parsed_bracedSegments

/-- **The order of the files does not matter**: the same slots, and the same rows but for the
numbers of the segments. -/
theorem matrix_order_independent {U : CharTable} {opts : Includes}
    {parsed parsed' : List (List Segment)}
    (hparsed : ∀ segs ∈ parsed, ∃ file, parseCFile U opts file = some segs)
    (hperm : parsed.Perm parsed') :
    ∃ m m', buildMatrix U (mergeSegments parsed) = some m ∧
      buildMatrix U (mergeSegments parsed') = some m' ∧ m.slots.Perm m'.slots ∧
      (m.rows.map Row.unnumbered).Perm (m'.rows.map Row.unnumbered) := by
  have hnumbered := numbered_of_parsed hparsed
  obtain ⟨rows, hrows, hm⟩ := exists_rows_mergeSegments U hnumbered
  obtain ⟨rows', hrows', hm'⟩ := exists_rows_mergeSegments U
    fun segs hsegs => hnumbered segs (hperm.mem_iff.mpr hsegs)
  have hslots := allScopedSlots_perm hperm
  refine ⟨_, _, hm, hm', hslots, ?_⟩
  rw [map_unnumbered_mergeRowsFrom hrows, map_unnumbered_mergeRowsFrom hrows',
    matrixRows_perm hslots]
  exact ((hperm.filterMap _).flatten).map _

theorem matrix_order_independent_braced :
    ∃ m m', buildMatrix .ascii (mergeSegments [bracedSegments, bareSegments]) = some m ∧
      buildMatrix .ascii (mergeSegments [bareSegments, bracedSegments]) = some m' ∧
      m.slots.Perm m'.slots ∧ (m.rows.map Row.unnumbered).Perm (m'.rows.map Row.unnumbered) :=
  matrix_order_independent parsed_bracedSegments (.swap _ _ _)

end Csc512
