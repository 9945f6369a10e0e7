import Csc512.Cdup.Dag
import Mathlib.Data.List.Perm.Subperm

/-!
# Rows and nodes of statements

The walk visits every segment of a forest once, whatever its statements are and whatever children
they get; so every statement has one row, and the rows of a segment come in order. Entry nodes are
inserted between the nodes of rows and move none of them past another one, so a segment's nodes can
be counted to find its statements again.

## Main results

* `rowsOf_walkSegment` — the rows of the segments below another one
* `buildMatrix_isSome` — the walk ends
* `statements_kept` — every statement has one row and one node
-/

namespace Csc512

/-- Give something to one element of a list and nothing to the others. -/
theorem flatMap_eq_of_unique {α β : Type*} {xs : List α} (hnodup : xs.Nodup) {x : α} (hx : x ∈ xs)
    {f : α → List β} (hother : ∀ y ∈ xs, y ≠ x → f y = []) : xs.flatMap f = f x := by
  obtain ⟨front, back, rfl⟩ := List.append_of_mem hx
  have hfront : front.flatMap f = [] := by
    refine List.flatMap_eq_nil_iff.mpr fun y hy => hother y (List.mem_append_left _ hy) ?_
    rintro rfl
    exact (List.nodup_append.mp hnodup).2.2 y hy y List.mem_cons_self rfl
  have hback : back.flatMap f = [] := by
    refine List.flatMap_eq_nil_iff.mpr fun y hy =>
      hother y (List.mem_append_right _ (List.mem_cons_of_mem _ hy)) ?_
    rintro rfl
    exact (List.nodup_cons.mp (List.nodup_append.mp hnodup).2.1).1 hy
  rw [List.flatMap_append, List.flatMap_cons, hfront, hback, List.nil_append, List.append_nil]

/-! ### Rows of a segment -/

/-- The rows of the statements of a segment. -/
def rowsOf (id : ℕ) (rows : List Row) : List Row :=
  rows.filter fun row => row.segId = some id ∧ row.kind ≠ .phi

theorem rowsOf_append (id : ℕ) (rows rows' : List Row) :
    rowsOf id (rows ++ rows') = rowsOf id rows ++ rowsOf id rows' :=
  List.filter_append ..

theorem rowsOf_phis {rows : List Row} (h : ∀ row ∈ rows, row.kind = .phi) (id : ℕ) :
    rowsOf id rows = [] := by
  refine List.filter_eq_nil_iff.mpr fun row hrow => ?_
  simp [h row hrow]

section Rows

variable {U : CharTable} {segments : List Segment} {slotIndex : List Text}
  {walk : ℕ → Option (List Row)}

variable (U slotIndex) in
/-- The rows of all statements of a segment. -/
def stmtRows (seg : Segment) : List Row :=
  seg.stmts.map fun stmt => stmtToRow U slotIndex stmt seg.id seg.scopePath

theorem kind_phiRowsForBranchGroup (group : List ℕ) :
    ∀ row ∈ phiRowsForBranchGroup U segments slotIndex group, row.kind = .phi := by
  intro row hrow
  obtain ⟨p, -, rfl⟩ := List.mem_map.mp hrow
  rfl

theorem kind_phiRowsForLoop (fuel : ℕ) (seg : Segment) :
    ∀ row ∈ phiRowsForLoop U segments slotIndex fuel seg, row.kind = .phi := by
  intro row hrow
  obtain ⟨slot, -, rfl⟩ := List.mem_map.mp hrow
  rfl

theorem rowsOf_flush (id : ℕ) (w : WalkState) :
    rowsOf id (w.flushBranchGroup U segments slotIndex).rows = rowsOf id w.rows := by
  rw [WalkState.flushBranchGroup, rowsOf_append, rowsOf_phis (kind_phiRowsForBranchGroup _),
    List.append_nil]

theorem rowsOf_stmtToRow (id segId : ℕ) (scopePath : Text) (stmt : Statement) :
    rowsOf id [stmtToRow U slotIndex stmt segId scopePath]
      = if segId = id then [stmtToRow U slotIndex stmt segId scopePath] else [] := by
  by_cases hid : segId = id
  · simp [rowsOf, stmtToRow, makeRow, hid]
  · simp [rowsOf, stmtToRow, makeRow, hid]

/-- What a statement and its child add to the rows of a segment. -/
theorem rowsOf_walkStmt {id : ℕ} {R : ℕ → List Row} {seg : Segment} {p : Statement × Option ℕ}
    (hplain : ¬ p.1.takesChild → p.2 = none)
    (hwalk : ∀ c ∈ p.2, ∀ rows, walk c = some rows → rowsOf id rows = R c) {w w' : WalkState}
    (h : walkStmt U segments slotIndex walk seg w p = some w') :
    rowsOf id w'.rows = rowsOf id w.rows ++
      ((if seg.id = id then [stmtToRow U slotIndex p.1 seg.id seg.scopePath] else []) ++
        p.2.elim [] R) := by
  dsimp only [walkStmt] at h
  split_ifs at h with htakes
  · split at h
    · next c hc =>
      obtain ⟨child, -, h⟩ := Option.bind_eq_some_iff.mp h
      obtain ⟨rows, hrows, h⟩ := Option.bind_eq_some_iff.mp h
      have hchild := hwalk c hc rows hrows
      rw [hc, Option.elim_some, ← hchild]
      split_ifs at h
      · obtain rfl := Option.some.inj h
        simp only [WalkState.extend, rowsOf_append, rowsOf_stmtToRow, List.append_assoc]
      · obtain rfl := Option.some.inj h
        simp only [WalkState.extend, rowsOf_append, rowsOf_flush, rowsOf_stmtToRow,
          List.append_assoc]
    · next hc =>
      obtain rfl := Option.some.inj h
      rw [hc, Option.elim_none, List.append_nil]
      simp only [WalkState.extend, rowsOf_append, rowsOf_stmtToRow]
  · obtain rfl := Option.some.inj h
    rw [hplain htakes, Option.elim_none, List.append_nil]
    simp only [WalkState.extend, rowsOf_append, rowsOf_flush, rowsOf_stmtToRow]

theorem rowsOf_walkPairs {id : ℕ} {R : ℕ → List Row} {seg : Segment}
    {pairs : List (Statement × Option ℕ)} (hplain : ∀ p ∈ pairs, ¬ p.1.takesChild → p.2 = none)
    (hwalk : ∀ p ∈ pairs, ∀ c ∈ p.2, ∀ rows, walk c = some rows → rowsOf id rows = R c)
    {w w' : WalkState} (h : pairs.foldlM (walkStmt U segments slotIndex walk seg) w = some w') :
    rowsOf id w'.rows = rowsOf id w.rows ++ pairs.flatMap fun p =>
      (if seg.id = id then [stmtToRow U slotIndex p.1 seg.id seg.scopePath] else []) ++
        p.2.elim [] R := by
  induction pairs generalizing w with
  | nil =>
    obtain rfl := Option.some.inj h
    simp
  | cons p pairs ih =>
    rw [List.forall_mem_cons] at hplain hwalk
    rw [List.foldlM_cons] at h
    obtain ⟨w₁, hfirst, hrest⟩ := Option.bind_eq_some_iff.mp h
    rw [ih hplain.2 hwalk.2 hrest, rowsOf_walkStmt hplain.1 hwalk.1 hfirst, List.flatMap_cons,
      List.append_assoc]

theorem rowsOf_walkAll {id : ℕ} {R : ℕ → List Row} {ids : List ℕ}
    (hwalk : ∀ c ∈ ids, ∀ rows, walk c = some rows → rowsOf id rows = R c) {rows : List Row}
    (h : walkAll walk ids = some rows) : rowsOf id rows = ids.flatMap R := by
  obtain ⟨parts, hparts, rfl⟩ := Option.map_eq_some_iff.mp h
  induction ids generalizing parts with
  | nil =>
    obtain rfl := Option.some.inj hparts
    rfl
  | cons c ids ih =>
    rw [List.forall_mem_cons] at hwalk
    rw [List.mapM_cons] at hparts
    obtain ⟨rows, hrows, hparts⟩ := Option.bind_eq_some_iff.mp hparts
    obtain ⟨rest, hrest, heq⟩ := Option.bind_eq_some_iff.mp hparts
    obtain rfl := Option.some.inj heq
    rw [List.flatten_cons, rowsOf_append, hwalk.1 rows hrows, List.flatMap_cons,
      ih hwalk.2 rest hrest (Option.map_eq_some_iff.mpr ⟨rest, hrest, rfl⟩)]

/-! ### Segments below another one -/

open Classical in
variable (U segments slotIndex) in
/-- The rows that the walk through segment `top` makes for a segment. -/
noncomputable def rowsBelow (top : ℕ) (seg : Segment) : List Row :=
  if Below segments top seg.id then stmtRows U slotIndex seg else []

variable (hforest : Forest segments)

include hforest

/-- The rows of a segment below the children of another one. -/
theorem flatMap_rowsBelow {top : ℕ} {seg : Segment} (hne : seg.id ≠ top) :
    ((buildChildren segments top).flatMap fun c => rowsBelow U segments slotIndex c seg)
      = rowsBelow U segments slotIndex top seg := by
  by_cases hbelow : Below segments top seg.id
  · obtain ⟨c, hc, hct⟩ := Forest.exists_child hbelow hne
    rw [flatMap_eq_of_unique (hforest.nodup_buildChildren top) hc, rowsBelow, rowsBelow,
      if_pos hbelow, if_pos hct]
    intro d hd hdc
    exact if_neg fun hdt => hdc (hforest.child_unique hd hc hdt hct)
  · rw [rowsBelow, if_neg hbelow, List.flatMap_eq_nil_iff]
    intro c hc
    refine if_neg fun hct => hbelow ?_
    -- what is below a child is below its parent
    obtain ⟨child, hchild, rfl, rfl, hpar⟩ := mem_buildChildren.mp hc
    generalize seg.id = t at hct
    induction hct with
    | refl => exact .step hchild hpar .refl
    | step hseg hne _ ih => exact .step hseg hne ih

theorem rowsBelow_child_self {top : Segment} {c : ℕ} (hc : c ∈ buildChildren segments top.id) :
    rowsBelow U segments slotIndex c top = [] := by
  obtain ⟨child, hchild, rfl, hparent, hne⟩ := mem_buildChildren.mp hc
  exact if_neg (hparent ▸ hforest.not_below_child hchild hne)

/-- **The rows of a walk.** The walk through a segment makes the rows of the segments below it, in
the order of their statements, and no others. -/
theorem rowsOf_walkSegment {fuel top : ℕ} {rows : List Row}
    (h : walkSegment U segments slotIndex fuel top = some rows) {seg : Segment}
    (hseg : seg ∈ segments) : rowsOf seg.id rows = rowsBelow U segments slotIndex top seg := by
  induction fuel generalizing top rows with
  | zero => cases h
  | succ fuel ih =>
    obtain ⟨root, hfound, h⟩ := Option.bind_eq_some_iff.mp h
    obtain rfl := id_of_segById hfound
    have hroot := mem_of_segById hfound
    dsimp only at h
    rw [walkStmts_eq_walkPairs] at h
    obtain ⟨⟨w, left⟩, hpairs, h⟩ := Option.bind_eq_some_iff.mp h
    obtain ⟨w', hfold, heq⟩ := Option.map_eq_some_iff.mp hpairs
    obtain ⟨rfl, rfl⟩ := Prod.mk.inj heq
    obtain ⟨rest, hrest, heq⟩ := Option.bind_eq_some_iff.mp h
    obtain rfl := Option.some.inj heq
    have hentry : rowsOf seg.id (if root.type = .loop then
        phiRowsForLoop U segments slotIndex fuel.succ root else []) = [] := by
      split_ifs
      · exact rowsOf_phis (kind_phiRowsForLoop _ _) _
      · rfl
    have hfolded := rowsOf_walkPairs
      (fun p hp hplain => snd_of_mem_deal Statement.takesChild hp hplain)
      (fun _ _ c _ rows hrows => ih hrows) hfold
    have hleft := rowsOf_walkAll (fun c _ rows hrows => ih hrows) hrest
    rw [rowsOf_append, rowsOf_flush, hfolded, hleft, hentry, List.nil_append]
    by_cases hid : root.id = seg.id
    · -- the segment itself: its children add nothing
      obtain rfl := hforest.eq_of_id_eq hroot hseg hid
      have hnone : ∀ c ∈ buildChildren segments root.id,
          rowsBelow U segments slotIndex c root = [] :=
        fun c hc => rowsBelow_child_self hforest hc
      rw [rowsBelow, if_pos .refl, List.flatMap_eq_nil_iff.mpr fun c hc =>
        hnone c (List.mem_of_mem_drop hc), List.append_nil, stmtRows]
      have hpair : ∀ p ∈ deal Statement.takesChild root.stmts (buildChildren segments root.id),
          (if root.id = root.id then [stmtToRow U slotIndex p.1 root.id root.scopePath] else []) ++
            p.2.elim [] (fun c => rowsBelow U segments slotIndex c root)
          = [stmtToRow U slotIndex p.1 root.id root.scopePath] := by
        intro p hp
        rw [if_pos rfl]
        cases hp2 : p.2 with
        | none => rfl
        | some c =>
          rw [Option.elim_some, hnone c (mem_of_mem_deal Statement.takesChild hp hp2), List.append_nil]
      rw [List.flatMap_congr hpair, ← List.map_eq_flatMap]
      conv_rhs =>
        rw [← map_fst_deal Statement.takesChild root.stmts (buildChildren segments root.id),
          List.map_map]
      rfl
    · -- a segment further down: only the children matter
      have hpair : ∀ p ∈ deal Statement.takesChild root.stmts (buildChildren segments root.id),
          (if root.id = seg.id then [stmtToRow U slotIndex p.1 root.id root.scopePath] else []) ++
            p.2.elim [] (fun c => rowsBelow U segments slotIndex c seg)
          = p.2.elim [] fun c => rowsBelow U segments slotIndex c seg := by
        intro p _
        rw [if_neg hid, List.nil_append]
      rw [List.flatMap_congr hpair, flatMap_snd_deal, flatMap_rowsBelow hforest (Ne.symm hid)]

omit hforest in
theorem rowsOf_stmtRows (seg : Segment) (id : ℕ) :
    rowsOf id (stmtRows U slotIndex seg) = if seg.id = id then stmtRows U slotIndex seg else [] := by
  by_cases hid : seg.id = id
  · rw [if_pos hid, rowsOf, List.filter_eq_self]
    intro row hrow
    obtain ⟨stmt, -, rfl⟩ := List.mem_map.mp hrow
    simp [stmtToRow, makeRow, hid]
  · rw [if_neg hid, rowsOf, List.filter_eq_nil_iff]
    intro row hrow
    obtain ⟨stmt, -, rfl⟩ := List.mem_map.mp hrow
    simp [stmtToRow, makeRow, hid]

theorem rowsOf_walkRoot {root : ℕ} {rows : List Row}
    (h : walkRoot U segments slotIndex root = some rows) {seg : Segment} (hseg : seg ∈ segments) :
    rowsOf seg.id rows = rowsBelow U segments slotIndex root seg := by
  obtain ⟨top, hfound, h⟩ := Option.bind_eq_some_iff.mp h
  obtain ⟨below, hbelow, heq⟩ := Option.bind_eq_some_iff.mp h
  obtain rfl := Option.some.inj heq
  obtain rfl := id_of_segById hfound
  have hchildren := rowsOf_walkAll
    (fun c _ rows hrows => rowsOf_walkSegment hforest hrows hseg) hbelow
  rw [rowsOf_append, hchildren]
  show rowsOf seg.id (stmtRows U slotIndex top) ++ _ = _
  rw [rowsOf_stmtRows]
  by_cases hid : top.id = seg.id
  · obtain rfl := hforest.eq_of_id_eq (mem_of_segById hfound) hseg hid
    have hnone : (buildChildren segments top.id).flatMap
        (fun c => rowsBelow U segments slotIndex c top) = [] :=
      List.flatMap_eq_nil_iff.mpr fun c hc => rowsBelow_child_self hforest hc
    rw [if_pos rfl, hnone, List.append_nil, rowsBelow, if_pos .refl]
  · rw [if_neg hid, flatMap_rowsBelow hforest (Ne.symm hid), List.nil_append]

/-- The rows of the matrix of a forest. -/
theorem rowsOf_buildMatrix {matrix : Matrix} (h : buildMatrix U segments = some matrix)
    {seg : Segment} (hseg : seg ∈ segments) :
    rowsOf seg.id matrix.rows = stmtRows U matrix.slots seg := by
  obtain ⟨rows, hrows, heq⟩ := Option.bind_eq_some_iff.mp h
  obtain rfl := Option.some.inj heq
  rw [rowsOf_walkAll (fun c _ rows hrows => rowsOf_walkRoot hforest hrows hseg) hrows]
  obtain ⟨root, hroot, hself, hbelow⟩ := hforest.exists_root hseg
  have hmem : ∀ id, id ∈ ((segments.filter fun seg => seg.id = seg.parent).map
      Segment.id).insertionSort (· ≤ ·) ↔ ∃ r ∈ segments, r.parent = r.id ∧ r.id = id := by
    intro id
    rw [List.mem_insertionSort, List.mem_map]
    simp only [List.mem_filter, decide_eq_true_eq]
    constructor
    · rintro ⟨r, ⟨hr, hself⟩, hid⟩
      exact ⟨r, hr, hself.symm, hid⟩
    · rintro ⟨r, hr, hself, hid⟩
      exact ⟨r, ⟨hr, hself.symm⟩, hid⟩
  rw [flatMap_eq_of_unique hforest.nodup_rootIds ((hmem _).mpr ⟨root, hroot, hself, rfl⟩),
    rowsBelow, if_pos hbelow]
  intro id hid hne
  obtain ⟨other, hother, hself', rfl⟩ := (hmem id).mp hid
  exact if_neg fun hup => hne (hforest.root_unique hother hroot hself' hself hup hbelow)

/-! ### The walk ends -/

omit hforest in
theorem walkPairs_isSome {seg : Segment} {pairs : List (Statement × Option ℕ)}
    (h : ∀ p ∈ pairs, ∀ c ∈ p.2, (segById segments c).isSome ∧ (walk c).isSome) (w : WalkState) :
    (pairs.foldlM (walkStmt U segments slotIndex walk seg) w).isSome := by
  induction pairs generalizing w with
  | nil => rfl
  | cons p pairs ih =>
    rw [List.forall_mem_cons] at h
    have hfirst : (walkStmt U segments slotIndex walk seg w p).isSome := by
      dsimp only [walkStmt]
      split_ifs
      · split
        · next c hc =>
          obtain ⟨hfound, hwalk⟩ := h.1 c hc
          obtain ⟨child, hchild⟩ := Option.isSome_iff_exists.mp hfound
          obtain ⟨rows, hrows⟩ := Option.isSome_iff_exists.mp hwalk
          simp only [walkChild, hchild, hrows, Option.bind_eq_bind, Option.bind_some]
          split_ifs <;> rfl
        · rfl
      · rfl
    obtain ⟨w', hw'⟩ := Option.isSome_iff_exists.mp hfirst
    rw [List.foldlM_cons, hw']
    exact ih h.2 w'

omit hforest in
theorem walkAll_isSome {ids : List ℕ} (h : ∀ c ∈ ids, (walk c).isSome) :
    (walkAll walk ids).isSome := by
  rw [walkAll, Option.isSome_map]
  induction ids with
  | nil => rfl
  | cons c ids ih =>
    rw [List.forall_mem_cons] at h
    obtain ⟨rows, hrows⟩ := Option.isSome_iff_exists.mp h.1
    obtain ⟨rest, hrest⟩ := Option.isSome_iff_exists.mp (ih h.2)
    rw [List.mapM_cons, hrows, hrest]
    rfl

omit hforest in
/-- The segments on the way to a segment are pairwise different, so there is fuel left for it. -/
theorem walkSegment_isSome {rank : ℕ → ℕ}
    (hrank : ∀ seg ∈ segments, seg.parent ≠ seg.id → rank seg.parent < rank seg.id)
    {fuel segId : ℕ} (above : List ℕ) (hnodup : above.Nodup)
    (habove : ∀ id ∈ above, id ∈ segments.map Segment.id ∧ rank id < rank segId)
    (hseg : segId ∈ segments.map Segment.id) (hfuel : segments.length ≤ fuel + above.length) :
    (walkSegment U segments slotIndex fuel segId).isSome := by
  induction fuel generalizing segId above with
  | zero =>
    have hnodup' : (segId :: above).Nodup :=
      List.nodup_cons.mpr ⟨fun hmem => Nat.lt_irrefl _ (habove segId hmem).2, hnodup⟩
    have hle : (segId :: above).length ≤ (segments.map Segment.id).length :=
      (hnodup'.subperm fun id hid => by
        rcases List.mem_cons.mp hid with rfl | hid
        · exact hseg
        · exact (habove id hid).1).length_le
    rw [List.length_map, List.length_cons] at hle
    omega
  | succ fuel ih =>
    obtain ⟨seg, hfound⟩ := Option.isSome_iff_exists.mp (segById_isSome hseg)
    have hchild : ∀ c ∈ buildChildren segments segId, (segById segments c).isSome ∧
        (walkSegment U segments slotIndex fuel c).isSome := by
      intro c hc
      obtain ⟨child, hmem, rfl, rfl, hne⟩ := mem_buildChildren.mp hc
      have hid : child.id ∈ segments.map Segment.id := List.mem_map_of_mem hmem
      have hlt := hrank child hmem hne
      have habove' : ∀ id ∈ child.parent :: above,
          id ∈ segments.map Segment.id ∧ rank id < rank child.id := by
        rw [List.forall_mem_cons]
        exact ⟨⟨hseg, hlt⟩, fun id hid => ⟨(habove id hid).1, (habove id hid).2.trans hlt⟩⟩
      have hnodup' : (child.parent :: above).Nodup :=
        List.nodup_cons.mpr ⟨fun hmem => Nat.lt_irrefl _ (habove _ hmem).2, hnodup⟩
      refine ⟨segById_isSome hid, ih (child.parent :: above) hnodup' habove' hid ?_⟩
      rw [List.length_cons]
      omega
    rw [walkSegment, hfound]
    dsimp only [Option.bind_eq_bind, Option.bind_some]
    rw [walkStmts_eq_walkPairs]
    have hpairs : ∀ w, ((deal Statement.takesChild seg.stmts
        (buildChildren segments segId)).foldlM (walkStmt U segments slotIndex
          (walkSegment U segments slotIndex fuel) seg) w).isSome :=
      walkPairs_isSome fun p hp c hc => hchild c (mem_of_mem_deal Statement.takesChild hp hc)
    have hleft : (walkAll (walkSegment U segments slotIndex fuel)
        ((buildChildren segments segId).drop (seg.stmts.countP Statement.takesChild))).isSome :=
      walkAll_isSome fun c hc => (hchild c (List.mem_of_mem_drop hc)).2
    obtain ⟨w, hw⟩ := Option.isSome_iff_exists.mp (hpairs
      ⟨if seg.type = .loop then phiRowsForLoop U segments slotIndex fuel.succ seg else [], []⟩)
    obtain ⟨rest, hrest⟩ := Option.isSome_iff_exists.mp hleft
    rw [hw]
    simp [hrest]

variable (U) in
/-- **The matrix of a forest is built.** -/
theorem buildMatrix_isSome : (buildMatrix U segments).isSome := by
  obtain ⟨rank, hrank⟩ := hforest.ranked
  have hroots : (walkAll (walkRoot U segments (allScopedSlots segments))
      (((segments.filter fun seg => seg.id = seg.parent).map
        Segment.id).insertionSort (· ≤ ·))).isSome := by
    refine walkAll_isSome fun id hid => ?_
    rw [List.mem_insertionSort, List.mem_map] at hid
    obtain ⟨root, hroot, rfl⟩ := hid
    have hmem : root ∈ segments := (List.mem_filter.mp hroot).1
    have hbelow : (walkAll (walkSegment U segments (allScopedSlots segments) segments.length)
        (buildChildren segments root.id)).isSome := by
      refine walkAll_isSome fun c hc => ?_
      obtain ⟨child, hchild, rfl, -⟩ := mem_buildChildren.mp hc
      exact walkSegment_isSome hrank [] List.nodup_nil (fun _ h => absurd h List.not_mem_nil)
        (List.mem_map_of_mem hchild) (Nat.le_add_right _ _)
    obtain ⟨rows, hrows⟩ := Option.isSome_iff_exists.mp hbelow
    simp [walkRoot, hforest.segById_eq hmem, hrows]
  obtain ⟨rows, hrows⟩ := Option.isSome_iff_exists.mp hroots
  simp [buildMatrix, hrows]

end Rows

/-! ### Nodes of statements -/

/-- Does a node come from a statement? -/
def Node.isStatement (node : Node) : Bool :=
  node.note = none && match node.kind with
    | .row (.stmt _) => true
    | _ => false

/-- How many statements of every segment have been seen, and their nodes. -/
structure StmtCounter where
  segStmtCounter : Dict ℕ ℕ := Dict.empty
  mapping : Dict (ℕ × ℕ) ℕ := Dict.empty

/-- Count a node. -/
def StmtCounter.read (c : StmtCounter) (node : Node) : StmtCounter :=
  match node.segId with
  | none => c
  | some sid =>
    if node.isStatement then
      let idx := (c.segStmtCounter.get? sid).getD 0
      { segStmtCounter := c.segStmtCounter.upsert sid fun _ => idx + 1
        mapping := c.mapping.upsert (sid, idx) fun _ => node.id }
    else c

/-- The nodes of the statements, by segment and number in the segment. -/
def buildSegStmtToDagMap (nodes : List Node) : Dict (ℕ × ℕ) ℕ :=
  (nodes.foldl StmtCounter.read {}).mapping

/-- The nodes of the statements of a segment. -/
def stmtNodesOf (id : ℕ) (nodes : List Node) : List Node :=
  nodes.filter fun node => node.segId = some id && node.isStatement

theorem stmtNodesOf_append_singleton (id : ℕ) (nodes : List Node) (node : Node) :
    stmtNodesOf id (nodes ++ [node]) = stmtNodesOf id nodes ++
      if node.segId = some id ∧ node.isStatement then [node] else [] := by
  rw [stmtNodesOf, List.filter_append, List.filter_cons, List.filter_nil]
  simp only [Bool.and_eq_true, decide_eq_true_eq]
  rfl

/-- The counter counts the nodes of every segment, and remembers them in order. -/
theorem foldl_stmtCounter (nodes : List Node) (id : ℕ) :
    (((nodes.foldl StmtCounter.read {}).segStmtCounter.get? id).getD 0
      = (stmtNodesOf id nodes).length) ∧
    ∀ i, (nodes.foldl StmtCounter.read {}).mapping.get? (id, i)
      = (stmtNodesOf id nodes)[i]?.map Node.id := by
  induction nodes using List.reverseRecOn generalizing id with
  | nil => exact ⟨rfl, fun i => rfl⟩
  | append_singleton nodes node ih =>
    obtain ⟨hcount, hmap⟩ := ih id
    rw [List.foldl_append, List.foldl_cons, List.foldl_nil, stmtNodesOf_append_singleton]
    generalize nodes.foldl StmtCounter.read {} = c at hcount hmap ⊢
    unfold StmtCounter.read
    cases hseg : node.segId with
    | none => simpa using ⟨hcount, hmap⟩
    | some sid =>
      dsimp only
      by_cases hstmt : node.isStatement
      · by_cases hid : sid = id
        · subst hid
          simp only [hcount, Dict.get?_upsert_self, Option.getD_some, hstmt, and_self,
            if_true, List.length_append, List.length_singleton, true_and]
          intro i
          by_cases hi : i = (stmtNodesOf sid nodes).length
          · subst hi
            simp
          · rw [Dict.get?_upsert_of_ne _ _ (by simpa using hi), hmap]
            rcases Nat.lt_or_gt_of_ne hi with hlt | hgt
            · rw [List.getElem?_append_left hlt]
            · rw [List.getElem?_eq_none hgt.le, List.getElem?_eq_none]
              rw [List.length_append, List.length_singleton]
              omega
        · have hne : ¬ (some sid = some id ∧ node.isStatement = true) :=
            fun h => hid (Option.some.inj h.1)
          rw [if_pos hstmt, if_neg hne, List.append_nil]
          refine ⟨?_, fun i => ?_⟩
          · rw [Dict.get?_upsert_of_ne _ _ (Ne.symm hid), hcount]
          · rw [Dict.get?_upsert_of_ne _ _ (by simp [Ne.symm hid]), hmap]
      · rw [if_neg hstmt, if_neg fun h => hstmt h.2, List.append_nil]
        exact ⟨hcount, hmap⟩

/-- Where the elements of a filtered list stand. -/
theorem getElem?_filter_iff {α : Type*} {p : α → Bool} {xs : List α} {i : ℕ} {x : α} :
    (xs.filter p)[i]? = some x ↔
      ∃ k, xs[k]? = some x ∧ p x ∧ ((xs.take k).filter p).length = i := by
  induction xs generalizing i with
  | nil => simp
  | cons y xs ih =>
    by_cases hy : p y
    · rw [List.filter_cons_of_pos hy]
      cases i with
      | zero =>
        constructor
        · intro h
          obtain rfl := Option.some.inj h
          exact ⟨0, rfl, hy, rfl⟩
        · rintro ⟨_ | k, hk, hx, hlen⟩
          · exact hk
          · simp [List.filter_cons_of_pos hy] at hlen
      | succ i =>
        rw [List.getElem?_cons_succ, ih]
        constructor
        · rintro ⟨k, hk, hx, hlen⟩
          exact ⟨k + 1, hk, hx, by rw [List.take_succ_cons, List.filter_cons_of_pos hy,
            List.length_cons, hlen]⟩
        · rintro ⟨_ | k, hk, hx, hlen⟩
          · cases hlen
          · rw [List.take_succ_cons, List.filter_cons_of_pos hy, List.length_cons,
              Nat.succ.injEq] at hlen
            exact ⟨k, hk, hx, hlen⟩
    · rw [List.filter_cons_of_neg hy, ih]
      constructor
      · rintro ⟨k, hk, hx, hlen⟩
        exact ⟨k + 1, hk, hx, by rw [List.take_succ_cons, List.filter_cons_of_neg hy, hlen]⟩
      · rintro ⟨_ | k, hk, hx, hlen⟩
        · obtain rfl := Option.some.inj hk
          exact absurd hx hy
        · rw [List.take_succ_cons, List.filter_cons_of_neg hy] at hlen
          exact ⟨k, hk, hx, hlen⟩

/-- Inserting other nodes does not change the nodes of statements. -/
theorem stmtNodesOf_insertNodes {insertions : List (ℕ × Node)}
    (h : ∀ q ∈ insertions, q.2.isStatement = false) (id : ℕ) (nodes : List Node) :
    stmtNodesOf id (insertNodes insertions nodes) = stmtNodesOf id nodes := by
  have hinsert : ∀ {node : Node}, node.isStatement = false → ∀ (i : ℕ) (nodes : List Node),
      stmtNodesOf id (nodes.insertIdx i node) = stmtNodesOf id nodes := by
    intro node hnode i nodes
    induction nodes generalizing i with
    | nil =>
      cases i with
      | zero => simp [stmtNodesOf, hnode]
      | succ i => rfl
    | cons x nodes ih =>
      cases i with
      | zero => simp [stmtNodesOf, hnode]
      | succ i =>
        rw [List.insertIdx_succ_cons, stmtNodesOf, stmtNodesOf, List.filter_cons,
          List.filter_cons]
        split_ifs
        · exact congrArg _ (ih i)
        · exact ih i
  induction insertions generalizing nodes with
  | nil => rfl
  | cons q insertions ih =>
    rw [List.forall_mem_cons] at h
    exact (ih h.2 _).trans (hinsert h.1 q.1 nodes)

/-- A node without its number. -/
def Node.unnumbered (node : Node) : Node := { node with id := 0 }

theorem map_unnumbered_stmtNodesOf (id : ℕ) (nodes : List Node) :
    (stmtNodesOf id (numberNodes nodes)).map Node.unnumbered
      = (stmtNodesOf id nodes).map Node.unnumbered := by
  rw [stmtNodesOf, stmtNodesOf, numberNodes, List.filter_map, List.map_map]
  have hfst : nodes = nodes.zipIdx.map Prod.fst := (List.zipIdx_map_fst 0 nodes).symm
  conv_rhs => rw [hfst, List.filter_map, List.map_map]
  rfl

section Nodes

variable {U : CharTable} {segments : List Segment} {matrix : Matrix}

theorem stmtNodesOf_rows {rows : List Row} (hnote : ∀ row ∈ rows, row.kind ≠ .phi → row.note = none)
    (id : ℕ) : stmtNodesOf id (rows.map Row.node) = (rowsOf id rows).map Row.node := by
  rw [stmtNodesOf, rowsOf, List.filter_map]
  refine congrArg _ (List.filter_congr fun row hrow => ?_)
  have hnote := hnote row hrow
  cases hkind : row.kind with
  | phi => simp [Row.node, Node.isStatement, hkind]
  | stmt kind =>
    rw [hkind] at hnote
    simp [Row.node, Node.isStatement, hkind, hnote]

/-- The nodes of the statements of a segment are its rows. -/
theorem map_unnumbered_dagNodes (h : buildMatrix U segments = some matrix) (id : ℕ) :
    (stmtNodesOf id (dagNodes segments matrix.rows)).map Node.unnumbered
      = (rowsOf id matrix.rows).map Row.node := by
  have hentries : ∀ q ∈ entryInsertions segments (matrix.rows.map Row.node),
      q.2.isStatement = false := by
    intro q hq
    rw [entryInsertions, List.mem_insertionSort, List.mem_map] at hq
    obtain ⟨seg, -, rfl⟩ := hq
    rfl
  have hnote : ∀ row ∈ matrix.rows, row.kind ≠ .phi → row.note = none := by
    intro row hrow
    refine forall_rows_buildMatrix (p := fun row => row.kind ≠ .phi → row.note = none) h
      ?_ ?_ ?_ row hrow
    · exact fun seg _ stmt _ _ => rfl
    · exact fun group row hrow hkind => absurd (kind_phiRowsForBranchGroup group row hrow) hkind
    · exact fun fuel seg _ row hrow hkind => absurd (kind_phiRowsForLoop fuel seg row hrow) hkind
  rw [dagNodes, map_unnumbered_stmtNodesOf, stmtNodesOf_insertNodes hentries,
    stmtNodesOf_rows hnote, List.map_map]
  rfl

/-- Rows of statements belong to segments. -/
theorem exists_segment_of_row (h : buildMatrix U segments = some matrix) {row : Row}
    (hrow : row ∈ matrix.rows) (hkind : row.kind ≠ .phi) :
    ∃ seg ∈ segments, row.segId = some seg.id := by
  refine forall_rows_buildMatrix
    (p := fun row => row.kind ≠ .phi → ∃ seg ∈ segments, row.segId = some seg.id) h
    ?_ ?_ ?_ row hrow hkind
  · exact fun seg hseg stmt _ _ => ⟨seg, hseg, rfl⟩
  · exact fun group row hrow hkind => absurd (kind_phiRowsForBranchGroup group row hrow) hkind
  · exact fun fuel seg _ row hrow hkind => absurd (kind_phiRowsForLoop fuel seg row hrow) hkind

/-- Node number `n` is that of a row, and there are `i` nodes of statements of the segment before
it. -/
def IsNodeOf (nodes : List Node) (segId i n : ℕ) (row : Row) : Prop :=
  nodes[n]? = some { row.node with id := n } ∧ (stmtNodesOf segId (nodes.take n)).length = i

end Nodes

variable (U : CharTable)

/-- **Every statement is kept.** In a forest the rows of every segment are those of its statements,
in order, and there are no others but added ones; and the map from statements to nodes sends number
`i` of a segment to the node of its statement number `i`, and has no other entries. -/
theorem statements_kept (segments : List Segment) (hforest : Forest segments) :
    ∃ matrix, buildMatrix U segments = some matrix ∧
      (∀ seg ∈ segments, rowsOf seg.id matrix.rows = stmtRows U matrix.slots seg) ∧
      (∀ row ∈ matrix.rows, row.kind ≠ .phi → ∃ seg ∈ segments, row.segId = some seg.id) ∧
      ∀ segId i n, (buildSegStmtToDagMap (buildDag segments matrix).nodes).get? (segId, i) = some n ↔
        ∃ seg ∈ segments, seg.id = segId ∧ ∃ stmt, seg.stmts[i]? = some stmt ∧
          IsNodeOf (buildDag segments matrix).nodes segId i n
            (stmtToRow U matrix.slots stmt segId seg.scopePath) := by
  obtain ⟨matrix, h⟩ := Option.isSome_iff_exists.mp (buildMatrix_isSome U hforest)
  have hrows : ∀ seg ∈ segments, rowsOf seg.id matrix.rows = stmtRows U matrix.slots seg :=
    fun seg hseg => rowsOf_buildMatrix hforest h hseg
  refine ⟨matrix, h, hrows, fun row => exists_segment_of_row h, fun segId i n => ?_⟩
  have hnodes : ∀ {n : ℕ} {node : Node}, (dagNodes segments matrix.rows)[n]? = some node →
      node.id = n := id_of_numberNodes
  have hunnumbered : ∀ i : ℕ, ((stmtNodesOf segId (dagNodes segments matrix.rows))[i]?).map
      Node.unnumbered = (rowsOf segId matrix.rows)[i]?.map Row.node := by
    intro i
    rw [← List.getElem?_map, map_unnumbered_dagNodes h, List.getElem?_map]
  rw [buildSegStmtToDagMap, (foldl_stmtCounter _ segId).2]
  show (stmtNodesOf segId (dagNodes segments matrix.rows))[i]?.map Node.id = some n ↔ _
  constructor
  · intro hget
    obtain ⟨node, hnode, rfl⟩ := Option.map_eq_some_iff.mp hget
    have hrow := hunnumbered i
    rw [hnode, Option.map_some, eq_comm, Option.map_eq_some_iff] at hrow
    obtain ⟨row, hrow, heq⟩ := hrow
    obtain ⟨hmem, howner⟩ := List.mem_filter.mp (List.mem_of_getElem? hrow)
    simp only [decide_eq_true_eq] at howner
    obtain ⟨seg, hseg, hid⟩ := exists_segment_of_row h hmem howner.2
    obtain rfl : seg.id = segId := Option.some.inj (hid.symm.trans howner.1)
    rw [hrows seg hseg, stmtRows, List.getElem?_map, Option.map_eq_some_iff] at hrow
    obtain ⟨stmt, hstmt, rfl⟩ := hrow
    obtain ⟨k, hk, -, hlen⟩ := getElem?_filter_iff.mp hnode
    obtain rfl := hnodes hk
    refine ⟨seg, hseg, rfl, stmt, hstmt, ?_, hlen⟩
    rw [heq]
    exact hk
  · rintro ⟨seg, hseg, rfl, stmt, hstmt, hnode, hlen⟩
    have hget : (stmtNodesOf seg.id (dagNodes segments matrix.rows))[i]?
        = some { (stmtToRow U matrix.slots stmt seg.id seg.scopePath).node with id := n } :=
      getElem?_filter_iff.mpr ⟨n, hnode, by simp [stmtToRow, makeRow, Row.node, Node.isStatement],
        hlen⟩
    rw [hget]
    rfl

theorem forest_countdown : Forest countdownSegs where
  nodup := by decide +kernel
  parent_mem := by decide +kernel
  ranked := ⟨id, by decide +kernel⟩

theorem statements_kept_countdown : ∃ matrix, buildMatrix .ascii countdownSegs = some matrix ∧
    ∀ seg ∈ countdownSegs, rowsOf seg.id matrix.rows = stmtRows .ascii matrix.slots seg := by
  obtain ⟨matrix, h, hrows, -⟩ := statements_kept .ascii countdownSegs forest_countdown
  exact ⟨matrix, h, hrows⟩

end Csc512
