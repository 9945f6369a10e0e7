import Csc512.Cdup.HeaderAttribution
import Csc512.Cdup.Matrix
import Csc512.Cdup.Vm

/-!
# Which block a statement gets

The interpreter and the matrix both give the next unused child of a segment to every branch and
every loop. Which child that is depends on the statements and the children alone. A statement's own
block is the one whose braces stand at its end, or behind its `do`.

## Main results

* `execSeg_eq_execPairs`, `walkSegment_eq_walkPairs` — a segment is run and walked pair by pair
* `pairing_iff` — the exact condition under which all statements get their own blocks
-/

namespace Csc512

/-! ### Running and walking by pairs -/

section Run

variable {σ : Type} (P : Program) (H : Handlers σ) (run : Segment → ℕ → Option ℕ → Exec σ Stop Unit)

/-- Run statements, each with the child that it gets. -/
def execPairs (frame : ℕ) (seg : Segment) (it : Option ℕ) :
    List (Statement × Option ℕ) → Exec σ Stop Unit
  | [] => pure ()
  | p :: ps => do
    let _ ← execStmt P H run p.1 frame seg it p.2.toList
    execPairs frame seg it ps

variable {P H run}

theorem takesChild_iff {stmt : Statement} :
    stmt.takesChild ↔ stmt.kind = .branch ∨ stmt.kind = .loopHead := by
  cases hkind : stmt.kind <;> simp [Statement.takesChild, Kind.isPlain, hkind]

/-- A branch or a loop looks at the next child and leaves the others. -/
theorem execStmt_takes {stmt : Statement} (htakes : stmt.takesChild) (frame : ℕ) (seg : Segment)
    (it : Option ℕ) (children : List ℕ) :
    execStmt P H run stmt frame seg it children
      = execStmt P H run stmt frame seg it children.head?.toList >>= fun _ =>
        pure children.tail := by
  rcases takesChild_iff.mp htakes with hkind | hkind
  · cases children with
    | nil => simp only [execStmt, hkind]; rfl
    | cons c children =>
      simp only [execStmt, hkind, execBranchStmt, List.head?_cons, Option.toList_some,
        List.tail_cons, bind_assoc]
      refine bind_congr fun child => bind_congr fun cond => ?_
      cases cond with
      | false => rfl
      | true =>
        show (run child frame it >>= fun _ => pure children)
          = (run child frame it >>= fun _ => pure []) >>= fun _ => pure children
        rw [bind_assoc]
        rfl
  · cases children with
    | nil => simp only [execStmt, hkind]; rfl
    | cons c children =>
      simp only [execStmt, hkind, List.head?_cons, Option.toList_some, List.tail_cons, bind_assoc,
        pure_bind]

/-- Any other statement leaves the children alone. -/
theorem execStmt_plain {stmt : Statement} (htakes : ¬ stmt.takesChild) (frame : ℕ) (seg : Segment)
    (it : Option ℕ) (children : List ℕ) :
    execStmt P H run stmt frame seg it children
      = execStmt P H run stmt frame seg it [] >>= fun _ => pure children := by
  rw [takesChild_iff] at htakes
  cases hkind : stmt.kind with
  | branch => exact absurd (Or.inl hkind) htakes
  | loopHead => exact absurd (Or.inr hkind) htakes
  | decl | assign | control | call | expr | funcDecl =>
    simp only [execStmt, hkind, bind_assoc, pure_bind]

theorem execStmts_eq_execPairs (frame : ℕ) (seg : Segment) (it : Option ℕ)
    (stmts : List Statement) (children : List ℕ) :
    execStmts P H run frame seg it stmts children
      = execPairs P H run frame seg it (deal Statement.takesChild stmts children) >>= fun _ =>
        pure (children.drop (stmts.countP Statement.takesChild)) := by
  induction stmts generalizing children with
  | nil => rfl
  | cons stmt stmts ih =>
    by_cases htakes : stmt.takesChild
    · rw [execStmts, execStmt_takes htakes, deal_cons_pos _ htakes, execPairs, bind_assoc,
        bind_assoc, List.countP_cons_of_pos htakes]
      refine bind_congr fun _ => ?_
      rw [pure_bind, ih, List.drop_tail]
    · rw [execStmts, execStmt_plain htakes, deal_cons_neg _ htakes, execPairs, bind_assoc,
        bind_assoc, List.countP_cons_of_neg htakes]
      refine bind_congr fun _ => ?_
      rw [pure_bind, ih]

/-- **The interpreter runs a segment pair by pair.** -/
theorem execSeg_eq_execPairs (seg : Segment) (frame : ℕ) (it : Option ℕ) :
    execSeg P H run seg frame it
      = execPairs P H run frame seg it (takenChildren P.segments seg) := by
  rw [execSeg, execStmts_eq_execPairs, bind_assoc]
  exact bind_pure _

end Run

section Walk

variable {U : CharTable} {segments : List Segment} {slotIndex : List Text}

variable (U segments slotIndex) in
/-- Walk through the statements of a segment, each with the child that it gets, and then through the
children that are left. -/
def walkPairs (fuel : ℕ) (seg : Segment) : Option (List Row) :=
  let entry := if seg.type = .loop then phiRowsForLoop U segments slotIndex (fuel + 1) seg else []
  ((takenChildren segments seg).foldlM (walkStmt U segments slotIndex
      (walkSegment U segments slotIndex fuel) seg) { rows := entry }).bind fun w =>
    (walkAll (walkSegment U segments slotIndex fuel) ((buildChildren segments seg.id).drop
      (seg.stmts.countP Statement.takesChild))).map fun left =>
        (w.flushBranchGroup U segments slotIndex).rows ++ left

/-- **The matrix walks a segment pair by pair.** -/
theorem walkSegment_eq_walkPairs (fuel segId : ℕ) :
    walkSegment U segments slotIndex (fuel + 1) segId
      = (segById segments segId).bind (walkPairs U segments slotIndex fuel) := by
  refine Option.bind_congr fun seg hseg => ?_
  obtain rfl := id_of_segById hseg
  dsimp only [walkPairs]
  rw [walkStmts_eq_walkPairs, takenChildren, Option.bind_eq_bind, Option.bind_map]
  refine Option.bind_congr fun w _ => ?_
  exact (Option.map_eq_bind ..).symm

end Walk

/-! ### The children of a segment -/

section Children

variable {U : CharTable}

/-- The children that the later stages find are those that the parser knows. -/
theorem buildChildren_buildSegments {P : SegmentStmts Char}
    (hparents : ∀ i, P.parents.getD i 0 = i ↔ i = 0) (parent : ℕ) :
    buildChildren (buildSegments U P) parent = P.childrenOf parent := by
  have hfilter : ((buildSegments U P).filter fun seg =>
        seg.id ≠ seg.parent ∧ seg.parent = parent).map Segment.id
      = P.childrenOf parent := by
    have hpairs : ((buildSegments U P).filter fun seg =>
          seg.id ≠ seg.parent ∧ seg.parent = parent).map Segment.id
        = (((buildSegments U P).map fun seg => (seg.id, seg.parent)).filter fun p =>
          p.1 ≠ p.2 ∧ p.2 = parent).map Prod.fst := by
      rw [List.filter_map, List.map_map]
      rfl
    rw [hpairs, map_id_parent_buildSegments, List.filter_map, List.map_map]
    refine (List.map_id _).trans (List.filter_congr fun i _ => ?_)
    have hroot := hparents i
    simp only [Function.comp_apply, decide_eq_decide]
    constructor
    · rintro ⟨hne, hparent⟩
      exact ⟨Nat.pos_of_ne_zero fun h => hne (hroot.mpr h).symm, hparent⟩
    · rintro ⟨hpos, hparent⟩
      exact ⟨fun h => Nat.ne_of_gt hpos (hroot.mp h.symm), hparent⟩
  rw [buildChildren, hfilter]
  refine List.Pairwise.insertionSort_eq ((List.pairwise_lt_range.filter _).imp ?_)
  exact fun h => Nat.le_of_lt h

end Children

/-! ### Own blocks -/

/-- Does a text begin like a branch, or like a loop with a placeholder? -/
def isHeader (raw : Text) : Bool :=
  firstWord (bareStmt raw) ∈ branchKeywords ||
    (contains (lit "{}") raw && firstWord (bareStmt raw) ∈ loopKeywords)

theorem takesChild_parsedStmt (U : CharTable) (known udtVars : List Text) (memory : List Slot)
    (raw : Text) : (parsedStmt U known udtVars memory raw).takesChild = isHeader raw := by
  rw [Bool.eq_iff_iff, takesChild_iff, kind_parsedStmt, kind_eq_branch_iff, kind_eq_loopHead_iff,
    isHeader]
  simp

namespace SegmentStmts

variable (P : SegmentStmts SourceGlyph)

/-- Is the block of segment `i` the statement's own? The block of a `do` stands behind the keyword,
any other one at the end of the statement. -/
def IsOwnBlock (stmt : List SourceGlyph) (i : ℕ) : Prop :=
  let front := stmt.takeWhile fun g : SourceGlyph => g.char ≠ '{'
  if strip (Csc512.text front) = lit "do" then P.placeholder i <+: stmt.drop front.length
  else P.placeholder i <:+ stmt

instance (stmt : List SourceGlyph) (i : ℕ) : Decidable (P.IsOwnBlock stmt i) :=
  inferInstanceAs (Decidable (if strip (Csc512.text (stmt.takeWhile fun g : SourceGlyph => g.char ≠ '{')) = lit "do"
    then P.placeholder i <+: stmt.drop (stmt.takeWhile fun g : SourceGlyph => g.char ≠ '{').length
    else P.placeholder i <:+ stmt))

/-- The headers of branches and loops in a segment. -/
def headers (i : ℕ) : List (List SourceGlyph) :=
  (P.stmts.getD i []).filter fun stmt => isHeader (Csc512.text stmt)

/-- As far as there are both headers and blocks, every header has a block of its own, and every
block is a header's own. -/
def BlocksMatch (i : ℕ) : Prop :=
  let m := min (P.headers i).length (P.childrenOf i).length
  (∀ stmt ∈ (P.headers i).take m, ∃ b ∈ P.childrenOf i, P.IsOwnBlock stmt b) ∧
    ∀ b ∈ (P.childrenOf i).take m, ∃ stmt ∈ P.headers i, P.IsOwnBlock stmt b

instance (i : ℕ) : Decidable (P.BlocksMatch i) :=
  inferInstanceAs (Decidable (
    (∀ stmt ∈ (P.headers i).take (min (P.headers i).length (P.childrenOf i).length),
      ∃ b ∈ P.childrenOf i, P.IsOwnBlock stmt b) ∧
    ∀ b ∈ (P.childrenOf i).take (min (P.headers i).length (P.childrenOf i).length),
      ∃ stmt ∈ P.headers i, P.IsOwnBlock stmt b))

variable {P}

theorem IsOwnBlock.holds {stmt : List SourceGlyph} {i : ℕ} (h : P.IsOwnBlock stmt i) :
    P.Holds stmt i := by
  dsimp only [IsOwnBlock] at h
  split_ifs at h
  · exact h.isInfix.trans (List.drop_suffix _ _).isInfix
  · exact h.isInfix

end SegmentStmts

namespace StmtsInOrder

open SegmentStmts

variable {P : SegmentStmts SourceGlyph} (h : StmtsInOrder P)

include h

/-- Different segments have different placeholders. -/
theorem placeholder_inj {i j : ℕ} (hi : 0 < i) (hj : 0 < j) (hi' : i < P.stmts.length)
    (hj' : j < P.stmts.length) (heq : P.placeholder i = P.placeholder j) : i = j := by
  have hstart : (P.pairs.getD (i - 1) (0, 0)).1 - 1 = (P.pairs.getD (j - 1) (0, 0)).1 - 1 := by
    simpa using congrArg SourceGlyph.place (List.cons.inj heq).1
  rcases Nat.lt_trichotomy i j with hlt | rfl | hgt
  · exact absurd hstart (Nat.ne_of_lt (h.start_lt hi hlt hj'))
  · rfl
  · exact absurd hstart.symm (Nat.ne_of_lt (h.start_lt hj hgt hi'))

/-- A statement has one block of its own at most. -/
theorem isOwnBlock_unique {parent i j : ℕ} {stmt : List SourceGlyph} (hi : i ∈ P.childrenOf parent)
    (hj : j ∈ P.childrenOf parent) (hown : P.IsOwnBlock stmt i) (hown' : P.IsOwnBlock stmt j) :
    i = j := by
  obtain ⟨hpos, hlt, -⟩ := SegmentStmts.mem_childrenOf hi
  obtain ⟨hpos', hlt', -⟩ := SegmentStmts.mem_childrenOf hj
  refine h.placeholder_inj hpos hpos' hlt hlt' ?_
  dsimp only [IsOwnBlock] at hown hown'
  split_ifs at hown hown'
  · exact (List.prefix_of_prefix_length_le hown hown' le_rfl).eq_of_length rfl
  · exact (List.suffix_of_suffix_length_le hown hown' le_rfl).eq_of_length rfl

/-- The own blocks of a later header come later. -/
theorem isOwnBlock_lt {parent s t i j : ℕ} {stmt stmt' : List SourceGlyph} (hst : s < t)
    (hs : (P.headers parent)[s]? = some stmt) (ht : (P.headers parent)[t]? = some stmt')
    (hi : i ∈ P.childrenOf parent) (hj : j ∈ P.childrenOf parent) (hown : P.IsOwnBlock stmt i)
    (hown' : P.IsOwnBlock stmt' j) : i < j := by
  obtain ⟨hs', rfl⟩ := List.getElem?_eq_some_iff.mp hs
  obtain ⟨ht', rfl⟩ := List.getElem?_eq_some_iff.mp ht
  have hpair := (h.pairwise_holds parent).filter fun stmt => isHeader (text stmt)
  exact List.pairwise_iff_getElem.mp hpair s t hs' ht' hst i hi j hj hown.holds hown'.holds

end StmtsInOrder

/-! ### Statements with their own blocks -/

/-- Every branch and loop of a segment gets its own block, and none if it has none. -/
def GetsOwnBlocks (P : SegmentStmts SourceGlyph) (segments : List Segment) (seg : Segment) : Prop :=
  ∀ p ∈ (P.stmts.getD seg.id []).zip (takenChildren segments seg), p.2.1.takesChild →
    (∀ b, p.2.2 = some b → P.IsOwnBlock p.1 b) ∧
      (p.2.2 = none → ∀ b ∈ P.childrenOf seg.id, ¬ P.IsOwnBlock p.1 b)

section Pairing

variable {U : CharTable} {P : SegmentStmts SourceGlyph}

/-- The statements of a segment with the children that they get are the statements of the source,
dealt the children that the parser knows. -/
theorem zip_takenChildren (hparents : ∀ i, P.parents.getD i 0 = i ↔ i = 0) {seg : Segment}
    (hseg : seg ∈ buildSegments U P.text) :
    ∃ parse : List SourceGlyph → Statement,
      (∀ stmt, (parse stmt).takesChild = isHeader (text stmt)) ∧
      (P.stmts.getD seg.id []).zip (takenChildren (buildSegments U P.text) seg)
        = (deal (fun stmt => isHeader (text stmt)) (P.stmts.getD seg.id [])
            (P.childrenOf seg.id)).map fun p => (p.1, parse p.1, p.2) := by
  obtain ⟨known, udtVars, hstmts⟩ := stmts_of_mem_buildSegments hseg
  refine ⟨fun stmt => parsedStmt U known udtVars seg.memory (text stmt),
    fun stmt => takesChild_parsedStmt U known udtVars seg.memory (text stmt), ?_⟩
  have hchildren := buildChildren_buildSegments (U := U) (P := P.text) hparents seg.id
  rw [takenChildren, hchildren, childrenOf_text, hstmts, getD_stmts_text, List.map_map, deal_map]
  simp only [Function.comp_apply, takesChild_parsedStmt]
  have hfst := map_fst_deal (fun stmt => isHeader (text stmt)) (P.stmts.getD seg.id [])
    (P.childrenOf seg.id)
  conv_lhs =>
    enter [1]
    rw [← hfst]
  exact List.zip_map'

/-- **Own blocks, exactly**, in one segment. -/
theorem getsOwnBlocks_iff (horder : StmtsInOrder P)
    (hparents : ∀ i, P.parents.getD i 0 = i ↔ i = 0) {seg : Segment}
    (hseg : seg ∈ buildSegments U P.text) :
    GetsOwnBlocks P (buildSegments U P.text) seg ↔ P.BlocksMatch seg.id := by
  obtain ⟨parse, hparse, hzip⟩ := zip_takenChildren (U := U) hparents hseg
  have hmono : ∀ (s t b c : ℕ) x y u v, s < t → (P.headers seg.id)[s]? = some x →
      (P.headers seg.id)[t]? = some y → (P.childrenOf seg.id)[b]? = some u →
      (P.childrenOf seg.id)[c]? = some v → P.IsOwnBlock x u → P.IsOwnBlock y v → b < c := by
    intro s t b c x y u v hst hx hy hu hv hown hown'
    have hlt := horder.isOwnBlock_lt hst hx hy (List.mem_of_getElem? hu) (List.mem_of_getElem? hv)
      hown hown'
    obtain ⟨hb, rfl⟩ := List.getElem?_eq_some_iff.mp hu
    obtain ⟨hc, rfl⟩ := List.getElem?_eq_some_iff.mp hv
    by_contra hle
    rcases Nat.lt_or_eq_of_le (Nat.le_of_not_lt hle) with hgt | rfl
    · have hback := List.pairwise_iff_getElem.mp (SegmentStmts.pairwise_childrenOf seg.id) c b hc hb hgt
      omega
    · omega
  have huniq : ∀ x ∈ P.headers seg.id, ∀ (b c : ℕ) u v, (P.childrenOf seg.id)[b]? = some u →
      (P.childrenOf seg.id)[c]? = some v → P.IsOwnBlock x u → P.IsOwnBlock x v → b = c := by
    intro x _ b c u v hu hv hown hown'
    have heq := horder.isOwnBlock_unique (List.mem_of_getElem? hu) (List.mem_of_getElem? hv)
      hown hown'
    obtain ⟨hb, rfl⟩ := List.getElem?_eq_some_iff.mp hu
    obtain ⟨hc, hv⟩ := List.getElem?_eq_some_iff.mp hv
    have hnodup : (P.childrenOf seg.id).Nodup :=
      (SegmentStmts.pairwise_childrenOf seg.id).imp Nat.ne_of_lt
    exact (hnodup.getElem_inj_iff).mp (heq.trans hv.symm)
  have hmatch := forall_own_iff hmono huniq
  rw [show P.BlocksMatch seg.id ↔ _ from hmatch.symm, GetsOwnBlocks, hzip]
  have hdeal := filter_deal (fun stmt => isHeader (text stmt)) (P.stmts.getD seg.id [])
    (P.childrenOf seg.id)
  constructor
  · intro h t x hx
    have hmem : (x, (P.childrenOf seg.id)[t]?) ∈
        (deal (fun stmt => isHeader (text stmt)) (P.stmts.getD seg.id [])
          (P.childrenOf seg.id)).filter fun p => isHeader (text p.1) := by
      refine List.mem_of_getElem? (i := t) ?_
      rw [hdeal]
      exact congrArg (Option.map fun x => (x, (P.childrenOf seg.id)[t]?)) hx
    obtain ⟨hmem, htakes⟩ := List.mem_filter.mp hmem
    exact h _ (List.mem_map_of_mem hmem) (by rw [hparse]; exact htakes)
  · intro h q hq htakes
    obtain ⟨p, hp, rfl⟩ := List.mem_map.mp hq
    rw [hparse] at htakes
    have hmem : p ∈ (deal (fun stmt => isHeader (text stmt)) (P.stmts.getD seg.id [])
        (P.childrenOf seg.id)).filter fun p => isHeader (text p.1) :=
      List.mem_filter.mpr ⟨hp, htakes⟩
    obtain ⟨t, ht⟩ := List.mem_iff_getElem?.mp hmem
    rw [hdeal, Option.map_eq_some_iff] at ht
    obtain ⟨x, hx, rfl⟩ := ht
    exact h t x hx

/-- **Pairing by position.** The interpreter and the matrix run and walk every segment statement by
statement, each with the child that it gets; and every branch and loop below the root gets its own
block, and none if it has none, if and only if headers and blocks match in every segment. -/
theorem pairing_iff {opts : Includes} {file : Text} {segs : List Segment}
    (hparse : parseCFile U opts file = some segs)
    (hP : segmentStmts opts (placed file) = some P) :
    (∀ (σ : Type) (maxUnroll : ℕ) (H : Handlers σ)
        (run : Segment → ℕ → Option ℕ → Exec σ Stop Unit) (seg : Segment) (frame : ℕ)
        (it : Option ℕ),
      execSeg ⟨segs, maxUnroll⟩ H run seg frame it
        = execPairs ⟨segs, maxUnroll⟩ H run frame seg it (takenChildren segs seg)) ∧
    (∀ (slotIndex : List Text) (fuel segId : ℕ), walkSegment U segs slotIndex (fuel + 1) segId
      = (segById segs segId).bind (walkPairs U segs slotIndex fuel)) ∧
    ((∀ seg ∈ segs, seg.id ≠ 0 → GetsOwnBlocks P segs seg) ↔
      ∀ i < P.stmts.length, i ≠ 0 → P.BlocksMatch i) := by
  refine ⟨fun _ _ _ _ seg frame it => execSeg_eq_execPairs seg frame it,
    fun _ fuel segId => walkSegment_eq_walkPairs fuel segId, ?_⟩
  have horder := stmtsInOrder_segmentStmts hP
  have hparents := parents_segmentStmts hP
  obtain rfl := buildSegments_of_parse hparse hP
  have hiff : ∀ seg ∈ buildSegments U P.text,
      (GetsOwnBlocks P (buildSegments U P.text) seg ↔ P.BlocksMatch seg.id) :=
    fun seg hseg => getsOwnBlocks_iff horder hparents hseg
  obtain ⟨hlen, hbuild⟩ := buildSegments_spec U P.text
  have hlen' : P.text.stmts.length = P.stmts.length := List.length_map _
  constructor
  · intro h i hi hne
    obtain ⟨seg, hget⟩ : ∃ seg, (buildSegments U P.text)[i]? = some seg :=
      ⟨_, List.getElem?_eq_getElem (by omega)⟩
    have hmem := List.mem_of_getElem? hget
    obtain ⟨segments, hseg⟩ := hbuild i seg hget
    obtain rfl : seg.id = i := hseg ▸ rfl
    exact (hiff seg hmem).mp (h seg hmem hne)
  · intro h seg hseg hne
    have hlt := (exists_of_mem_buildSegments hseg).1
    exact (hiff seg hseg).mpr (h seg.id (by omega) hne)

/-- A function with a chain and a loop. -/
def bracedSource : Text :=
  lit "int f(int a) \x7b if (a) { a = 1; } else { a = 0; } do { a = 0; } while (a); \x7d"

theorem isSome_parse_bracedSource : (parseCFile .ascii {} bracedSource).isSome ∧
    (segmentStmts {} (placed bracedSource)).isSome := by decide +kernel

theorem pairing_iff_braced : ∃ segs P, parseCFile .ascii {} bracedSource = some segs ∧
    segmentStmts {} (placed bracedSource) = some P ∧ segs.length = 5 ∧
    ∀ seg ∈ segs, seg.id ≠ 0 → GetsOwnBlocks P segs seg := by
  have hparse := (Option.some_get isSome_parse_bracedSource.1).symm
  have hplaced := (Option.some_get isSome_parse_bracedSource.2).symm
  refine ⟨_, _, hparse, hplaced, by decide +kernel, ?_⟩
  exact (pairing_iff hparse hplaced).2.2.mpr (by decide +kernel)

/-- A branch without braces in front of one with braces. -/
def bareSource : Text := lit "void f(int a) \x7b if (a) g(); if (a) { h(); } \x7d"

theorem isSome_parse_bareSource : (parseCFile .ascii {} bareSource).isSome ∧
    (segmentStmts {} (placed bareSource)).isSome := by decide +kernel

/-- The branch without braces gets the block of the other one. -/
theorem not_getsOwnBlocks : ¬ ∀ (U : CharTable) (opts : Includes) (file : Text)
    (segs : List Segment) (P : SegmentStmts SourceGlyph), parseCFile U opts file = some segs →
    segmentStmts opts (placed file) = some P →
    ∀ seg ∈ segs, seg.id ≠ 0 → GetsOwnBlocks P segs seg := by
  intro h
  have hparse := (Option.some_get isSome_parse_bareSource.1).symm
  have hplaced := (Option.some_get isSome_parse_bareSource.2).symm
  have hsegs := buildSegments_of_parse hparse hplaced
  have hmem : ∃ seg ∈ (parseCFile .ascii {} bareSource).get isSome_parse_bareSource.1,
      seg.id = 1 := by decide +kernel
  obtain ⟨seg, hseg, hid⟩ := hmem
  have hown := h .ascii {} bareSource _ _ hparse hplaced seg hseg (by omega)
  rw [← hsegs] at hseg hown
  have hmatch := (getsOwnBlocks_iff (stmtsInOrder_segmentStmts hplaced)
    (parents_segmentStmts hplaced) hseg).mp hown
  rw [hid] at hmatch
  revert hmatch
  decide +kernel

end Pairing

end Csc512
