import Csc512.Cdup.BlockTypes
import Csc512.Cdup.CloneFilters
import Csc512.Cdup.Expansion
import Csc512.Cdup.Merge

/-!
# Clones of Type I

In the Type I run, two occurrences of a class have the same normal forms with the same block types.
Block types are numbers of hashes; where no two of the texts that are hashed collide, equal block
types stand for bodies with the same normal forms, block by block. So the statements of the two
occurrences, expanded through all their blocks, have the same normal forms.

A normal form collapses all white space, in literals too, and is in lower case.

## Main results

* `sameExpansion_typeI` — the occurrences of a class have the same expanded normal forms
* `not_sameText_shouting` — they can be spelled differently
-/

namespace Csc512

variable (U : CharTable)

/-- The placeholders in the statements of a source are those of its blocks, and every block has
one. -/
structure BlocksShown (P : SegmentStmts SourceGlyph) : Prop where
  shown : ∀ parent < P.stmts.length, ∀ i ∈ P.childrenOf parent,
    ∃ s ∈ P.stmts.getD parent [], i ∈ P.marks parent s
  marked : ∀ parent < P.stmts.length, ∀ s ∈ P.stmts.getD parent [], AllMarked U P parent s

/-- The source that a merged segment is from, and its number there. -/
def sourceOf : List (SegmentStmts SourceGlyph) → ℕ → Option (SegmentStmts SourceGlyph × ℕ)
  | [], _ => none
  | P :: Ps, id => if id < P.stmts.length then some (P, id) else sourceOf Ps (id - P.stmts.length)

/-- The statements of an occurrence, with the bodies of their blocks. -/
def expandedAt (Ps : List (SegmentStmts SourceGlyph)) (o : Occurrence) : List Text :=
  match sourceOf Ps o.segId with
  | some (P, i) =>
    ((P.expandedStmts P.stmts.length i).drop o.startStmt).take (o.endStmt + 1 - o.startStmt)
  | none => []

/-- What is hashed for a segment: its statements in the flat list. -/
def segmentText (flat : List (Option FlatEntry)) (segId : ℕ) : Text :=
  [' '].intercalate ((flat.filterMap fun e => e.filter fun entry => entry.segId = segId).map
    FlatEntry.norm)

/-- No two of the texts that are hashed collide. -/
def NoCollision (sha256 : Text → Text) (segments : List Segment) (flat : List (Option FlatEntry)) :
    Prop :=
  ∀ seg ∈ segments, ∀ seg' ∈ segments,
    sha256 (segmentText flat seg.id) = sha256 (segmentText flat seg'.id) →
    segmentText flat seg.id = segmentText flat seg'.id

variable {U}

/-! ### The flat list and the statements of the segments -/

section Flat

variable {type2Norm : Bool} {segHashes : Dict ℕ ℕ} {segments segs : List Segment}
  {flat : List (Option FlatEntry)}

theorem mem_flatSegments (h : flatSegments U type2Norm segHashes segments segs = some flat)
    {entry : FlatEntry} (hentry : some entry ∈ flat) : ∃ seg ∈ segs, ∃ entries,
      flatStmts U type2Norm segHashes seg.id 0 seg.stmts (childrenOf segments seg.id)
        = some entries ∧ entry.segId = seg.id ∧ entries[entry.stmtIdx]? = some entry := by
  induction segs generalizing flat with
  | nil =>
    obtain rfl : [] = flat := Option.some.inj h
    cases hentry
  | cons seg segs ih =>
    obtain ⟨entries, hentries, h⟩ := Option.bind_eq_some_iff.mp h
    obtain ⟨rest, hrest, heq⟩ := Option.bind_eq_some_iff.mp h
    obtain rfl := Option.some.inj heq
    rcases List.mem_append.mp hentry with hmem | hmem
    · obtain ⟨e, he, heq⟩ := List.mem_map.mp hmem
      obtain rfl := Option.some.inj heq
      obtain ⟨k, hk⟩ := List.mem_iff_getElem?.mp he
      obtain ⟨hseg, hidx⟩ := (of_flatStmts hentries).2 k e hk
      refine ⟨seg, List.mem_cons_self, entries, hentries, hseg, ?_⟩
      rwa [hidx, Nat.zero_add]
    · rcases List.mem_cons.mp hmem with hmem | hmem
      · cases hmem
      · obtain ⟨seg', hseg', hfound⟩ := ih hrest hmem
        exact ⟨seg', List.mem_cons_of_mem _ hseg', hfound⟩

/-- What is hashed for a segment are the forms of its statements. -/
theorem segmentText_eq (hnodup : (segs.map Segment.id).Nodup)
    (h : flatSegments U type2Norm segHashes segments segs = some flat) {seg : Segment}
    (hseg : seg ∈ segs) {entries : List FlatEntry}
    (hentries : flatStmts U type2Norm segHashes seg.id 0 seg.stmts (childrenOf segments seg.id)
      = some entries) :
    segmentText flat seg.id = [' '].intercalate (entries.map FlatEntry.norm) := by
  refine congrArg (fun es : List FlatEntry => [' '].intercalate (es.map FlatEntry.norm)) ?_
  -- the entries of one segment are all of it or none
  have hall : ∀ (s : Segment) (es : List FlatEntry),
      flatStmts U type2Norm segHashes s.id 0 s.stmts (childrenOf segments s.id) = some es →
      (es.map some ++ [none]).filterMap (fun e : Option FlatEntry =>
        e.filter fun entry => entry.segId = seg.id) = if s.id = seg.id then es else [] := by
    intro s es hes
    have hid : ∀ e ∈ es, e.segId = s.id := by
      intro e he
      obtain ⟨k, hk⟩ := List.mem_iff_getElem?.mp he
      exact ((of_flatStmts hes).2 k e hk).1
    rw [List.filterMap_append, List.filterMap_map]
    split_ifs with hs
    · have hkeep : es.filterMap ((fun e : Option FlatEntry =>
          e.filter fun entry => entry.segId = seg.id) ∘ some) = es.filterMap some := by
        refine List.filterMap_congr fun e he => ?_
        simp [Option.filter_some, hid e he, hs]
      rw [hkeep, List.filterMap_some]
      simp
    · have hdrop : es.filterMap ((fun e : Option FlatEntry =>
          e.filter fun entry => entry.segId = seg.id) ∘ some) = [] := by
        refine List.filterMap_eq_nil_iff.mpr fun e he => ?_
        simp [Option.filter_some, hid e he, hs]
      rw [hdrop]
      simp
  induction segs generalizing flat with
  | nil => cases hseg
  | cons s segs ih =>
    obtain ⟨es, hes, h⟩ := Option.bind_eq_some_iff.mp h
    obtain ⟨rest, hrest, heq⟩ := Option.bind_eq_some_iff.mp h
    obtain rfl := Option.some.inj heq
    obtain ⟨hnew, hnodup⟩ := List.nodup_cons.mp hnodup
    have hsplit : es.map some ++ none :: rest = (es.map some ++ [none]) ++ rest := by simp
    rw [hsplit, List.filterMap_append, hall s es hes]
    rcases List.mem_cons.mp hseg with rfl | hseg
    · obtain rfl : entries = es := Option.some.inj (hentries.symm.trans hes)
      have hnone : rest.filterMap (fun e : Option FlatEntry =>
          e.filter fun entry => entry.segId = seg.id) = [] := by
        refine List.filterMap_eq_nil_iff.mpr fun e he => ?_
        cases e with
        | none => rfl
        | some entry =>
          obtain ⟨s', hs', -, -, hid, -⟩ := mem_flatSegments hrest he
          have hne : entry.segId ≠ seg.id := by
            intro heq
            exact hnew (heq ▸ hid ▸ List.mem_map_of_mem hs')
          simp [Option.filter_some, hne]
      rw [if_pos rfl, hnone, List.append_nil]
    · have hne : s.id ≠ seg.id := fun heq => hnew (heq ▸ List.mem_map_of_mem hseg)
      rw [if_neg hne, List.nil_append]
      exact ih hnodup hrest hseg

end Flat

/-! ### The forms of the statements of a source -/

/-- Filling the placeholders of a form with the block types of as many children. -/
theorem eq_of_flatForms {d : Dict ℕ ℕ} {cs rest : List ℕ} {form : Text} {r : Text × Text × List ℕ}
    (hcount : countPlaceholders form = cs.length)
    (h : flatForms false d (cs ++ rest) form form = some r) :
    r = (fillTags (cs.map fun c => (d.get? c).getD 0) form,
      fillTags (cs.map fun c => (d.get? c).getD 0) form, rest) := by
  induction cs generalizing form with
  | nil =>
    have hnone : ¬ contains (lit "{}") form := by
      rw [contains_iff, hcount]
      exact Nat.lt_irrefl 0
    rw [List.nil_append] at h
    rw [List.map_nil, fillTags_nil]
    cases rest with
    | nil => exact (Option.some.inj h).symm
    | cons c rest =>
      rw [flatForms, if_neg hnone] at h
      exact (Option.some.inj h).symm
  | cons c cs ih =>
    have hpos : 0 < countPlaceholders form := by
      rw [hcount]
      exact Nat.succ_pos _
    rw [List.cons_append, flatForms, if_pos ((contains_iff form).mpr hpos)] at h
    obtain ⟨t, ht, h⟩ := Option.bind_eq_some_iff.mp h
    obtain ⟨hfill, hless⟩ := fillTags_replaceFirst t (cs.map fun c => (d.get? c).getD 0) hpos
    have hrest := ih (Nat.succ.inj (hless.trans hcount)) h
    rw [hrest, hfill, List.map_cons, ht, Option.getD_some]

/-- The forms of the statements of a source in the flat list. -/
theorem map_norm_flatStmts {P : SegmentStmts SourceGlyph} {i idOffset : ℕ} {d : Dict ℕ ℕ}
    {ss : List (List SourceGlyph)} (hmarked : ∀ s ∈ ss, AllMarked U P i s)
    {stmts : List Statement} (hraw : stmts.map Statement.raw = ss.map text) {segId idx : ℕ}
    {entries : List FlatEntry}
    (h : flatStmts U false d segId idx stmts ((ss.flatMap (P.marks i)).map (idOffset + ·))
      = some entries) :
    entries.map FlatEntry.norm
      = ss.map (filledForm U P (fun c => (d.get? (idOffset + c)).getD 0) i) := by
  induction ss generalizing stmts idx entries with
  | nil =>
    obtain rfl : stmts = [] := List.map_eq_nil_iff.mp hraw
    obtain rfl : [] = entries := Option.some.inj h
    rfl
  | cons s ss ih =>
    cases stmts with
    | nil => cases hraw
    | cons stmt stmts =>
      obtain ⟨hfirst, hrest⟩ := List.cons.inj hraw
      obtain ⟨hs, hmarked⟩ := List.forall_mem_cons.mp hmarked
      obtain ⟨⟨norm, norm1, left⟩, hforms, h⟩ := Option.bind_eq_some_iff.mp h
      obtain ⟨rest, hentries, heq⟩ := Option.bind_eq_some_iff.mp h
      obtain rfl := Option.some.inj heq
      have hforms : flatForms false d ((P.marks i s).map (idOffset + ·)
          ++ (ss.flatMap (P.marks i)).map (idOffset + ·)) (normalizeStmt U (text s))
          (normalizeStmt U (text s)) = some (norm, norm1, left) := by
        rw [← List.map_append, ← hfirst]
        exact hforms
      have hfilled := eq_of_flatForms (hs.trans (List.length_map _).symm) hforms
      obtain ⟨hnorm, hleft⟩ := Prod.mk.inj hfilled
      obtain ⟨-, rfl⟩ := Prod.mk.inj hleft
      rw [List.map_cons, List.map_cons, ih hmarked hrest hentries]
      refine congrArg (· :: _) ?_
      show norm = _
      rw [hnorm, List.map_map]
      rfl

/-! ### Several sources -/

/-- What is used of the way in which the parser cuts a source. -/
structure WellCut (P : SegmentStmts SourceGlyph) : Prop where
  order : StmtsInOrder P
  root : P.parents.getD 0 0 = 0
  parents : ∀ i, 0 < i → P.parents.getD i 0 < i
  ink : ∀ i, ∀ s ∈ P.stmts.getD i [], HasInk s

theorem wellCut_segmentStmts {opts : Includes} {file : Text} {P : SegmentStmts SourceGlyph}
    (hP : segmentStmts opts (placed file) = some P) : WellCut P where
  order := stmtsInOrder_segmentStmts hP
  root := (parents_segmentStmts hP 0).mpr rfl
  parents _ hi := parents_lt_segmentStmts hP hi
  ink i s hs := by
    obtain ⟨b, -, hP⟩ := Option.bind_eq_some_iff.mp hP
    obtain ⟨p, -, hP⟩ := Option.bind_eq_some_iff.mp hP
    split_ifs at hP
    obtain rfl := Option.some.inj hP
    rw [List.getD_eq_getElem?_getD, List.getElem?_map] at hs
    cases hseg : (parseCodeSegs (placed file) b.1 b.2)[i]? with
    | none =>
      rw [hseg] at hs
      cases hs
    | some seg =>
      rw [hseg] at hs
      exact hasInk_of_mem_parseStatements hs

variable (U) in
/-- The segments that the parser makes of a source. -/
def sourceSegments (P : SegmentStmts SourceGlyph) : List Segment := buildSegments U P.text

theorem length_sourceSegments (P : SegmentStmts SourceGlyph) :
    (sourceSegments U P).length = P.stmts.length :=
  (buildSegments_spec U P.text).1.trans (List.length_map _)

theorem WellCut.numbered {P : SegmentStmts SourceGlyph} (hP : WellCut P) :
    Numbered (sourceSegments U P) :=
  numbered_buildSegments hP.parents hP.root

variable (U) in
/-- The segments of all sources. -/
def allSegments (Ps : List (SegmentStmts SourceGlyph)) : List Segment :=
  mergeSegments (Ps.map (sourceSegments U))

variable (U) in
/-- The number of the first segment behind some sources. -/
def offsetOf (before : List (SegmentStmts SourceGlyph)) : ℕ :=
  segmentCount (before.map (sourceSegments U))

theorem exists_sourceOf {Ps : List (SegmentStmts SourceGlyph)} {id : ℕ}
    (hid : id < offsetOf U Ps) : ∃ before P after i, Ps = before ++ P :: after ∧
      i < P.stmts.length ∧ id = offsetOf U before + i ∧ sourceOf Ps id = some (P, i) := by
  induction Ps generalizing id with
  | nil => exact absurd hid (Nat.not_lt_zero _)
  | cons P Ps ih =>
    have hcount : ∀ Qs, offsetOf U (P :: Qs) = P.stmts.length + offsetOf U Qs := by
      intro Qs
      rw [offsetOf, List.map_cons, segmentCount, List.map_cons, List.sum_cons,
        length_sourceSegments]
      rfl
    rw [hcount] at hid
    by_cases hfirst : id < P.stmts.length
    · exact ⟨[], P, Ps, id, rfl, hfirst, (Nat.zero_add id).symm, if_pos hfirst⟩
    · obtain ⟨before, Q, after, i, rfl, hi, heq, hsource⟩ :=
        ih (show id - P.stmts.length < offsetOf U Ps by omega)
      refine ⟨P :: before, Q, after, i, rfl, hi, ?_, (if_neg hfirst).trans hsource⟩
      rw [hcount]
      omega

/-- The blocks of a statement come behind its segment. -/
theorem WellCut.lt_of_mem_marks {P : SegmentStmts SourceGlyph} (hP : WellCut P) {i c : ℕ}
    {s : List SourceGlyph} (hc : c ∈ P.marks i s) : i < c ∧ c < P.stmts.length := by
  obtain ⟨hpos, hlt, hparent⟩ := SegmentStmts.mem_childrenOf (holds_of_mem_marks hc).1
  exact ⟨hparent ▸ hP.parents c hpos, hlt⟩

section Sources

variable {Ps : List (SegmentStmts SourceGlyph)} (hcut : ∀ P ∈ Ps, WellCut P)

include hcut

theorem numbered_of_mem : ∀ segs ∈ Ps.map (sourceSegments U), Numbered segs := by
  intro segs hsegs
  obtain ⟨P, hP, rfl⟩ := List.mem_map.mp hsegs
  exact (hcut P hP).numbered

/-- A segment of one source among all. -/
theorem exists_segment_of_source {before after : List (SegmentStmts SourceGlyph)}
    {P : SegmentStmts SourceGlyph} (hPs : Ps = before ++ P :: after) {i : ℕ}
    (hi : i < P.stmts.length) :
    ∃ seg ∈ allSegments U Ps, seg.id = offsetOf U before + i ∧
      segById (allSegments U Ps) (offsetOf U before + i) = some seg ∧
      seg.stmts.map Statement.raw = (P.stmts.getD i []).map text := by
  subst hPs
  have hnumbered := numbered_of_mem (U := U) hcut
  have hlen : i < (sourceSegments U P).length := by rwa [length_sourceSegments]
  have hfind : segById (mergeSegments (before.map (sourceSegments U)
      ++ sourceSegments U P :: after.map (sourceSegments U))) (offsetOf U before + i) = _ :=
    segById_mergeSegments (by simpa using hnumbered) hlen
  have hmem : i ∈ (sourceSegments U P).map Segment.id := by
    rw [(hnumbered _ (by simp)).ids]
    exact List.mem_range.mpr hlen
  obtain ⟨seg, hseg⟩ := Option.isSome_iff_exists.mp (segById_isSome hmem)
  have hmerged : segById (allSegments U (before ++ P :: after)) (offsetOf U before + i)
      = some (renumberSegment (offsetOf U before) seg) := by
    rw [allSegments, List.map_append, List.map_cons]
    refine hfind.trans ?_
    rw [hseg]
    rfl
  refine ⟨_, mem_of_segById hmerged, id_of_segById hmerged, hmerged, ?_⟩
  obtain ⟨known, udtVars, hstmts⟩ := stmts_of_mem_buildSegments (mem_of_segById hseg)
  show seg.stmts.map Statement.raw = _
  rw [hstmts, id_of_segById hseg, getD_stmts_text, List.map_map]
  exact (List.map_congr_left fun x _ => raw_classifyStatement U known udtVars x).trans
    (List.map_id _)

theorem childrenOf_source {before after : List (SegmentStmts SourceGlyph)}
    {P : SegmentStmts SourceGlyph} (hPs : Ps = before ++ P :: after) (hshown : BlocksShown U P)
    {i : ℕ} (hi : i < P.stmts.length) :
    childrenOf (allSegments U Ps) (offsetOf U before + i)
      = ((P.stmts.getD i []).flatMap (P.marks i)).map (offsetOf U before + ·) := by
  subst hPs
  have hP := hcut P (by simp)
  have hnumbered := numbered_of_mem (U := U) hcut
  have hchildren : childrenOf (mergeSegments (before.map (sourceSegments U)
      ++ sourceSegments U P :: after.map (sourceSegments U))) (offsetOf U before + i) = _ :=
    childrenOf_mergeSegments (by simpa using hnumbered) (by rwa [length_sourceSegments])
  rw [← childrenOf_eq_flatMap_marks hP.order (hshown.shown i hi), ← childrenOf_text,
    ← childrenOf_buildSegments (U := U) (P := P.text) hP.root hP.parents, allSegments,
    List.map_append, List.map_cons]
  exact hchildren

/-! ### Equal block types, equal bodies -/

section Bodies

variable {sha256 : Text → Text} {T : BlockTypes} {flat : List (Option FlatEntry)}
  (hshown : ∀ P ∈ Ps, BlocksShown U P)
  (hsound : BlockTypes.Sound U sha256 (allSegments U Ps) T)
  (hflat : flatSegments U false T.segHashes (allSegments U Ps) (allSegments U Ps) = some flat)

include hshown hsound hflat

/-- The forms of the statements of a segment. -/
theorem exists_forms {before after : List (SegmentStmts SourceGlyph)}
    {P : SegmentStmts SourceGlyph} (hPs : Ps = before ++ P :: after) {i t : ℕ}
    (hi : i < P.stmts.length)
    (ht : T.segHashes.get? (offsetOf U before + i) = some t) :
    ∃ seg ∈ allSegments U Ps, seg.id = offsetOf U before + i ∧ ∃ entries,
      flatStmts U false T.segHashes seg.id 0 seg.stmts (childrenOf (allSegments U Ps) seg.id)
        = some entries ∧
      entries.map FlatEntry.norm = (P.stmts.getD i []).map
        (filledForm U P (fun c => (T.segHashes.get? (offsetOf U before + c)).getD 0) i) ∧
      T.globalHashToId.get? (sha256 (segmentText flat seg.id)) = some t := by
  have hmem : P ∈ Ps := by
    rw [hPs]
    simp
  obtain ⟨seg, hseg, hid, hfind, hraw⟩ := exists_segment_of_source hcut hPs hi
  obtain ⟨seg', entries, hfind', hentries, hget⟩ := hsound.types ht
  obtain rfl : seg = seg' := Option.some.inj (hfind.symm.trans hfind')
  rw [← hid] at hentries
  have hchildren := childrenOf_source hcut hPs (hshown P hmem) hi
  rw [← hid] at hchildren
  refine ⟨seg, hseg, hid, entries, hentries, ?_, ?_⟩
  · rw [hchildren] at hentries
    exact map_norm_flatStmts ((hshown P hmem).marked i hi) hraw hentries
  · rw [segmentText_eq (nodup_mergeSegments (numbered_of_mem hcut)) hflat hseg hentries]
    exact hget

omit hshown hsound hflat in
theorem exists_blockType (htyped : ∀ seg ∈ allSegments U Ps, (T.segHashes.get? seg.id).isSome)
    {before after : List (SegmentStmts SourceGlyph)} {P : SegmentStmts SourceGlyph}
    (hPs : Ps = before ++ P :: after) {i : ℕ} (hi : i < P.stmts.length) :
    ∃ t, T.segHashes.get? (offsetOf U before + i) = some t := by
  obtain ⟨seg, hseg, hid, -⟩ := exists_segment_of_source (U := U) hcut hPs hi
  rw [← hid]
  exact Option.isSome_iff_exists.mp (htyped seg hseg)

/-- **Equal block types stand for bodies with the same words**, in lower case. -/
theorem lowerWords_body_eq (hlower : ∀ s, U.lower s = [] → s = [])
    (htyped : ∀ seg ∈ allSegments U Ps, (T.segHashes.get? seg.id).isSome)
    (hno : NoCollision sha256 (allSegments U Ps) flat) (fuel fuel' : ℕ)
    {before after before' after' : List (SegmentStmts SourceGlyph)}
    {P P' : SegmentStmts SourceGlyph} (hPs : Ps = before ++ P :: after)
    (hPs' : Ps = before' ++ P' :: after') {i i' : ℕ} (hi : i < P.stmts.length)
    (hi' : i' < P'.stmts.length) (hfuel : P.stmts.length ≤ fuel + i)
    (hfuel' : P'.stmts.length ≤ fuel' + i')
    (htype : T.segHashes.get? (offsetOf U before + i)
      = T.segHashes.get? (offsetOf U before' + i')) :
    lowerWords U ([' '].intercalate (P.expandedStmts fuel i))
      = lowerWords U ([' '].intercalate (P'.expandedStmts fuel' i')) := by
  induction fuel generalizing fuel' i i' with
  | zero => omega
  | succ fuel ih =>
    obtain ⟨fuel', rfl⟩ : ∃ n, fuel' = n + 1 := ⟨fuel' - 1, by omega⟩
    have hmem : P ∈ Ps := by
      rw [hPs]
      simp
    have hmem' : P' ∈ Ps := by
      rw [hPs']
      simp
    obtain ⟨t, ht⟩ := exists_blockType hcut htyped hPs hi
    obtain ⟨seg, hseg, hid, entries, hentries, hnorm, hhash⟩ :=
      exists_forms hcut hshown hsound hflat hPs hi ht
    obtain ⟨seg', hseg', hid', entries', hentries', hnorm', hhash'⟩ :=
      exists_forms hcut hshown hsound hflat hPs' hi' (htype ▸ ht)
    have hnodup := nodup_mergeSegments (numbered_of_mem (U := U) hcut)
    have htext := hno seg hseg seg' hseg' (hsound.numbering.inj hhash hhash')
    rw [segmentText_eq hnodup hflat hseg hentries, segmentText_eq hnodup hflat hseg' hentries',
      hnorm, hnorm'] at htext
    refine lowerWords_expandAll_eq hlower ((hcut P hmem).ink i) ((hcut P' hmem').ink i')
      ((hshown P hmem).marked i hi) ((hshown P' hmem').marked i' hi') htext ?_
    -- the children come behind their parents, so less fuel is left for them than there was
    intro c hc c' hc' hsame
    obtain ⟨s, -, hc⟩ := List.mem_flatMap.mp hc
    obtain ⟨s', -, hc'⟩ := List.mem_flatMap.mp hc'
    obtain ⟨hlt, hc⟩ := (hcut P hmem).lt_of_mem_marks hc
    obtain ⟨hlt', hc'⟩ := (hcut P' hmem').lt_of_mem_marks hc'
    obtain ⟨u, hu⟩ := exists_blockType hcut htyped hPs hc
    obtain ⟨u', hu'⟩ := exists_blockType hcut htyped hPs' hc'
    rw [hu, hu', Option.getD_some, Option.getD_some] at hsame
    exact ih fuel' hc hc' (by omega) (by omega) (by rw [hu, hu', hsame])

/-- The statements at the places of an occurrence. -/
theorem exists_statement (htyped : ∀ seg ∈ allSegments U Ps, (T.segHashes.get? seg.id).isSome)
    {base : ℕ → ℕ} (hlaid : Laid (allSegments U Ps) flat base) {a n : ℕ}
    (hrange : FlatRange flat a n) :
    ∃ before P after i, Ps = before ++ P :: after ∧ i < P.stmts.length ∧
      (expandedAt Ps (occAt flat a n)).length = n ∧
      ∀ k < n, ∃ s ∈ P.stmts.getD i [],
        (expandedAt Ps (occAt flat a n))[k]? = some (P.expand i
          (fun c => [' '].intercalate (P.expandedStmts (P.stmts.length - 1) c)) s) ∧
        (entryAt flat (a + k)).map FlatEntry.norm = some (filledForm U P
          (fun c => (T.segHashes.get? (offsetOf U before + c)).getD 0) i s) := by
  have hnumbered := numbered_of_mem (U := U) hcut
  obtain ⟨seg, hseg, j, rfl, hle⟩ := hrange.exists_segment hlaid
  have hid : seg.id < offsetOf U Ps := by
    rw [offsetOf, ← List.mem_range, ← map_id_mergeSegments hnumbered]
    exact List.mem_map_of_mem hseg
  obtain ⟨before, P, after, i, hPs, hi, hidi, hsource⟩ := exists_sourceOf hid
  obtain ⟨t, ht⟩ := Option.isSome_iff_exists.mp (htyped seg hseg)
  rw [hidi] at ht
  obtain ⟨seg', hseg', hid', entries, hentries, hnorm, -⟩ :=
    exists_forms hcut hshown hsound hflat hPs hi ht
  obtain rfl : seg' = seg := List.inj_on_of_nodup_map (nodup_mergeSegments hnumbered) hseg' hseg
    (hid'.trans hidi.symm)
  have hlen : (P.stmts.getD i []).length = seg'.stmts.length := by
    rw [← (of_flatStmts hentries).1, ← List.length_map (f := FlatEntry.norm), hnorm,
      List.length_map]
  have hpos := hrange.pos
  have hexpanded : expandedAt Ps (occAt flat (base seg'.id + j) n)
      = (((P.stmts.getD i []).map (P.expand i fun c =>
          [' '].intercalate (P.expandedStmts (P.stmts.length - 1) c))).drop j).take n := by
    rw [occAt_segment hlaid hseg hpos hle, expandedAt, hsource]
    show ((P.expandedStmts P.stmts.length i).drop j).take (j + n - 1 + 1 - j) = _
    rw [show P.stmts.length = P.stmts.length - 1 + 1 by omega, show j + n - 1 + 1 - j = n by omega]
    rfl
  refine ⟨before, P, after, i, hPs, hi, ?_, fun k hk => ?_⟩
  · rw [hexpanded, List.length_take, List.length_drop, List.length_map]
    omega
  · have hk' : j + k < (P.stmts.getD i []).length := by omega
    refine ⟨(P.stmts.getD i [])[j + k], List.getElem_mem hk', ?_, ?_⟩
    · rw [hexpanded, List.getElem?_take_of_lt hk, List.getElem?_drop, List.getElem?_map,
        List.getElem?_eq_getElem hk']
      rfl
    · obtain ⟨entry, hentry, hsegId, hidx⟩ := hlaid.entry seg' hseg (j + k) (by omega)
      have hmem : some entry ∈ flat := List.mem_of_getElem? (Option.join_eq_some_iff.mp hentry)
      obtain ⟨seg, hseg'', entries', hentries', hsegId', hget⟩ := mem_flatSegments hflat hmem
      obtain rfl : seg = seg' := List.inj_on_of_nodup_map (nodup_mergeSegments hnumbered) hseg''
        hseg (hsegId'.symm.trans hsegId)
      obtain rfl : entries = entries' := Option.some.inj (hentries.symm.trans hentries')
      rw [Nat.add_assoc, hentry, Option.map_some]
      have hform := congrArg (fun l : List Text => l[j + k]?) hnorm
      simp only [List.getElem?_map] at hform
      rw [hidx] at hget
      rw [hget, List.getElem?_eq_getElem hk'] at hform
      exact hform

end Bodies

end Sources

/-! ### The occurrences of a class -/

variable (U) in
/-- The statements of two occurrences, expanded through all their blocks, have the same normal
forms, and there are as many as the class says. -/
def SameExpansion (Ps : List (SegmentStmts SourceGlyph)) (length : ℕ) (o p : Occurrence) : Prop :=
  (expandedAt Ps o).length = length ∧ (expandedAt Ps p).length = length ∧
    (expandedAt Ps o).map (normalizeStmt U) = (expandedAt Ps p).map (normalizeStmt U)

variable (U) in
/-- **Clones of Type I.** In sources whose placeholders are those of their blocks, the occurrences
of a class of the Type I run have the same expanded normal forms. -/
theorem sameExpansion_typeI (hlower : ∀ s, U.lower s = [] → s = []) (sha256 : Text → Text)
    (order : SetOrder Occurrence) (opts : Includes) {files : List Text}
    {Ps : List (SegmentStmts SourceGlyph)}
    (hPs : List.Forall₂ (fun file P => segmentStmts opts (placed file) = some P) files Ps)
    (hshown : ∀ P ∈ Ps, BlocksShown U P) (maximal : Bool) (minLength maxFreq : ℤ)
    (filterOverlaps : Bool) :
    ∃ parsed flat result, files.mapM (parseCFile U opts) = some parsed ∧
      flatten U sha256 false (mergeSegments parsed) = some flat ∧
      detectClones U sha256 order (mergeSegments parsed) false maximal minLength maxFreq
        filterOverlaps = some result ∧
      (NoCollision sha256 (mergeSegments parsed) flat → ∀ clone ∈ result, clone.cloneType = .I →
        ∀ o ∈ clone.occurrences, ∀ p ∈ clone.occurrences,
          SameExpansion U Ps clone.length o p) := by
  obtain ⟨hparse, hcut⟩ : files.mapM (parseCFile U opts) = some (Ps.map (sourceSegments U)) ∧
      ∀ P ∈ Ps, WellCut P := by
    clear hshown
    induction hPs with
    | nil => exact ⟨rfl, by simp⟩
    | @cons file P files Ps hP _ ih =>
      obtain ⟨hparse, hcut⟩ := ih
      refine ⟨?_, List.forall_mem_cons.mpr ⟨wellCut_segmentStmts hP, hcut⟩⟩
      have htext := segmentStmts_text opts (placed file)
      rw [text_placed, hP] at htext
      rw [List.mapM_cons, parseCFile, htext, hparse]
      rfl
  have hnumbered := numbered_of_mem (U := U) hcut
  have hacyclic : Acyclic (allSegments U Ps) := acyclic_mergeSegments hnumbered
  obtain ⟨flat, base, result, hflatten, hlaid, hresult, hreports⟩ :=
    reports_detectClones U sha256 order (nodup_mergeSegments hnumbered) hacyclic false maximal
      minLength maxFreq filterOverlaps
  refine ⟨_, flat, result, hparse, hflatten, hresult, fun hno clone hclone htype o ho p hp => ?_⟩
  obtain ⟨T, hT, hflat⟩ := Option.bind_eq_some_iff.mp hflatten
  obtain ⟨rank, hrank⟩ := hacyclic
  have hsound := sound_blockTypes hrank hT
  have htyped : ∀ seg ∈ allSegments U Ps, (T.segHashes.get? seg.id).isSome := by
    obtain ⟨T', hT', -, hall⟩ := blockTypesFrom_isSome U sha256 false
      (List.Subset.refl (allSegments U Ps)) ⟨rank, hrank⟩ BlockTypes.empty
    obtain rfl : T = T' := Option.some.inj (hT.symm.trans hT')
    exact hall
  obtain ⟨u, hshow, -⟩ := hreports.shows clone hclone
  obtain ⟨a, ha, rfl⟩ := (hshow.mem o).mp ho
  obtain ⟨b, hb, rfl⟩ := (hshow.mem p).mp hp
  have hrange := ha.flatRange
  have hrange' := hb.flatRange
  rw [htype] at ha hb
  have hsame := (hrange.formsAt_eq_iff hrange' FlatEntry.norm).mp (ha.content.trans hb.content.symm)
  obtain ⟨before, P, after, i, hPs, hi, hlen, hstmt⟩ :=
    exists_statement hcut hshown hsound hflat htyped hlaid hrange
  obtain ⟨before', P', after', i', hPs', hi', hlen', hstmt'⟩ :=
    exists_statement hcut hshown hsound hflat htyped hlaid hrange'
  rw [SameExpansion, hshow.length]
  refine ⟨hlen, hlen', List.ext_getElem? fun k => ?_⟩
  by_cases hk : k < u.length
  · obtain ⟨s, hs, hexpand, hform⟩ := hstmt k hk
    obtain ⟨s', hs', hexpand', hform'⟩ := hstmt' k hk
    have heq := hform.symm.trans ((hsame k hk).trans hform')
    rw [List.getElem?_map, List.getElem?_map, hexpand, hexpand']
    refine congrArg some ?_
    have hmem : P ∈ Ps := by
      rw [hPs]
      simp
    have hmem' : P' ∈ Ps := by
      rw [hPs']
      simp
    rw [normalizeStmt_eq, normalizeStmt_eq]
    refine congrArg _ (lowerWords_expand_eq hlower ((hshown P hmem).marked i hi s hs)
      ((hshown P' hmem').marked i' hi' s' hs') (Option.some.inj heq) fun c hc c' hc' hblock => ?_)
    obtain ⟨hlt, hc⟩ := (hcut P hmem).lt_of_mem_marks hc
    obtain ⟨hlt', hc'⟩ := (hcut P' hmem').lt_of_mem_marks hc'
    obtain ⟨v, hv⟩ := exists_blockType hcut htyped hPs hc
    obtain ⟨v', hv'⟩ := exists_blockType hcut htyped hPs' hc'
    rw [hv, hv', Option.getD_some, Option.getD_some] at hblock
    exact lowerWords_body_eq hcut hshown hsound hflat hlower htyped hno _ _ hPs hPs' hc hc'
      (by omega) (by omega) (by rw [hv, hv', hblock])
  · rw [List.getElem?_eq_none (by rw [List.length_map]; omega),
      List.getElem?_eq_none (by rw [List.length_map]; omega)]

theorem lower_ascii_eq_nil (s : Text) (h : CharTable.ascii.lower s = []) : s = [] :=
  List.map_eq_nil_iff.mp h

/-- Two functions with a branch, one of them in capital letters. -/
def shoutingSource : Text :=
  lit "void f() \x7b a = 1; if (a) \x7b b = \"x\"; \x7d \x7d " ++
    lit "void g() \x7b A = 1; if (A)  \x7b B = \"X\"; \x7d \x7d"

/-- What the parser cuts out of it. -/
def shoutingParts : SegmentStmts SourceGlyph :=
  (segmentStmts {} (placed shoutingSource)).getD ⟨[], [], []⟩

theorem segmentStmts_shoutingSource :
    segmentStmts {} (placed shoutingSource) = some shoutingParts :=
  eq_some_getD (by decide +kernel) _

theorem sameExpansion_typeI_shouting :
    ∃ parsed flat result, [shoutingSource].mapM (parseCFile .ascii {}) = some parsed ∧
      flatten .ascii id false (mergeSegments parsed) = some flat ∧
      detectClones .ascii id (.inserted _) (mergeSegments parsed) false true 1 0 true
        = some result ∧
      (NoCollision id (mergeSegments parsed) flat → ∀ clone ∈ result, clone.cloneType = .I →
        ∀ o ∈ clone.occurrences, ∀ p ∈ clone.occurrences,
          SameExpansion .ascii [shoutingParts] clone.length o p) := by
  refine sameExpansion_typeI .ascii lower_ascii_eq_nil id (.inserted _) {}
    (.cons segmentStmts_shoutingSource .nil) (fun P hP => ?_) true 1 0 true
  obtain rfl := List.mem_singleton.mp hP
  exact ⟨by decide +kernel, by decide +kernel⟩

/-- A text without the white space outside its literals; `quote` is the mark of the literal that
is open. -/
def unspaced : Option Char → Text → Text
  | _, [] => []
  | none, c :: s =>
    if isSpace c then unspaced none s
    else c :: unspaced (if c = '"' ∨ c = '\'' then some c else none) s
  | some quote, '\\' :: c :: s => '\\' :: c :: unspaced (some quote) s
  | some quote, c :: s => c :: unspaced (if c = quote then none else some quote) s

/-- **Clones in capital letters.** The two functions are a class of Type I, but their statements
differ by more than white space. -/
theorem not_sameText_shouting :
    ¬ ∀ (files : List Text) (Ps : List (SegmentStmts SourceGlyph)) (parsed : List (List Segment))
      (result : List CloneClass),
      List.Forall₂ (fun file P => segmentStmts {} (placed file) = some P) files Ps →
      files.mapM (parseCFile .ascii {}) = some parsed →
      detectClones .ascii id (.inserted _) (mergeSegments parsed) false true 1 0 true
        = some result →
      ∀ clone ∈ result, clone.cloneType = .I →
      ∀ o ∈ clone.occurrences, ∀ p ∈ clone.occurrences,
        (expandedAt Ps o).map (unspaced none) = (expandedAt Ps p).map (unspaced none) := by
  intro h
  have hparsed : [shoutingSource].mapM (parseCFile .ascii {})
      = some (([shoutingSource].mapM (parseCFile .ascii {})).getD []) :=
    eq_some_getD (by decide +kernel) _
  have hresult : detectClones .ascii id (.inserted _)
      (mergeSegments (([shoutingSource].mapM (parseCFile .ascii {})).getD [])) false true 1 0 true
      = some ((detectClones .ascii id (.inserted _)
        (mergeSegments (([shoutingSource].mapM (parseCFile .ascii {})).getD []))
        false true 1 0 true).getD []) := by decide +kernel
  have hsame := h _ _ _ _ (.cons segmentStmts_shoutingSource .nil) hparsed hresult
  have hdiffer : ∃ clone ∈ (detectClones .ascii id (.inserted _)
      (mergeSegments (([shoutingSource].mapM (parseCFile .ascii {})).getD []))
      false true 1 0 true).getD [], clone.cloneType = .I ∧
      ∃ o ∈ clone.occurrences, ∃ p ∈ clone.occurrences,
        (expandedAt [shoutingParts] o).map (unspaced none)
          ≠ (expandedAt [shoutingParts] p).map (unspaced none) := by decide +kernel
  obtain ⟨clone, hclone, htype, o, ho, p, hp, hne⟩ := hdiffer
  exact hne (hsame clone hclone htype o ho p hp)

end Csc512
