import Csc512.Cdup.Dag
import Csc512.Cdup.Flatten
import Csc512.Cdup.ParseFile

/-!
# Merging files

Several files become one representation: the segments of every file are renumbered behind those of
the files before it, and the matrix and the data-flow graph are built over all of them.

A representation of one file is `Numbered`: its segments have the numbers of their positions, and
every segment but the first one comes behind its parent. What the parser makes of a source is.

## Main results

* `map_id_mergeSegments` — the segments of the merged files have the numbers of their positions
* `acyclic_mergeSegments` — and no segment is its own descendant
* `childrenOf_mergeSegments` — the children of a segment are those it has in its file, renumbered
-/

namespace Csc512

/-! ### The functions of the source -/

/-- A segment with other numbers. -/
def renumberSegment (idOffset : ℕ) (seg : Segment) : Segment :=
  { seg with id := seg.id + idOffset, parent := seg.parent + idOffset }

/-- The segments of the files from here on. -/
def mergeSegmentsFrom : ℕ → List (List Segment) → List Segment
  | _, [] => []
  | idOffset, segments :: files =>
    segments.map (renumberSegment idOffset) ++ mergeSegmentsFrom (idOffset + segments.length) files

/-- The segments of all files. -/
def mergeSegments (files : List (List Segment)) : List Segment := mergeSegmentsFrom 0 files

/-- The segments of all files, and the matrix and the graph of them. -/
def mergeParsedJsons (U : CharTable) (files : List (List Segment)) :
    Option (List Segment × Matrix × Dag) := do
  let segments := mergeSegments files
  let matrix ← buildMatrix U segments
  some (segments, matrix, buildDag segments matrix)

/-! ### Files one after the other -/

/-- The number of segments in some files. -/
def segmentCount (files : List (List Segment)) : ℕ := (files.map List.length).sum

theorem mergeSegmentsFrom_append (idOffset : ℕ) (files files' : List (List Segment)) :
    mergeSegmentsFrom idOffset (files ++ files')
      = mergeSegmentsFrom idOffset files
        ++ mergeSegmentsFrom (idOffset + segmentCount files) files' := by
  induction files generalizing idOffset with
  | nil => rfl
  | cons segments files ih =>
    rw [List.cons_append, mergeSegmentsFrom, mergeSegmentsFrom, ih, List.append_assoc, segmentCount,
      segmentCount, List.map_cons, List.sum_cons, Nat.add_assoc]

/-- A merged segment is one of a file, renumbered. -/
theorem mem_mergeSegmentsFrom {idOffset : ℕ} {files : List (List Segment)} {seg : Segment} :
    seg ∈ mergeSegmentsFrom idOffset files ↔
      ∃ before segments after, files = before ++ segments :: after ∧
        ∃ seg' ∈ segments, seg = renumberSegment (idOffset + segmentCount before) seg' := by
  induction files generalizing idOffset with
  | nil => simp [mergeSegmentsFrom]
  | cons segments files ih =>
    rw [mergeSegmentsFrom, List.mem_append, List.mem_map, ih]
    constructor
    · rintro (⟨seg', hseg', rfl⟩ | ⟨before, segments', after, rfl, seg', hseg', rfl⟩)
      · exact ⟨[], segments, files, rfl, seg', hseg', rfl⟩
      · refine ⟨segments :: before, segments', after, rfl, seg', hseg', ?_⟩
        rw [segmentCount, segmentCount, List.map_cons, List.sum_cons, Nat.add_assoc]
    · rintro ⟨before, segments', after, hfiles, seg', hseg', rfl⟩
      cases before with
      | nil =>
        obtain ⟨rfl, rfl⟩ := List.cons.inj hfiles
        exact Or.inl ⟨seg', hseg', rfl⟩
      | cons b before =>
        obtain ⟨rfl, rfl⟩ := List.cons.inj hfiles
        refine Or.inr ⟨before, segments', after, rfl, seg', hseg', ?_⟩
        rw [segmentCount, segmentCount, List.map_cons, List.sum_cons, Nat.add_assoc]

/-! ### Numbered files -/

/-- The segments have the numbers of their positions, and all but the first one come behind their
parents. -/
structure Numbered (segments : List Segment) : Prop where
  ids : segments.map Segment.id = List.range segments.length
  parents : ∀ seg ∈ segments, seg.parent ≤ seg.id ∧ (seg.parent = seg.id ↔ seg.id = 0)

namespace Numbered

variable {segments : List Segment} (h : Numbered segments)

include h

theorem id_lt {seg : Segment} (hseg : seg ∈ segments) : seg.id < segments.length := by
  rw [← List.mem_range, ← h.ids]
  exact List.mem_map_of_mem hseg

theorem parent_lt {seg : Segment} (hseg : seg ∈ segments) : seg.parent < segments.length :=
  lt_of_le_of_lt (h.parents seg hseg).1 (h.id_lt hseg)

theorem eq_of_id_eq {seg seg' : Segment} (hseg : seg ∈ segments) (hseg' : seg' ∈ segments)
    (hid : seg.id = seg'.id) : seg = seg' := by
  refine List.inj_on_of_nodup_map ?_ hseg hseg' hid
  rw [h.ids]
  exact List.nodup_range

end Numbered

section Merged

variable {files : List (List Segment)} (h : ∀ segments ∈ files, Numbered segments)

include h

theorem map_id_mergeSegmentsFrom (idOffset : ℕ) :
    (mergeSegmentsFrom idOffset files).map Segment.id
      = List.range' idOffset (segmentCount files) := by
  induction files generalizing idOffset with
  | nil => rfl
  | cons segments files ih =>
    have hfirst : (segments.map (renumberSegment idOffset)).map Segment.id
        = List.range' idOffset segments.length := by
      have hcomp : Segment.id ∘ renumberSegment idOffset = (idOffset + ·) ∘ Segment.id := by
        funext seg
        exact Nat.add_comm _ _
      rw [List.map_map, hcomp, ← List.map_map, (h segments List.mem_cons_self).ids,
        List.range'_eq_map_range]
    rw [mergeSegmentsFrom, List.map_append, hfirst,
      ih (fun s hs => h s (List.mem_cons_of_mem _ hs)), segmentCount, segmentCount, List.map_cons,
      List.sum_cons, List.range'_append_1]

/-- **The merged segments are numbered** by their positions. -/
theorem map_id_mergeSegments :
    (mergeSegments files).map Segment.id = List.range (segmentCount files) := by
  rw [mergeSegments, map_id_mergeSegmentsFrom h, List.range_eq_range']

theorem nodup_mergeSegments : ((mergeSegments files).map Segment.id).Nodup := by
  rw [map_id_mergeSegments h]
  exact List.nodup_range

/-- **No merged segment is its own descendant.** -/
theorem acyclic_mergeSegments : Acyclic (mergeSegments files) := by
  refine ⟨fun id => segmentCount files - id, fun seg hseg _ hne => ?_⟩
  have hid : seg.id < segmentCount files := by
    rw [← List.mem_range, ← map_id_mergeSegments h]
    exact List.mem_map_of_mem hseg
  obtain ⟨before, segments, after, rfl, seg', hseg', rfl⟩ := mem_mergeSegmentsFrom.mp hseg
  have hle := ((h segments (by simp)).parents seg' hseg').1
  have hlt : seg'.parent < seg'.id := lt_of_le_of_ne hle fun heq => hne (by
    show seg'.parent + _ = seg'.id + _
    rw [heq])
  simp only [renumberSegment] at hid ⊢
  omega

/-- The numbers of merged segments and of their parents lie behind the files before. -/
theorem range_of_mem_mergeSegmentsFrom {idOffset : ℕ} {seg : Segment}
    (hseg : seg ∈ mergeSegmentsFrom idOffset files) :
    (idOffset ≤ seg.id ∧ seg.id < idOffset + segmentCount files) ∧
      idOffset ≤ seg.parent ∧ seg.parent < idOffset + segmentCount files := by
  obtain ⟨before, segments, after, rfl, seg', hseg', rfl⟩ := mem_mergeSegmentsFrom.mp hseg
  have hnumbered := h segments (by simp)
  have hid := hnumbered.id_lt hseg'
  have hparent := hnumbered.parent_lt hseg'
  have hcount : segmentCount (before ++ segments :: after)
      = segmentCount before + (segments.length + segmentCount after) := by
    rw [segmentCount, List.map_append, List.sum_append, List.map_cons, List.sum_cons]
    rfl
  simp only [renumberSegment, hcount]
  omega

end Merged

/-! ### One of the files -/

section OneFile

variable {before after : List (List Segment)} {segments : List Segment}
  (h : ∀ segs ∈ before ++ segments :: after, Numbered segs)

include h

/-- What belongs to one file among the merged segments. -/
theorem filter_mergeSegments {p : Segment → Bool} {i : ℕ} (hi : i < segments.length)
    (hp : ∀ seg, p seg → seg.id = segmentCount before + i ∨ seg.parent = segmentCount before + i) :
    (mergeSegments (before ++ segments :: after)).filter p
      = (segments.filter fun seg => p (renumberSegment (segmentCount before) seg)).map
          (renumberSegment (segmentCount before)) := by
  have hbefore : (mergeSegmentsFrom 0 before).filter p = [] := by
    refine List.filter_eq_nil_iff.mpr fun seg hseg hpseg => ?_
    have hrange := range_of_mem_mergeSegmentsFrom
      (fun segs hsegs => h segs (List.mem_append_left _ hsegs)) hseg
    rcases hp seg hpseg with heq | heq <;> omega
  have hafter : (mergeSegmentsFrom (0 + segmentCount before + segments.length) after).filter p
      = [] := by
    refine List.filter_eq_nil_iff.mpr fun seg hseg hpseg => ?_
    have hrange := range_of_mem_mergeSegmentsFrom
      (fun segs hsegs => h segs (List.mem_append_right _ (List.mem_cons_of_mem _ hsegs))) hseg
    rcases hp seg hpseg with heq | heq <;> omega
  rw [mergeSegments, mergeSegmentsFrom_append, mergeSegmentsFrom, List.filter_append,
    List.filter_append, hbefore, hafter, List.nil_append, List.append_nil, Nat.zero_add,
    List.filter_map]
  rfl

/-- **The children of a segment** are those in its file, renumbered. -/
theorem childrenOf_mergeSegments {i : ℕ} (hi : i < segments.length) :
    childrenOf (mergeSegments (before ++ segments :: after)) (segmentCount before + i)
      = (childrenOf segments i).map (segmentCount before + ·) := by
  have hnumbered : Numbered segments := h segments (by simp)
  rw [childrenOf, childrenOf, filter_mergeSegments h hi fun seg hseg => Or.inr (by
    have hall := of_decide_eq_true hseg
    exact hall.2.2),
    List.map_insertionSort (· ≤ ·) _ _ _ fun a _ b _ => (Nat.add_le_add_iff_left).symm,
    List.map_map, List.map_map]
  have hcomp : Segment.id ∘ renumberSegment (segmentCount before)
      = (segmentCount before + ·) ∘ Segment.id := by
    funext seg
    exact Nat.add_comm _ _
  rw [hcomp]
  congr 2
  refine List.filter_congr fun seg hseg => decide_eq_decide.mpr ?_
  have hparent := (hnumbered.parents seg hseg).2
  simp only [renumberSegment]
  omega

/-- Looking up a segment of one file among all. -/
theorem segById_mergeSegments {i : ℕ} (hi : i < segments.length) :
    segById (mergeSegments (before ++ segments :: after)) (segmentCount before + i)
      = (segById segments i).map (renumberSegment (segmentCount before)) := by
  have hfind : ∀ segs id, segById segs id
      = (segs.filter fun seg => decide (seg.id = id)).getLast? := by
    intro segs id
    rw [segById, ← List.head?_filter, List.filter_reverse, List.head?_reverse]
  rw [hfind, hfind, filter_mergeSegments h hi fun seg hseg => Or.inl (of_decide_eq_true hseg),
    List.getLast?_map]
  congr 2
  refine List.filter_congr fun seg _ => decide_eq_decide.mpr ?_
  simp only [renumberSegment]
  omega

end OneFile

/-! ### What the parser makes of a source -/

section Parsed

variable {U : CharTable} {P : SegmentStmts Char}

theorem numbered_buildSegments (hparents : ∀ i, 0 < i → P.parents.getD i 0 < i)
    (hroot : P.parents.getD 0 0 = 0) : Numbered (buildSegments U P) := by
  have hpairs := map_id_parent_buildSegments U P
  have hlen := (buildSegments_spec U P).1
  refine ⟨?_, fun seg hseg => ?_⟩
  · have hids := congrArg (List.map Prod.fst) hpairs
    rw [List.map_map, List.map_map] at hids
    rw [hlen]
    exact hids.trans (List.map_id _)
  · have hmem : (seg.id, seg.parent) ∈ (buildSegments U P).map fun seg => (seg.id, seg.parent) :=
      List.mem_map_of_mem hseg
    rw [hpairs, List.mem_map] at hmem
    obtain ⟨i, -, heq⟩ := hmem
    obtain ⟨hid, hparent⟩ := Prod.mk.inj heq
    rw [← hid, ← hparent]
    rcases Nat.eq_zero_or_pos i with rfl | hi
    · rw [hroot]
      exact ⟨Nat.le_refl 0, Iff.rfl⟩
    · have hlt := hparents i hi
      omega

/-- **The children of a parsed segment** are those that the parser knows. -/
theorem childrenOf_buildSegments (hroot : P.parents.getD 0 0 = 0)
    (hparents : ∀ i, 0 < i → P.parents.getD i 0 < i) (parent : ℕ) :
    childrenOf (buildSegments U P) parent = P.childrenOf parent := by
  have hfilter : ((buildSegments U P).filter fun seg =>
        seg.id ≠ 0 ∧ seg.parent ≠ seg.id ∧ seg.parent = parent).map Segment.id
      = P.childrenOf parent := by
    have hpairs : ((buildSegments U P).filter fun seg =>
          seg.id ≠ 0 ∧ seg.parent ≠ seg.id ∧ seg.parent = parent).map Segment.id
        = (((buildSegments U P).map fun seg => (seg.id, seg.parent)).filter fun p =>
          p.1 ≠ 0 ∧ p.2 ≠ p.1 ∧ p.2 = parent).map Prod.fst := by
      rw [List.filter_map, List.map_map]
      rfl
    rw [hpairs, map_id_parent_buildSegments, List.filter_map, List.map_map]
    refine (List.map_id _).trans (List.filter_congr fun i _ => decide_eq_decide.mpr ?_)
    constructor
    · rintro ⟨hne, -, hparent⟩
      exact ⟨Nat.pos_of_ne_zero hne, hparent⟩
    · rintro ⟨hpos, hparent⟩
      exact ⟨Nat.ne_of_gt hpos, Nat.ne_of_lt (hparents i hpos), hparent⟩
  rw [childrenOf, hfilter]
  refine List.Pairwise.insertionSort_eq ((List.pairwise_lt_range.filter _).imp ?_)
  exact fun h => Nat.le_of_lt h

theorem numbered_parseCFile {opts : Includes} {file : Text} {segs : List Segment}
    (h : parseCFile U opts file = some segs) : Numbered segs := by
  obtain ⟨P, hP, rfl⟩ := Option.map_eq_some_iff.mp h
  exact numbered_buildSegments (fun i hi => parents_lt_segmentStmts hP hi)
    ((parents_segmentStmts hP 0).mpr rfl)

theorem numbered_of_parsed {opts : Includes} {parsed : List (List Segment)}
    (hparsed : ∀ segs ∈ parsed, ∃ file, parseCFile U opts file = some segs) :
    ∀ segs ∈ parsed, Numbered segs := by
  intro segs hsegs
  obtain ⟨file, hfile⟩ := hparsed segs hsegs
  exact numbered_parseCFile hfile

end Parsed

end Csc512
