import Csc512.Cdup.ParseFile
import Csc512.Cdup.SourcePlaces

/-!
# Which header a segment gets

The parser gives the `i`-th child of a segment the `i`-th statement that shows a placeholder, and a
statement shows one wherever its text contains `{}`. The header that a segment should have is the
statement in which its own placeholder stands, the two braces around the segment in the source.

## Main results

* `childrenOf_eq_flatMap` — statements hold the children of a segment in order
* `hasOwnHead_iff` — the exact condition under which all segments have their own headers
-/

namespace Csc512

namespace SegmentStmts

variable (P : SegmentStmts SourceGlyph)

/-- The placeholder of a segment: the braces around it. -/
def placeholder (i : ℕ) : List SourceGlyph :=
  let span := P.pairs.getD (i - 1) (0, 0)
  [⟨'{', some (span.1 - 1)⟩, ⟨'}', some span.2⟩]

/-- Does the placeholder of segment `i` stand in a statement? -/
def Holds (stmt : List SourceGlyph) (i : ℕ) : Prop := P.placeholder i <:+: stmt

instance (stmt : List SourceGlyph) (i : ℕ) : Decidable (P.Holds stmt i) :=
  inferInstanceAs (Decidable (P.placeholder i <:+: stmt))

/-- The children whose placeholders stand in a statement. -/
def heldBy (parent : ℕ) (stmt : List SourceGlyph) : List ℕ :=
  (P.childrenOf parent).filter fun i => P.Holds stmt i

end SegmentStmts

/-! ### Statements hold the children of a segment in order -/

/-- A sorted list, distributed over boxes that are in order, is what the boxes hold one after the
other. -/
theorem eq_flatMap_filter {ι : Type*} (Holds : ι → ℕ → Prop) [∀ b i, Decidable (Holds b i)]
    {items : List ℕ} {boxes : List ι} (hitems : items.Pairwise (· < ·))
    (hboxes : boxes.Pairwise fun b b' => ∀ i i', Holds b i → Holds b' i' → i < i')
    (hall : ∀ i ∈ items, ∃ b ∈ boxes, Holds b i) :
    items = boxes.flatMap fun b => items.filter fun i => Holds b i := by
  have hsorted : (boxes.flatMap fun b => items.filter fun i => Holds b i).Pairwise (· < ·) := by
    rw [List.pairwise_flatMap]
    refine ⟨fun b _ => hitems.filter _, hboxes.imp ?_⟩
    intro b b' h i hi i' hi'
    simp only [List.mem_filter, decide_eq_true_eq] at hi hi'
    exact h i i' hi.2 hi'.2
  have hperm : items.Perm (boxes.flatMap fun b => items.filter fun i => Holds b i) := by
    rw [List.perm_ext_iff_of_nodup (hitems.imp Nat.ne_of_lt) (hsorted.imp Nat.ne_of_lt)]
    intro i
    simp only [List.mem_flatMap, List.mem_filter, decide_eq_true_eq]
    exact ⟨fun hi => (hall i hi).imp fun b hb => ⟨hb.1, hi, hb.2⟩, fun ⟨_, _, hi, _⟩ => hi⟩
  exact hperm.eq_of_pairwise (fun i j _ _ h h' => absurd h (by omega)) hitems hsorted

namespace SegmentStmts

variable {P : SegmentStmts SourceGlyph}

theorem Holds.mem_places {stmt : List SourceGlyph} {i : ℕ} (h : P.Holds stmt i) :
    (P.pairs.getD (i - 1) (0, 0)).1 - 1 ∈ places stmt := by
  rw [places, List.mem_filterMap]
  exact ⟨_, h.subset List.mem_cons_self, rfl⟩

theorem mem_childrenOf {i parent : ℕ} (h : i ∈ P.childrenOf parent) :
    0 < i ∧ i < P.stmts.length ∧ P.parents.getD i 0 = parent := by
  simpa [childrenOf, and_comm, and_assoc, and_left_comm] using h

theorem pairwise_childrenOf (parent : ℕ) : (P.childrenOf parent).Pairwise (· < ·) :=
  List.pairwise_lt_range.filter _

end SegmentStmts

namespace StmtsInOrder

open SegmentStmts

variable {P : SegmentStmts SourceGlyph} (h : StmtsInOrder P)

include h

/-- The placeholders stand in the order of the segments. -/
theorem start_lt {i j : ℕ} (hi : 0 < i) (hij : i < j) (hj : j < P.stmts.length) :
    (P.pairs.getD (i - 1) (0, 0)).1 - 1 < (P.pairs.getD (j - 1) (0, 0)).1 - 1 := by
  have hlen := h.length_stmts
  have hi' : i - 1 < P.pairs.length := by omega
  have hj' : j - 1 < P.pairs.length := by omega
  have hlt := List.pairwise_iff_getElem.mp h.starts (i - 1) (j - 1) (by simpa) (by simpa) (by omega)
  have hpos := h.start_pos _ (List.getElem_mem hi')
  rw [List.getElem_map, List.getElem_map] at hlt
  simp only [List.getD_eq_getElem?_getD, List.getElem?_eq_getElem, hi', hj', Option.getD_some]
  omega

/-- The children that one statement holds come before those of a later one. -/
theorem pairwise_holds (parent : ℕ) :
    (P.stmts.getD parent []).Pairwise fun s s' => ∀ i ∈ P.childrenOf parent,
      ∀ i' ∈ P.childrenOf parent, P.Holds s i → P.Holds s' i' → i < i' := by
  have hplaces : (places (P.stmts.getD parent []).flatten).Pairwise (· < ·) := by
    rw [List.getD_eq_getElem?_getD]
    cases hget : P.stmts[parent]? with
    | none => exact List.Pairwise.nil
    | some stmts => exact h.placesInOrder stmts (List.mem_of_getElem? hget)
  rw [places, List.filterMap_flatten, List.pairwise_flatten, List.pairwise_map] at hplaces
  refine hplaces.2.imp ?_
  intro s s' hlt i hi i' hi' hs hs'
  obtain ⟨hpos, -, -⟩ := SegmentStmts.mem_childrenOf hi
  obtain ⟨hpos', hle', -⟩ := SegmentStmts.mem_childrenOf hi'
  have hstart := hlt _ hs.mem_places _ hs'.mem_places
  rcases Nat.lt_trichotomy i i' with hlt' | rfl | hgt
  · exact hlt'
  · exact absurd hstart (lt_irrefl _)
  · have hback := h.start_lt hpos' hgt (SegmentStmts.mem_childrenOf hi).2.1
    omega

/-- Two statements of a segment that hold the same child are the same. -/
theorem holds_unique {parent i : ℕ} (hi : i ∈ P.childrenOf parent) {s s' : List SourceGlyph}
    (hs : s ∈ P.stmts.getD parent []) (hs' : s' ∈ P.stmts.getD parent []) (hold : P.Holds s i)
    (hold' : P.Holds s' i) : s = s' := by
  obtain ⟨k, hk, rfl⟩ := List.mem_iff_getElem.mp hs
  obtain ⟨k', hk', rfl⟩ := List.mem_iff_getElem.mp hs'
  have hpair := List.pairwise_iff_getElem.mp (h.pairwise_holds parent)
  rcases Nat.lt_trichotomy k k' with hlt | rfl | hgt
  · exact absurd (hpair k k' hk hk' hlt i hi i hi hold hold') (lt_irrefl i)
  · rfl
  · exact absurd (hpair k' k hk' hk hgt i hi i hi hold' hold) (lt_irrefl i)

/-- The statements of a segment hold its children in order, when each stands in one. -/
theorem childrenOf_eq_flatMap (parent : ℕ)
    (hall : ∀ i ∈ P.childrenOf parent, ∃ s ∈ P.stmts.getD parent [], P.Holds s i) :
    P.childrenOf parent = (P.stmts.getD parent []).flatMap (P.heldBy parent) := by
  have hboxes := h.pairwise_holds parent
  have heq := eq_flatMap_filter (fun s i => i ∈ P.childrenOf parent ∧ P.Holds s i)
    (pairwise_childrenOf parent)
    (hboxes.imp fun hlt i i' hi hi' => hlt i hi.1 i' hi'.1 hi.2 hi'.2)
    (fun i hi => (hall i hi).imp fun s hs => ⟨hs.1, hi, hs.2⟩)
  refine heq.trans (List.flatMap_congr fun s _ => ?_)
  rw [heldBy]
  refine List.filter_congr fun i hi => ?_
  simp [hi]

end StmtsInOrder

/-! ### Own headers -/

variable (U : CharTable)

/-- The head of a segment is the text `stmt`, and its type, its name and its parameters are taken
from it. The name of a `typedef` is found elsewhere. -/
structure HasHeader (P : SegmentStmts Char) (seg : Segment) (stmt : Text) : Prop where
  head : seg.head = some stmt
  type : seg.type = getSegType (some stmt)
  name : ∃ n, getSegName U seg.type (some stmt) n = seg.name ∨
    getSegName U seg.type (some stmt) n = lit "__typedef__"
  params : seg.type = .function →
    extractParams (some stmt) seg.scopePath (userTypes U P) (structFields U P) <+: seg.memory

/-- The header of a segment is the statement of its parent in which its placeholder stands. -/
def HasOwnHeader (P : SegmentStmts SourceGlyph) (seg : Segment) : Prop :=
  ∃ stmt ∈ P.stmts.getD seg.parent [], P.Holds stmt seg.id ∧ HasHeader U P.text seg (text stmt)

/-- Every child of a segment has its placeholder in a statement; and the texts of the statements
with placeholders of children, each as often as it has one, are the first of the texts of the
statements that contain `{}`. -/
def HeadersLineUp (P : SegmentStmts SourceGlyph) (parent : ℕ) : Prop :=
  let stmts := P.stmts.getD parent []
  (∀ i ∈ P.childrenOf parent, ∃ stmt ∈ stmts, P.Holds stmt i) ∧
    (stmts.flatMap fun stmt => (P.heldBy parent stmt).map fun _ => text stmt) <+:
      (stmts.map text).filter (contains (lit "{}"))

instance (P : SegmentStmts SourceGlyph) (parent : ℕ) : Decidable (HeadersLineUp P parent) :=
  inferInstanceAs (Decidable ((∀ i ∈ P.childrenOf parent,
      ∃ stmt ∈ P.stmts.getD parent [], P.Holds stmt i) ∧
    ((P.stmts.getD parent []).flatMap fun stmt => (P.heldBy parent stmt).map fun _ => text stmt) <+:
      ((P.stmts.getD parent []).map text).filter (contains (lit "{}"))))

variable {U}

theorem hasHeader_buildSegment {P : SegmentStmts Char} {i : ℕ} {segments : List Segment}
    {stmt : Text} (hi : i < P.stmts.length) (hstmt : P.header i = some stmt) :
    HasHeader U P (buildSegment U P i segments) stmt := by
  have htype : (buildSegment U P i segments).type = getSegType (some stmt) := by
    rw [← hstmt]
    rfl
  refine ⟨hstmt, htype, ?_, ?_⟩
  · have hty : (segTypes P).getD i .root = getSegType (some stmt) := by
      simp [segTypes, List.getD_eq_getElem?_getD, hi, hstmt]
    obtain ⟨n, hfirst⟩ : ∃ n, (firstNames U P)[i]?
        = some (getSegName U (getSegType (some stmt)) (some stmt) n) := by
      rw [firstNames, List.getElem?_map, List.getElem?_range hi, Option.map_some, hty, hstmt]
      exact ⟨_, rfl⟩
    refine ⟨n, ?_⟩
    rw [htype]
    by_cases htypedef : getSegName U (getSegType (some stmt)) (some stmt) n = lit "__typedef__"
    · exact Or.inr htypedef
    · left
      show _ = (segNames U P).getD i []
      simp [segNames, List.getD_eq_getElem?_getD, hfirst, htypedef]
  · intro hfun
    rw [htype] at hfun
    refine ⟨extractMemory U (userTypes U P) (P.stmts.getD i [])
      (buildScopePath (segNames U P) P.parents i) (structFields U P), ?_⟩
    simp only [buildSegment, hstmt, hfun, if_true]

theorem childrenOf_text (P : SegmentStmts SourceGlyph) (parent : ℕ) :
    P.text.childrenOf parent = P.childrenOf parent := by
  simp [SegmentStmts.childrenOf, SegmentStmts.text]

theorem getD_stmts_text (P : SegmentStmts SourceGlyph) (parent : ℕ) :
    P.text.stmts.getD parent [] = (P.stmts.getD parent []).map text := by
  simp only [SegmentStmts.text, List.getD_eq_getElem?_getD, List.getElem?_map]
  cases P.stmts[parent]? <;> rfl

theorem blockStmts_text (P : SegmentStmts SourceGlyph) (parent : ℕ) :
    P.text.blockStmts parent = (P.blockStmts parent).map text := by
  rw [SegmentStmts.blockStmts, SegmentStmts.blockStmts, getD_stmts_text, List.filter_map]
  simp [Function.comp_def]

/-- The parser does not look at the places of the characters. -/
theorem buildSegments_of_parse {opts : Includes} {file : Text} {segs : List Segment}
    (hparse : parseCFile U opts file = some segs) {P : SegmentStmts SourceGlyph}
    (hP : segmentStmts opts (placed file) = some P) : buildSegments U P.text = segs := by
  have htext := segmentStmts_text opts (placed file)
  rw [text_placed, hP] at htext
  rw [parseCFile, htext] at hparse
  exact Option.some.inj hparse

/-- The head of a child is found by its number among the children. -/
theorem header_eq {P : SegmentStmts SourceGlyph} {parent i : ℕ} (hi : i ∈ P.childrenOf parent) :
    P.text.header i
      = ((P.blockStmts parent).map text)[(P.childrenOf parent).idxOf i]? := by
  obtain ⟨hpos, -, hparent⟩ := SegmentStmts.mem_childrenOf hi
  have hparent' : P.text.parents.getD i 0 = parent := hparent
  rw [SegmentStmts.header, if_neg (Nat.ne_of_gt hpos), hparent']
  show (P.text.blockStmts parent)[(P.text.childrenOf parent).idxOf i]? = _
  rw [childrenOf_text, blockStmts_text]

theorem filter_map_text (P : SegmentStmts SourceGlyph) (parent : ℕ) :
    ((P.stmts.getD parent []).map text).filter (contains (lit "{}"))
      = (P.blockStmts parent).map text :=
  List.filter_map

section LineUp

variable {P : SegmentStmts SourceGlyph} (hP : InOrder P) {parent : ℕ}
  (hall : ∀ i ∈ P.childrenOf parent, ∃ stmt ∈ P.stmts.getD parent [], P.Holds stmt i)

include hP hall

/-- Child number `j` stands in a statement with text number `j` of those that line up. -/
theorem held_getElem? {j i : ℕ} (hi : (P.childrenOf parent)[j]? = some i) :
    ∃ stmt ∈ P.stmts.getD parent [], P.Holds stmt i ∧
      ((P.stmts.getD parent []).flatMap fun stmt =>
        (P.heldBy parent stmt).map fun _ => text stmt)[j]? = some (text stmt) := by
  let held := (P.stmts.getD parent []).flatMap fun stmt =>
    (P.heldBy parent stmt).map fun i => (i, text stmt)
  have hfst : held.map Prod.fst = P.childrenOf parent := by
    rw [hP.childrenOf_eq_flatMap parent hall, List.map_flatMap]
    refine List.flatMap_congr fun stmt _ => ?_
    rw [List.map_map]
    exact List.map_id _
  have hsnd : held.map Prod.snd = (P.stmts.getD parent []).flatMap fun stmt =>
      (P.heldBy parent stmt).map fun _ => text stmt := by
    rw [List.map_flatMap]
    refine List.flatMap_congr fun stmt _ => ?_
    rw [List.map_map]
    rfl
  rw [← hfst, List.getElem?_map, Option.map_eq_some_iff] at hi
  obtain ⟨⟨i, x⟩, hx, rfl⟩ := hi
  obtain ⟨stmt, hstmt, hmem⟩ := List.mem_flatMap.mp (List.mem_of_getElem? hx)
  obtain ⟨k, hk, heq⟩ := List.mem_map.mp hmem
  obtain ⟨rfl, rfl⟩ := Prod.mk.inj heq
  refine ⟨stmt, hstmt, by simpa using (List.mem_filter.mp hk).2, ?_⟩
  rw [← hsnd, List.getElem?_map, hx]
  rfl

theorem length_held : ((P.stmts.getD parent []).flatMap fun stmt =>
    (P.heldBy parent stmt).map fun _ => text stmt).length = (P.childrenOf parent).length := by
  conv_rhs => rw [hP.childrenOf_eq_flatMap parent hall]
  rw [List.length_flatMap, List.length_flatMap]
  simp

end LineUp

/-- **Header attribution, exactly.** In a source with balanced braces every segment has its own
header if and only if the headers of all segments line up. -/
theorem hasOwnHeader_iff (opts : Includes) (file : Text)
    (hbalanced : Balanced (braceMarks (scanBrackets file))) {segs : List Segment}
    (hparse : parseCFile U opts file = some segs) {P : SegmentStmts SourceGlyph}
    (hP : segmentStmts opts (placed file) = some P) :
    (∀ seg ∈ segs, seg.id ≠ 0 → HasOwnHeader U P seg) ↔
      ∀ parent < P.stmts.length, HeadersLineUp P parent := by
  have horder := inOrder_segmentStmts hbalanced hP
  obtain rfl := buildSegments_of_parse hparse hP
  obtain ⟨hlen, hbuild⟩ := buildSegments_spec U P.text
  have hlen' : P.text.stmts.length = P.stmts.length := List.length_map _
  constructor
  · intro hown parent _
    -- what the segment of a child says about its header
    have hchild : ∀ i ∈ P.childrenOf parent, ∃ stmt ∈ P.stmts.getD parent [], P.Holds stmt i ∧
        P.text.header i = some (text stmt) := by
      intro i hi
      obtain ⟨hpos, hlt, hparent⟩ := SegmentStmts.mem_childrenOf hi
      have hseg := List.getElem?_eq_getElem (l := buildSegments U P.text) (i := i) (by omega)
      obtain ⟨segments, hbuilt⟩ := hbuild i _ hseg
      obtain ⟨stmt, hstmt, hholds, hhead⟩ := hown _ (List.mem_of_getElem? hseg) (by
        rw [hbuilt]
        exact Nat.ne_of_gt hpos)
      rw [hbuilt] at hstmt hholds hhead
      have hparent' : P.stmts.getD (P.parents.getD i 0) [] = P.stmts.getD parent [] := by
        rw [hparent]
      exact ⟨stmt, hparent' ▸ hstmt, hholds, hhead.head⟩
    have hall : ∀ i ∈ P.childrenOf parent, ∃ stmt ∈ P.stmts.getD parent [], P.Holds stmt i :=
      fun i hi => (hchild i hi).imp fun stmt h => ⟨h.1, h.2.1⟩
    refine ⟨hall, List.prefix_iff_getElem?.mpr fun j hj => ?_⟩
    rw [length_held horder hall] at hj
    have hi := List.getElem?_eq_getElem hj
    obtain ⟨stmt, hstmt, hholds, hget⟩ := held_getElem? horder hall hi
    obtain ⟨stmt', hstmt', hholds', hhead⟩ := hchild _ (List.getElem_mem hj)
    have hnodup : (P.childrenOf parent).Nodup :=
      (SegmentStmts.pairwise_childrenOf parent).imp Nat.ne_of_lt
    rw [header_eq (List.getElem_mem hj), ← filter_map_text, hnodup.idxOf_getElem] at hhead
    obtain rfl := horder.holds_unique (List.getElem_mem hj) hstmt hstmt' hholds hholds'
    rw [hhead, ← hget, List.getElem?_eq_getElem]
  · intro hline seg hseg hne
    obtain ⟨i, hget⟩ := List.mem_iff_getElem?.mp hseg
    obtain ⟨segments, rfl⟩ := hbuild i seg hget
    have hi : i < P.stmts.length := by
      have hlt := (List.getElem?_eq_some_iff.mp hget).1
      omega
    have hmem : i ∈ P.childrenOf (P.parents.getD i 0) := by
      simp only [SegmentStmts.childrenOf, List.mem_filter, List.mem_range, decide_eq_true_eq]
      exact ⟨hi, Nat.pos_of_ne_zero hne, trivial⟩
    obtain ⟨hall, hprefix⟩ := hline (P.parents.getD i 0) (horder.parent_lt i)
    obtain ⟨stmt, hstmt, hholds, hheld⟩ := held_getElem? horder hall
      (List.getElem?_idxOf hmem)
    refine ⟨stmt, hstmt, hholds, hasHeader_buildSegment (by omega) ?_⟩
    rw [header_eq hmem, ← filter_map_text]
    obtain ⟨hlt, hheld⟩ := List.getElem?_eq_some_iff.mp hheld
    rw [List.prefix_iff_getElem?.mp hprefix _ hlt, hheld]

/-- A function with a branch, a loop and a placeholder in a literal behind them. -/
def branchesSource : Text :=
  lit "int f(int a) \x7b if (a) { a = 1; } while (a) { a = 0; } return g(\"{}\"); \x7d"

theorem hasOwnHeader_iff_branches : ∃ segs P, parseCFile .ascii {} branchesSource = some segs ∧
    segmentStmts {} (placed branchesSource) = some P ∧ segs.length = 4 ∧
    ∀ seg ∈ segs, seg.id ≠ 0 → HasOwnHeader .ascii P seg := by
  have hparse : (parseCFile .ascii {} branchesSource).any fun segs => segs.length = 4 := by
    decide +kernel
  have hplaced : (segmentStmts {} (placed branchesSource)).any fun P =>
      decide (∀ parent < P.stmts.length, HeadersLineUp P parent) := by decide +kernel
  obtain ⟨segs, hparse, hlength⟩ := (Option.any_eq_true _ _).mp hparse
  obtain ⟨P, hplaced, hline⟩ := (Option.any_eq_true _ _).mp hplaced
  refine ⟨segs, P, hparse, hplaced, of_decide_eq_true hlength, ?_⟩
  exact (hasOwnHeader_iff {} branchesSource (by decide +kernel) hparse hplaced).mpr
    (of_decide_eq_true hline)

/-- A branch behind a placeholder in a literal. -/
def literalSource : Text := lit "void f(int a) \x7b g(\"{}\"); if (a) { h(); } \x7d"

/-- The branch gets the statement with the literal as its header. -/
theorem not_hasOwnHeader : ¬ ∀ (U : CharTable) (opts : Includes) (file : Text)
    (segs : List Segment) (P : SegmentStmts SourceGlyph),
    Balanced (braceMarks (scanBrackets file)) → parseCFile U opts file = some segs →
    segmentStmts opts (placed file) = some P →
    ∀ seg ∈ segs, seg.id ≠ 0 → HasOwnHeader U P seg := by
  intro h
  have hne : (parseCFile .ascii {} literalSource).any fun segs =>
      (segmentStmts {} (placed literalSource)).any fun P =>
        decide (∃ seg ∈ segs, seg.id ≠ 0 ∧ ∀ stmt ∈ P.stmts.getD seg.parent [],
          P.Holds stmt seg.id → seg.head ≠ some (text stmt)) := by decide +kernel
  obtain ⟨segs, hparse, hne⟩ := (Option.any_eq_true _ _).mp hne
  obtain ⟨P, hplaced, hne⟩ := (Option.any_eq_true _ _).mp hne
  obtain ⟨seg, hseg, hid, hhead⟩ := of_decide_eq_true hne
  obtain ⟨stmt, hstmt, hholds, hheader⟩ := h .ascii {} literalSource segs P (by decide +kernel)
    hparse hplaced seg hseg hid
  exact hhead stmt hstmt hholds hheader.head

end Csc512
