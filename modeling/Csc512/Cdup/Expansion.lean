import Csc512.Cdup.BlockText

/-!
# Statements with the bodies of their blocks

The parser leaves the two braces of a block in the statement that introduces it. The expansion of a
statement puts the body of the block back between them, and expands the statements of the body in
the same way.

## Main results

* `lowerWords_expand_eq` — equal filled normal forms have equal expansions
* `lowerWords_expandAll_eq` — so have equal normal forms of whole bodies
-/

namespace Csc512

namespace SegmentStmts

variable (P : SegmentStmts SourceGlyph) (parent : ℕ)

/-- The child whose braces are these two glyphs. -/
def blockAt (g h : SourceGlyph) : Option ℕ :=
  (P.childrenOf parent).find? fun i => P.placeholder i = [g, h]

/-- The children whose braces stand next to each other in a text, in order. -/
def marks : List SourceGlyph → List ℕ
  | g :: h :: s =>
    match P.blockAt parent g h with
    | some i => i :: marks s
    | none => marks (h :: s)
  | _ => []

/-- A text with the bodies of its blocks. -/
def expand (body : ℕ → Text) : List SourceGlyph → Text
  | g :: h :: s =>
    match P.blockAt parent g h with
    | some i => '{' :: ' ' :: (body i ++ ' ' :: '}' :: expand body s)
    | none => g.char :: expand body (h :: s)
  | [g] => [g.char]
  | [] => []

/-- The statements of a segment with the bodies of their blocks; `fuel` bounds the nesting. -/
def expandedStmts : ℕ → ℕ → List Text
  | 0, _ => []
  | fuel + 1, i =>
    (P.stmts.getD i []).map (P.expand i fun c => [' '].intercalate (expandedStmts fuel c))

end SegmentStmts

variable {P : SegmentStmts SourceGlyph} {parent : ℕ}

/-! ### Where the braces stand -/

theorem blockAt_eq_some {g h : SourceGlyph} {i : ℕ} (hi : P.blockAt parent g h = some i) :
    i ∈ P.childrenOf parent ∧ P.placeholder i = [g, h] :=
  ⟨List.mem_of_find?_eq_some hi, by simpa using List.find?_some hi⟩

theorem char_of_blockAt {g h : SourceGlyph} {i : ℕ} (hi : P.blockAt parent g h = some i) :
    (g.char = '{' ∧ g.place ≠ none) ∧ h.char = '}' ∧ h.place ≠ none := by
  obtain ⟨hg, hh⟩ := List.cons.inj (blockAt_eq_some hi).2
  obtain ⟨hh, -⟩ := List.cons.inj hh
  rw [← hg, ← hh]
  exact ⟨⟨rfl, Option.some_ne_none _⟩, rfl, Option.some_ne_none _⟩

theorem blockAt_eq_none_left {g : SourceGlyph} (hg : g.char ≠ '{' ∨ g.place = none)
    (h : SourceGlyph) : P.blockAt parent g h = none := by
  cases hi : P.blockAt parent g h with
  | none => rfl
  | some i =>
    obtain ⟨hopen, -⟩ := char_of_blockAt hi
    rcases hg with hg | hg
    · exact absurd hopen.1 hg
    · exact absurd hg hopen.2

theorem blockAt_eq_none_right {h : SourceGlyph} (hh : h.place = none) (g : SourceGlyph) :
    P.blockAt parent g h = none := by
  cases hi : P.blockAt parent g h with
  | none => rfl
  | some i => exact absurd hh (char_of_blockAt hi).2.2

theorem marks_block {g h : SourceGlyph} {i : ℕ} (hi : P.blockAt parent g h = some i)
    (s : List SourceGlyph) : P.marks parent (g :: h :: s) = i :: P.marks parent s := by
  rw [SegmentStmts.marks, hi]

theorem marks_glyph {g h : SourceGlyph} (hg : P.blockAt parent g h = none)
    (s : List SourceGlyph) : P.marks parent (g :: h :: s) = P.marks parent (h :: s) := by
  rw [SegmentStmts.marks, hg]

theorem expand_block {g h : SourceGlyph} {i : ℕ} (hi : P.blockAt parent g h = some i)
    (body : ℕ → Text) (s : List SourceGlyph) :
    P.expand parent body (g :: h :: s)
      = '{' :: ' ' :: (body i ++ ' ' :: '}' :: P.expand parent body s) := by
  rw [SegmentStmts.expand, hi]

theorem expand_glyph {g h : SourceGlyph} (hg : P.blockAt parent g h = none) (body : ℕ → Text)
    (s : List SourceGlyph) :
    P.expand parent body (g :: h :: s) = g.char :: P.expand parent body (h :: s) := by
  rw [SegmentStmts.expand, hg]

/-- Induction along the blocks of a text. -/
theorem marks_induction (P : SegmentStmts SourceGlyph) (parent : ℕ)
    {motive : List SourceGlyph → Prop} (nil : motive []) (single : ∀ g, motive [g])
    (block : ∀ g h s i, P.blockAt parent g h = some i → motive s → motive (g :: h :: s))
    (glyph : ∀ g h s, P.blockAt parent g h = none → motive (h :: s) → motive (g :: h :: s)) :
    ∀ s, motive s
  | [] => nil
  | [g] => single g
  | g :: h :: s =>
    match hi : P.blockAt parent g h with
    | some i => block g h s i hi (marks_induction P parent nil single block glyph s)
    | none => glyph g h s hi (marks_induction P parent nil single block glyph (h :: s))

theorem marks_cons {g : SourceGlyph} (hg : g.char ≠ '{' ∨ g.place = none) (s : List SourceGlyph) :
    P.marks parent (g :: s) = P.marks parent s := by
  cases s with
  | nil => rfl
  | cons h s => exact marks_glyph (blockAt_eq_none_left hg h) s

theorem expand_cons {g : SourceGlyph} (hg : g.char ≠ '{' ∨ g.place = none) (body : ℕ → Text)
    (s : List SourceGlyph) :
    P.expand parent body (g :: s) = g.char :: P.expand parent body s := by
  cases s with
  | nil => rfl
  | cons h s => exact expand_glyph (blockAt_eq_none_left hg h) body s

theorem expand_of_marks_eq_nil {s : List SourceGlyph} (hs : P.marks parent s = [])
    (body : ℕ → Text) : P.expand parent body s = text s := by
  induction s using marks_induction P parent with
  | nil => rfl
  | single g => rfl
  | block g h s i hi ih =>
    rw [marks_block hi] at hs
    cases hs
  | glyph g h s hi ih =>
    rw [marks_glyph hi] at hs
    rw [expand_glyph hi]
    exact congrArg (g.char :: ·) (ih hs)

/-- A text up to its first block. -/
theorem exists_of_marks_eq_cons {s : List SourceGlyph} {i : ℕ} {ms : List ℕ}
    (hs : P.marks parent s = i :: ms) (body : ℕ → Text) :
    ∃ (p : Text) (h : SourceGlyph) (r : List SourceGlyph), h.char = '}' ∧
      text s = p ++ '{' :: '}' :: text r ∧ P.marks parent (h :: r) = ms ∧
      P.expand parent body s
        = p ++ '{' :: ' ' :: (body i ++ ' ' :: P.expand parent body (h :: r)) := by
  induction s using marks_induction P parent with
  | nil => cases hs
  | single g => cases hs
  | block g h s j hj ih =>
    rw [marks_block hj] at hs
    obtain ⟨rfl, rfl⟩ := List.cons.inj hs
    obtain ⟨⟨hopen, -⟩, hclose, -⟩ := char_of_blockAt hj
    have hne : h.char ≠ '{' := by
      rw [hclose]
      decide
    refine ⟨[], h, s, hclose, ?_, marks_cons (Or.inl hne) s, ?_⟩
    · show g.char :: h.char :: text s = _
      rw [hopen, hclose]
      rfl
    · rw [expand_block hj, expand_cons (Or.inl hne), hclose]
      rfl
  | glyph g h s hg ih =>
    rw [marks_glyph hg] at hs
    obtain ⟨p, h', r, hclose, htext, hmarks, hexpand⟩ := ih hs
    refine ⟨g.char :: p, h', r, hclose, ?_, hmarks, ?_⟩
    · exact congrArg (g.char :: ·) htext
    · rw [expand_glyph hg]
      exact congrArg (g.char :: ·) hexpand

theorem holds_of_mem_marks {s : List SourceGlyph} {i : ℕ} (hi : i ∈ P.marks parent s) :
    i ∈ P.childrenOf parent ∧ P.Holds s i := by
  induction s using marks_induction P parent with
  | nil => cases hi
  | single g => cases hi
  | block g h s j hj ih =>
    rw [marks_block hj] at hi
    rcases List.mem_cons.mp hi with rfl | hi
    · obtain ⟨hmem, hplace⟩ := blockAt_eq_some hj
      refine ⟨hmem, [], s, ?_⟩
      rw [hplace]
      rfl
    · obtain ⟨hmem, hholds⟩ := ih hi
      exact ⟨hmem, hholds.trans ⟨[g, h], [], by simp⟩⟩
  | glyph g h s hg ih =>
    rw [marks_glyph hg] at hi
    obtain ⟨hmem, hholds⟩ := ih hi
    exact ⟨hmem, hholds.trans ⟨[g], [], by simp⟩⟩

/-- The blocks of a text come in order. -/
theorem pairwise_marks (hP : StmtsInOrder P) {s : List SourceGlyph}
    (hplaces : (places s).Pairwise (· < ·)) : (P.marks parent s).Pairwise (· < ·) := by
  induction s using marks_induction P parent with
  | nil => exact List.Pairwise.nil
  | single g => exact List.Pairwise.nil
  | block g h s i hi ih =>
    obtain ⟨hmem, hplace⟩ := blockAt_eq_some hi
    have hg : g.place = some ((P.pairs.getD (i - 1) (0, 0)).1 - 1) := by
      rw [← (List.cons.inj hplace).1]
    have hsplit : places (g :: h :: s)
        = ((P.pairs.getD (i - 1) (0, 0)).1 - 1) :: places (h :: s) := by
      rw [places, List.filterMap_cons, hg]
      rfl
    rw [hsplit] at hplaces
    obtain ⟨hlt, hrest⟩ := List.pairwise_cons.mp hplaces
    have hsub : (places s).Sublist (places (h :: s)) := (List.sublist_cons_self h s).filterMap _
    rw [marks_block hi]
    refine List.pairwise_cons.mpr ⟨fun j hj => ?_, ih (hrest.sublist hsub)⟩
    obtain ⟨hj, hholds⟩ := holds_of_mem_marks hj
    have hstart := hlt _ (hsub.mem hholds.mem_places)
    obtain ⟨hpos, hle, -⟩ := SegmentStmts.mem_childrenOf hmem
    obtain ⟨hpos', hle', -⟩ := SegmentStmts.mem_childrenOf hj
    by_contra hge
    rcases Nat.lt_or_eq_of_le (Nat.le_of_not_lt hge) with hgt | rfl
    · have hback := hP.start_lt hpos' hgt hle
      omega
    · omega
  | glyph g h s hg ih =>
    rw [marks_glyph hg]
    refine ih (hplaces.sublist ?_)
    exact (List.sublist_cons_self g (h :: s)).filterMap _

/-- **The statements show the children in order**, when each is shown by one. -/
theorem childrenOf_eq_flatMap_marks (hP : StmtsInOrder P)
    (hall : ∀ i ∈ P.childrenOf parent, ∃ s ∈ P.stmts.getD parent [], i ∈ P.marks parent s) :
    P.childrenOf parent = (P.stmts.getD parent []).flatMap (P.marks parent) := by
  have hplaces : ∀ s ∈ P.stmts.getD parent [], (places s).Pairwise (· < ·) := by
    intro s hs
    rw [List.getD_eq_getElem?_getD] at hs
    cases hget : P.stmts[parent]? with
    | none =>
      rw [hget] at hs
      cases hs
    | some stmts =>
      rw [hget] at hs
      have hflat := hP.placesInOrder stmts (List.mem_of_getElem? hget)
      exact hflat.sublist ((List.sublist_flatten_of_mem hs).filterMap _)
  have hsorted : ((P.stmts.getD parent []).flatMap (P.marks parent)).Pairwise (· < ·) := by
    rw [List.pairwise_flatMap]
    refine ⟨fun s hs => pairwise_marks hP (hplaces s hs), (hP.pairwise_holds parent).imp ?_⟩
    intro s s' hlt i hi i' hi'
    obtain ⟨hmem, hholds⟩ := holds_of_mem_marks hi
    obtain ⟨hmem', hholds'⟩ := holds_of_mem_marks hi'
    exact hlt i hmem i' hmem' hholds hholds'
  have hchildren := SegmentStmts.pairwise_childrenOf (P := P) parent
  have hperm : (P.childrenOf parent).Perm ((P.stmts.getD parent []).flatMap (P.marks parent)) := by
    rw [List.perm_ext_iff_of_nodup (hchildren.imp Nat.ne_of_lt) (hsorted.imp Nat.ne_of_lt)]
    intro i
    rw [List.mem_flatMap]
    exact ⟨hall i, fun ⟨s, _, hi⟩ => (holds_of_mem_marks hi).1⟩
  exact hperm.eq_of_pairwise (fun i j _ _ h h' => absurd h (by omega)) hchildren hsorted

/-! ### Texts in a row -/

theorem marks_append_space {g : SourceGlyph} (hg : g.place = none) (s t : List SourceGlyph) :
    P.marks parent (s ++ g :: t) = P.marks parent s ++ P.marks parent t := by
  induction s using marks_induction P parent with
  | nil => exact marks_cons (Or.inr hg) t
  | single h =>
    rw [List.singleton_append, marks_glyph (blockAt_eq_none_right hg h)]
    exact marks_cons (Or.inr hg) t
  | block h h' s i hi ih =>
    rw [List.cons_append, List.cons_append, marks_block hi, marks_block hi]
    exact congrArg (i :: ·) ih
  | glyph h h' s hi ih =>
    rw [List.cons_append, List.cons_append, marks_glyph hi, marks_glyph hi]
    exact ih

theorem expand_append_space {g : SourceGlyph} (hg : g.place = none) (body : ℕ → Text)
    (s t : List SourceGlyph) :
    P.expand parent body (s ++ g :: t)
      = P.expand parent body s ++ g.char :: P.expand parent body t := by
  induction s using marks_induction P parent with
  | nil => exact expand_cons (Or.inr hg) body t
  | single h =>
    rw [List.singleton_append, expand_glyph (blockAt_eq_none_right hg h)]
    exact congrArg (h.char :: ·) (expand_cons (Or.inr hg) body t)
  | block h h' s i hi ih =>
    rw [List.cons_append, List.cons_append, expand_block hi, expand_block hi]
    show '{' :: ' ' :: (body i ++ ' ' :: '}' :: P.expand parent body (s ++ g :: t)) = _
    rw [ih]
    simp only [List.append_assoc, List.cons_append]
  | glyph h h' s hi ih =>
    rw [List.cons_append, List.cons_append, expand_glyph hi, expand_glyph hi]
    exact congrArg (h.char :: ·) ih

/-- The statements of a segment as one text. -/
def joined (stmts : List (List SourceGlyph)) : List SourceGlyph :=
  [Glyph.ofChar ' '].intercalate stmts

theorem joined_cons (s : List SourceGlyph) {stmts : List (List SourceGlyph)} (h : stmts ≠ []) :
    joined (s :: stmts) = s ++ Glyph.ofChar ' ' :: joined stmts := by
  rw [joined, List.intercalate_cons_of_ne_nil h, List.append_assoc, List.singleton_append]
  rfl

theorem text_joined (stmts : List (List SourceGlyph)) :
    text (joined stmts) = [' '].intercalate (stmts.map text) := by
  induction stmts with
  | nil => rfl
  | cons s stmts ih =>
    cases stmts with
    | nil => rw [joined, List.intercalate_singleton, List.map_singleton, List.intercalate_singleton]
    | cons s' stmts =>
      rw [joined_cons s (by simp), text_append, List.map_cons, intercalate_cons (text s) (by simp),
        ← ih]
      rfl

theorem marks_joined (stmts : List (List SourceGlyph)) :
    P.marks parent (joined stmts) = stmts.flatMap (P.marks parent) := by
  induction stmts with
  | nil => rfl
  | cons s stmts ih =>
    cases stmts with
    | nil => rw [joined, List.intercalate_singleton, List.flatMap_singleton]
    | cons s' stmts =>
      rw [joined_cons s (by simp), marks_append_space rfl, ih]
      rfl

theorem expand_joined (body : ℕ → Text) (stmts : List (List SourceGlyph)) :
    P.expand parent body (joined stmts)
      = [' '].intercalate (stmts.map (P.expand parent body)) := by
  induction stmts with
  | nil => rfl
  | cons s stmts ih =>
    cases stmts with
    | nil => rw [joined, List.intercalate_singleton, List.map_singleton, List.intercalate_singleton]
    | cons s' stmts =>
      rw [joined_cons s (by simp), expand_append_space rfl, ih]
      exact (intercalate_cons (P.expand parent body s) (by simp)).symm

/-! ### Filled normal forms -/

section Forms

variable (U : CharTable)

/-- A text has at least as many placeholders as blocks. -/
theorem length_marks_le (s : List SourceGlyph) :
    (P.marks parent s).length ≤ countPlaceholders (normalizeStmt U (text s)) := by
  generalize hms : P.marks parent s = ms
  induction ms generalizing s with
  | nil => exact Nat.zero_le _
  | cons i ms ih =>
    obtain ⟨p, h, r, hclose, htext, hmarks, -⟩ := exists_of_marks_eq_cons hms fun _ => []
    obtain ⟨q, n, -, hn, hform⟩ := normalizeStmt_braces U p (text r)
    have hrest := ih (h :: r) hmarks
    rw [show text (h :: r) = '}' :: text r from congrArg (· :: text r) hclose, hn] at hrest
    rw [htext, hform, countPlaceholders_braces, List.length_cons]
    omega

/-- Every placeholder of the normal form is that of a block. -/
def AllMarked (P : SegmentStmts SourceGlyph) (parent : ℕ) (s : List SourceGlyph) : Prop :=
  countPlaceholders (normalizeStmt U (text s)) = (P.marks parent s).length

instance (P : SegmentStmts SourceGlyph) (parent : ℕ) (s : List SourceGlyph) :
    Decidable (AllMarked U P parent s) :=
  inferInstanceAs (Decidable (_ = _))

/-- The normal form of a text, filled with block types. -/
def filledForm (P : SegmentStmts SourceGlyph) (blockType : ℕ → ℕ) (parent : ℕ)
    (s : List SourceGlyph) : Text :=
  fillTags ((P.marks parent s).map blockType) (normalizeStmt U (text s))

variable {U}

/-- A filled normal form up to its first block. -/
theorem exists_of_filledForm {s : List SourceGlyph} (hs : AllMarked U P parent s) {i : ℕ}
    {ms : List ℕ} (hms : P.marks parent s = i :: ms) (blockType : ℕ → ℕ) (body : ℕ → Text) :
    ∃ (q p n : Text) (r : List SourceGlyph), P.marks parent r = ms ∧ AllMarked U P parent r ∧
      normalizeStmt U (p ++ ['{']) = q ++ ['{'] ∧ filledForm U P blockType parent r = '}' :: n ∧
      filledForm U P blockType parent s = q ++ blockTag (blockType i) ++ n ∧
      P.expand parent body s = p ++ '{' :: ' ' :: (body i ++ ' ' :: P.expand parent body r) := by
  obtain ⟨p, h, r, hclose, htext, hmarks, hexpand⟩ := exists_of_marks_eq_cons hms body
  obtain ⟨q, n, hq, hn, hform⟩ := normalizeStmt_braces U p (text r)
  have hr : text (h :: r) = '}' :: text r := congrArg (· :: text r) hclose
  have hle : (P.marks parent (h :: r)).length ≤ _ := length_marks_le U (h :: r)
  rw [AllMarked, htext, hform, countPlaceholders_braces, hms, List.length_cons] at hs
  rw [hmarks, hr, hn] at hle
  have hfill : ∀ ts, fillTags ts ('}' :: n) = '}' :: fillTags ts n :=
    fillTags_cons fun hopen => absurd hopen.1 (by decide)
  refine ⟨q, p, fillTags (ms.map blockType) n, h :: r, hmarks, ?_, hq, ?_, ?_, hexpand⟩
  · rw [AllMarked, hr, hn, hmarks]
    omega
  · rw [filledForm, hmarks, hr, hn, hfill]
  · rw [filledForm, hms, htext, hform, List.map_cons, fillTags_braces (by omega)]

/-- **Equal filled normal forms have equal expansions**, up to white space and case, if equal block
types stand for equal bodies. -/
theorem lowerWords_expand_eq (hlower : ∀ s, U.lower s = [] → s = [])
    {P' : SegmentStmts SourceGlyph} {parent' : ℕ} {blockType blockType' : ℕ → ℕ}
    {body body' : ℕ → Text} {s s' : List SourceGlyph} (hs : AllMarked U P parent s)
    (hs' : AllMarked U P' parent' s')
    (hform : filledForm U P blockType parent s = filledForm U P' blockType' parent' s')
    (hbody : ∀ i ∈ P.marks parent s, ∀ i' ∈ P'.marks parent' s', blockType i = blockType' i' →
      lowerWords U (body i) = lowerWords U (body' i')) :
    lowerWords U (P.expand parent body s) = lowerWords U (P'.expand parent' body' s') := by
  generalize hms : P.marks parent s = ms at hbody
  induction ms generalizing s s' with
  | nil =>
    have hplain : filledForm U P blockType parent s = normalizeStmt U (text s) := by
      rw [filledForm, hms, List.map_nil, fillTags_nil]
    cases hms' : P'.marks parent' s' with
    | nil =>
      have hplain' : filledForm U P' blockType' parent' s' = normalizeStmt U (text s') := by
        rw [filledForm, hms', List.map_nil, fillTags_nil]
      rw [expand_of_marks_eq_nil hms, expand_of_marks_eq_nil hms']
      exact lowerWords_eq_of_normalizeStmt_eq U hlower
        (hplain.symm.trans (hform.trans hplain'))
    | cons i' ms' =>
      obtain ⟨q, p, n, r, -, -, -, -, hfilled, -⟩ :=
        exists_of_filledForm hs' hms' blockType' body'
      exact absurd (hplain.symm.trans (hform.trans hfilled)) (normalizeStmt_ne_blockTag U _ _ _ _)
  | cons i ms ih =>
    obtain ⟨q, p, n, r, hmarks, hr, hq, hrest, hfilled, hexpand⟩ :=
      exists_of_filledForm hs hms blockType body
    cases hms' : P'.marks parent' s' with
    | nil =>
      have hplain' : filledForm U P' blockType' parent' s' = normalizeStmt U (text s') := by
        rw [filledForm, hms', List.map_nil, fillTags_nil]
      exact absurd (hplain'.symm.trans (hform.symm.trans hfilled))
        (normalizeStmt_ne_blockTag U _ _ _ _)
    | cons i' ms' =>
      obtain ⟨q', p', n', r', hmarks', hr', hq', hrest', hfilled', hexpand'⟩ :=
        exists_of_filledForm hs' hms' blockType' body'
      rw [hfilled, hfilled'] at hform
      have hupper : ∀ q p, normalizeStmt U (p ++ ['{']) = q ++ ['{'] → ∀ c ∈ q, ¬ c.isUpper := by
        intro q p hq c hc
        refine not_isUpper_of_mem_normalizeStmt U (s := p ++ ['{']) ?_
        rw [hq]
        exact List.mem_append_left _ hc
      obtain ⟨rfl, htype, rfl⟩ :=
        eq_of_append_blockTag (hupper q p hq) (hupper q' p' hq') hform
      have hhead : lowerWords U (p ++ ['{']) = lowerWords U (p' ++ ['{']) :=
        lowerWords_eq_of_normalizeStmt_eq U hlower (hq.trans hq'.symm)
      rw [hms'] at hbody
      have hblock := hbody i List.mem_cons_self i' List.mem_cons_self htype
      have htail := ih hr hr' (hrest.trans hrest'.symm) hmarks
        fun j hj j' hj' => hbody j (List.mem_cons_of_mem _ hj) j'
          (List.mem_cons_of_mem _ (hmarks' ▸ hj'))
      have hsplit : ∀ (p b e : Text), lowerWords U (p ++ '{' :: ' ' :: (b ++ ' ' :: e))
          = lowerWords U (p ++ ['{']) ++ (lowerWords U b ++ lowerWords U e) := by
        intro p b e
        rw [← lowerWords_append_cons U (c := ' ') (by decide),
          ← lowerWords_append_cons U (c := ' ') (by decide), List.append_assoc]
        rfl
      rw [hexpand, hexpand', hsplit, hsplit, hhead, hblock, htail]

theorem lowerWords_ne_nil {s : List SourceGlyph} (h : HasInk s) :
    lowerWords U (text s) ≠ [] := by
  obtain ⟨c, hc, hink⟩ := h
  obtain ⟨a, b, rfl⟩ := List.append_of_mem hc
  obtain ⟨ws, u, -, happend⟩ := splitOnP_append isSpace (text a)
  obtain ⟨v, vs, hb⟩ := List.exists_cons_of_ne_nil (List.splitOnP_ne_nil isSpace (text b))
  have hcons : (Glyph.char c :: text b).splitOnP isSpace = (Glyph.char c :: v) :: vs := by
    rw [List.splitOnP_cons_eq_if_modifyHead, if_neg hink, hb, List.modifyHead_cons]
  have hsplit : (text (a ++ c :: b)).splitOnP isSpace = ws ++ (u ++ Glyph.char c :: v) :: vs := by
    rw [text_append]
    exact happend _ _ _ hcons
  rw [lowerWords, words]
  simp only [Glyph.char_self]
  rw [hsplit, List.filter_append, List.filter_cons_of_pos (by simp), List.map_append]
  simp

/-- The filled normal form of the statements of a segment, as one text. -/
theorem filledForm_joined (blockType : ℕ → ℕ) {stmts : List (List SourceGlyph)}
    (hink : ∀ s ∈ stmts, HasInk s) (hmarked : ∀ s ∈ stmts, AllMarked U P parent s) :
    AllMarked U P parent (joined stmts) ∧ filledForm U P blockType parent (joined stmts)
      = [' '].intercalate (stmts.map (filledForm U P blockType parent)) := by
  have hform : ∀ stmts : List (List SourceGlyph), (∀ s ∈ stmts, HasInk s) →
      normalizeStmt U (text (joined stmts))
        = [' '].intercalate (stmts.map fun s => normalizeStmt U (text s)) := by
    intro stmts hink
    rw [text_joined, normalizeStmt_intercalate, List.map_map]
    · rfl
    · intro x hx
      obtain ⟨s, hs, rfl⟩ := List.mem_map.mp hx
      exact lowerWords_ne_nil (hink s hs)
  rw [AllMarked, filledForm, hform stmts hink, marks_joined]
  clear hform
  induction stmts with
  | nil => exact ⟨rfl, rfl⟩
  | cons s stmts ih =>
    obtain ⟨hs, hmarked⟩ := List.forall_mem_cons.mp hmarked
    obtain ⟨hcount, hfill⟩ := ih (fun t ht => hink t (List.mem_cons_of_mem _ ht)) hmarked
    cases stmts with
    | nil =>
      simp only [List.map_cons, List.map_nil, List.intercalate_singleton, List.flatMap_cons,
        List.flatMap_nil, List.append_nil]
      exact ⟨hs, rfl⟩
    | cons s' stmts =>
      have hlen : countPlaceholders (normalizeStmt U (text s))
          = ((P.marks parent s).map blockType).length := hs.trans (List.length_map _).symm
      rw [List.map_cons, intercalate_cons _ (by simp), List.flatMap_cons, List.map_append,
        countPlaceholders_append_space, fillTags_append_space hlen, hcount, hfill, hs,
        List.length_append]
      exact ⟨rfl, (intercalate_cons _ (by simp)).symm⟩

/-- **Equal normal forms of whole bodies** have equal expansions. -/
theorem lowerWords_expandAll_eq (hlower : ∀ s, U.lower s = [] → s = [])
    {P' : SegmentStmts SourceGlyph} {parent' : ℕ} {blockType blockType' : ℕ → ℕ}
    {body body' : ℕ → Text} {stmts stmts' : List (List SourceGlyph)}
    (hink : ∀ s ∈ stmts, HasInk s) (hink' : ∀ s ∈ stmts', HasInk s)
    (hmarked : ∀ s ∈ stmts, AllMarked U P parent s)
    (hmarked' : ∀ s ∈ stmts', AllMarked U P' parent' s)
    (hform : [' '].intercalate (stmts.map (filledForm U P blockType parent))
      = [' '].intercalate (stmts'.map (filledForm U P' blockType' parent')))
    (hbody : ∀ i ∈ stmts.flatMap (P.marks parent), ∀ i' ∈ stmts'.flatMap (P'.marks parent'),
      blockType i = blockType' i' → lowerWords U (body i) = lowerWords U (body' i')) :
    lowerWords U ([' '].intercalate (stmts.map (P.expand parent body)))
      = lowerWords U ([' '].intercalate (stmts'.map (P'.expand parent' body'))) := by
  obtain ⟨hall, hfilled⟩ := filledForm_joined blockType hink hmarked
  obtain ⟨hall', hfilled'⟩ := filledForm_joined blockType' hink' hmarked'
  rw [← hfilled, ← hfilled'] at hform
  rw [← marks_joined, ← marks_joined] at hbody
  rw [← expand_joined, ← expand_joined]
  exact lowerWords_expand_eq hlower hall hall' hform hbody

end Forms

end Csc512
