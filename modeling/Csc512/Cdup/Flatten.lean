import Csc512.Cdup.Normalize
import Csc512.Cdup.SegmentTree
import Csc512.Lib.Dict
import Mathlib.Data.List.Perm.Subperm
import Mathlib.Data.List.Sort

/-!
# Block types, and the flat list of statements

The first part of the clone detector. Every segment gets a block type: a number for the hash of
its statements, in which the placeholder of every child segment is replaced by the child's block
type. The statements of all segments then form one flat list, in normal form and with the block
types filled in, in which `none` separates the segments.

The hash function is a parameter. Looking up the block types recurses into the children; a segment
that is its own descendant makes that recursion endless, and `getBlockTypeId` fails.
-/

namespace Csc512

/-! ### The segment tree -/

/-- The ids of the child segments, in increasing order. -/
def childrenOf (segments : List Segment) (parent : ℕ) : List ℕ :=
  ((segments.filter fun seg => seg.id ≠ 0 ∧ seg.parent ≠ seg.id ∧ seg.parent = parent).map
    Segment.id).insertionSort (· ≤ ·)

/-! ### Block types -/

/-- The text that stands for a block of type `t`. -/
def blockTag (t : ℕ) : Text := lit "<BLOCK_TYPE_" ++ natText t ++ lit ">"

/-- The block types found so far, by segment and by hash. -/
structure BlockTypes where
  segHashes : Dict ℕ ℕ
  globalHashToId : Dict Text ℕ

/-- No block types yet. -/
def BlockTypes.empty : BlockTypes := ⟨Dict.empty, Dict.empty⟩

/-- The block type of a segment with the hash `h`: a new one, or that of an equal segment. -/
def BlockTypes.assign (T : BlockTypes) (segId : ℕ) (h : Text) : ℕ × BlockTypes :=
  let id := (T.globalHashToId.get? h).getD (T.globalHashToId.entries.length + 1)
  (id, ⟨T.segHashes.upsert segId fun _ => id, T.globalHashToId.upsert h fun _ => id⟩)

/-- Replace the first placeholders of a statement by the block types of the first children, and
return the children that are left. -/
def fillPlaceholders (blockType : ℕ → BlockTypes → Option (ℕ × BlockTypes)) (target : Text) :
    List ℕ → Text → BlockTypes → Option (Text × List ℕ × BlockTypes)
  | [], stmt, T => some (stmt, [], T)
  | c :: children, stmt, T =>
    if contains target stmt then do
      let (t, T) ← blockType c T
      fillPlaceholders blockType target children (replaceFirst target (blockTag t) stmt) T
    else some (stmt, c :: children, T)

variable (U : CharTable) (sha256 : Text → Text) (type2Norm : Bool)

/-- The normal form that is hashed, and the placeholder to look for in it. -/
def hashForm (raw : Text) : Text × Text :=
  if type2Norm then
    let stmt := normalizeStmtType2 U raw
    (stmt, if contains (lit "{ }") stmt then lit "{ }" else lit "{}")
  else (normalizeStmt U raw, lit "{}")

/-- The statements of a segment in the form in which they are hashed. -/
def hashedStmts (blockType : ℕ → BlockTypes → Option (ℕ × BlockTypes)) :
    List Statement → List ℕ → BlockTypes → Option (List Text × BlockTypes)
  | [], _, T => some ([], T)
  | stmt :: stmts, children, T => do
    let (form, target) := hashForm U type2Norm stmt.raw
    let (hashed, children, T) ← fillPlaceholders blockType target children form T
    let (rest, T) ← hashedStmts blockType stmts children T
    some (hashed :: rest, T)

/-- The block type of a segment. With as much fuel as there are segments it only fails where the
recursion of the source does not end. -/
def getBlockTypeId (segments : List Segment) : ℕ → ℕ → BlockTypes → Option (ℕ × BlockTypes)
  | 0, _, _ => none
  | fuel + 1, segId, T =>
    match T.segHashes.get? segId with
    | some t => some (t, T)
    | none => do
      let seg ← segById segments segId
      let (hashed, T) ← hashedStmts U type2Norm (getBlockTypeId segments fuel) seg.stmts
        (childrenOf segments segId) T
      some (T.assign segId (sha256 (List.intercalate [' '] hashed)))

/-- Look up the block types of some of the segments. -/
def blockTypesFrom (segments : List Segment) : List Segment → BlockTypes → Option BlockTypes
  | [], T => some T
  | seg :: segs, T => do
    let (_, T) ← getBlockTypeId U sha256 type2Norm segments (segments.length + 1) seg.id T
    blockTypesFrom segments segs T

/-- The block types of all segments. -/
def blockTypes (segments : List Segment) : Option BlockTypes :=
  blockTypesFrom U sha256 type2Norm segments segments BlockTypes.empty

/-! ### The flat list -/

/-- A statement in the flat list: its place, its normal form in the requested mode, and its Type I
normal form, both with the block types filled in. -/
structure FlatEntry where
  segId : ℕ
  stmtIdx : ℕ
  norm : Text
  norm1 : Text
deriving DecidableEq, Repr

/-- Replace the first placeholders of both normal forms of a statement by the block types of the
first children, and return the children that are left. -/
def flatForms (segHashes : Dict ℕ ℕ) :
    List ℕ → Text → Text → Option (Text × Text × List ℕ)
  | [], norm, norm1 => some (norm, norm1, [])
  | c :: children, norm, norm1 =>
    if contains (lit "{}") norm1 then do
      let t ← segHashes.get? c
      let filled1 := replaceFirst (lit "{}") (blockTag t) norm1
      let filled :=
        if type2Norm then
          if contains (lit "{ }") norm then replaceFirst (lit "{ }") (blockTag t) norm
          else replaceFirst (lit "{}") (blockTag t) norm
        else filled1
      flatForms segHashes children filled filled1
    else some (norm, norm1, c :: children)

/-- The entries of the statements of a segment, from statement number `idx` on. -/
def flatStmts (segHashes : Dict ℕ ℕ) (segId : ℕ) :
    ℕ → List Statement → List ℕ → Option (List FlatEntry)
  | _, [], _ => some []
  | idx, stmt :: stmts, children => do
    let norm1 := normalizeStmt U stmt.raw
    let norm := if type2Norm then normalizeStmtType2 U stmt.raw else norm1
    let (norm, norm1, children) ← flatForms type2Norm segHashes children norm norm1
    let rest ← flatStmts segHashes segId (idx + 1) stmts children
    some (⟨segId, idx, norm, norm1⟩ :: rest)

/-- The entries of some of the segments, with a separator behind each. -/
def flatSegments (segHashes : Dict ℕ ℕ) (segments : List Segment) :
    List Segment → Option (List (Option FlatEntry))
  | [] => some []
  | seg :: segs => do
    let entries ← flatStmts U type2Norm segHashes seg.id 0 seg.stmts (childrenOf segments seg.id)
    let rest ← flatSegments segHashes segments segs
    some (entries.map some ++ none :: rest)

/-- The flat list of all statements. -/
def flatten (segments : List Segment) : Option (List (Option FlatEntry)) := do
  let T ← blockTypes U sha256 type2Norm segments
  flatSegments U type2Norm T.segHashes segments segments

variable {U sha256 type2Norm}

/-! ### Where the statements stand -/

/-- The entries of a segment are its statements in order. -/
theorem of_flatStmts {segHashes : Dict ℕ ℕ} {segId idx : ℕ} {stmts : List Statement}
    {children : List ℕ} {entries : List FlatEntry}
    (h : flatStmts U type2Norm segHashes segId idx stmts children = some entries) :
    entries.length = stmts.length ∧
      ∀ k entry, entries[k]? = some entry → entry.segId = segId ∧ entry.stmtIdx = idx + k := by
  induction stmts generalizing idx children entries with
  | nil =>
    obtain rfl : [] = entries := by simpa [flatStmts] using h
    simp
  | cons stmt stmts ih =>
    simp only [flatStmts, Option.bind_eq_bind, Option.bind_eq_some_iff] at h
    obtain ⟨⟨norm, norm1, left⟩, -, rest, hrest, heq⟩ := h
    obtain rfl := Option.some.inj heq
    obtain ⟨hlen, hplace⟩ := ih hrest
    refine ⟨by rw [List.length_cons, List.length_cons, hlen], fun k entry hk => ?_⟩
    cases k with
    | zero =>
      obtain rfl := Option.some.inj hk
      exact ⟨rfl, rfl⟩
    | succ k =>
      obtain ⟨hseg, hidx⟩ := hplace k entry hk
      exact ⟨hseg, by omega⟩

/-- The `n` positions from `a` on hold consecutive statements of one segment. -/
def WithinSegment (segments : List Segment) (flat : List (Option FlatEntry)) (a n : ℕ) : Prop :=
  ∃ seg ∈ segments, ∃ s, s + n ≤ seg.stmts.length ∧ ∀ k < n, ∃ entry,
    flat[a + k]? = some (some entry) ∧ entry.segId = seg.id ∧ entry.stmtIdx = s + k

/-- **A range without separators lies inside one segment.** -/
theorem withinSegment_of_flatSegments {segHashes : Dict ℕ ℕ} {segments segs : List Segment}
    {flat : List (Option FlatEntry)}
    (h : flatSegments U type2Norm segHashes segments segs = some flat) {a n : ℕ} (hn : 0 < n)
    (hrange : ∀ k < n, ∃ entry, flat[a + k]? = some (some entry)) :
    WithinSegment segs flat a n := by
  induction segs generalizing flat a with
  | nil =>
    obtain rfl : [] = flat := by simpa [flatSegments] using h
    obtain ⟨entry, hentry⟩ := hrange 0 hn
    simp at hentry
  | cons seg segs ih =>
    simp only [flatSegments, Option.bind_eq_bind, Option.bind_eq_some_iff] at h
    obtain ⟨entries, hentries, rest, hrest, heq⟩ := h
    obtain rfl := Option.some.inj heq
    obtain ⟨hlen, hplace⟩ := of_flatStmts hentries
    have hfirst : ∀ i < entries.length, (entries.map some ++ none :: rest)[i]?
        = some entries[i]? := by
      intro i hi
      rw [List.getElem?_append_left (by simpa using hi), List.getElem?_map,
        List.getElem?_eq_getElem hi, Option.map_some]
    have hsep : (entries.map some ++ none :: rest)[entries.length]? = some none := by
      simp
    have hlater : ∀ i, (entries.map some ++ none :: rest)[entries.length + 1 + i]? = rest[i]? := by
      intro i
      rw [List.getElem?_append_right (by simp; omega), List.length_map,
        show entries.length + 1 + i - entries.length = i + 1 by omega, List.getElem?_cons_succ]
    -- the separator is not in the range
    have hout : a + n ≤ entries.length ∨ entries.length < a := by
      by_contra hin
      obtain ⟨entry, hentry⟩ := hrange (entries.length - a) (by omega)
      rw [show a + (entries.length - a) = entries.length by omega, hsep] at hentry
      cases hentry
    rcases hout with hin | hbehind
    · refine ⟨seg, List.mem_cons_self, a, hlen ▸ hin, fun k hk => ?_⟩
      obtain ⟨entry, hentry⟩ := hrange k hk
      refine ⟨entry, hentry, ?_⟩
      rw [hfirst _ (by omega)] at hentry
      obtain ⟨hseg, hidx⟩ := hplace _ entry (Option.some.inj hentry)
      exact ⟨hseg, by rw [hidx, Nat.zero_add]⟩
    · obtain ⟨a, rfl⟩ := Nat.exists_eq_add_of_lt hbehind
      have hshift : ∀ k, entries.length + a + 1 + k = entries.length + 1 + (a + k) := by omega
      simp only [hshift, hlater] at hrange
      obtain ⟨seg', hseg', s, hs, hin⟩ := ih hrest hrange
      refine ⟨seg', List.mem_cons_of_mem _ hseg', s, hs, fun k hk => ?_⟩
      rw [hshift, hlater]
      exact hin k hk

/-! ### Representations without cycles -/

/-- No segment is its own descendant. -/
def Acyclic (segments : List Segment) : Prop :=
  ∃ rank : ℕ → ℕ, ∀ seg ∈ segments, seg.id ≠ 0 → seg.parent ≠ seg.id →
    rank seg.id < rank seg.parent

theorem mem_childrenOf {segments : List Segment} {parent c : ℕ} :
    c ∈ childrenOf segments parent ↔
      ∃ seg ∈ segments, seg.id = c ∧ c ≠ 0 ∧ parent ≠ c ∧ seg.parent = parent := by
  rw [childrenOf, List.mem_insertionSort, List.mem_map]
  simp only [List.mem_filter, decide_eq_true_eq]
  constructor
  · rintro ⟨seg, ⟨hseg, hzero, hne, rfl⟩, rfl⟩
    exact ⟨seg, hseg, rfl, hzero, hne, rfl⟩
  · rintro ⟨seg, hseg, rfl, hzero, hne, rfl⟩
    exact ⟨seg, ⟨hseg, hzero, hne, rfl⟩, rfl⟩

/-- **There are ranks below the number of segments**: the rank of a segment is the number of
segments of a smaller rank. -/
theorem Acyclic.bounded {segments : List Segment} (h : Acyclic segments) : ∃ rank : ℕ → ℕ,
    (∀ id, rank id ≤ segments.length) ∧
      ∀ seg ∈ segments, seg.id ≠ 0 → seg.parent ≠ seg.id → rank seg.id < rank seg.parent := by
  obtain ⟨rank, hrank⟩ := h
  refine ⟨fun id => (segments.filter fun seg => rank seg.id < rank id).length,
    fun id => List.length_filter_le _ _, fun seg hseg hzero hne => ?_⟩
  have hlt := hrank seg hseg hzero hne
  have hsub : (segments.filter fun s => rank s.id < rank seg.id).Sublist
      (segments.filter fun s => rank s.id < rank seg.parent) :=
    List.monotone_filter_right _ fun s hs =>
      decide_eq_true ((of_decide_eq_true hs).trans hlt)
  refine lt_of_le_of_ne hsub.length_le fun heq => ?_
  have hmem : seg ∈ segments.filter fun s => rank s.id < rank seg.id := by
    rw [hsub.eq_of_length heq]
    exact List.mem_filter.mpr ⟨hseg, decide_eq_true hlt⟩
  exact absurd (of_decide_eq_true (List.mem_filter.mp hmem).2) (lt_irrefl _)

section Loops

variable {blockType : ℕ → BlockTypes → Option (ℕ × BlockTypes)} {target : Text}

/-- Filling placeholders uses up a prefix of the children. -/
theorem suffix_of_fillPlaceholders {children left : List ℕ} {stmt filled : Text}
    {T T' : BlockTypes}
    (h : fillPlaceholders blockType target children stmt T = some (filled, left, T')) :
    left <:+ children := by
  induction children generalizing stmt T with
  | nil =>
    simp only [fillPlaceholders, Option.some.injEq, Prod.mk.injEq] at h
    exact h.2.1 ▸ List.suffix_rfl
  | cons c children ih =>
    rw [fillPlaceholders] at h
    split at h
    · simp only [Option.bind_eq_bind, Option.bind_eq_some_iff] at h
      obtain ⟨⟨t, T₁⟩, -, hrest⟩ := h
      exact (ih hrest).trans (List.suffix_cons c children)
    · simp only [Option.some.injEq, Prod.mk.injEq] at h
      exact h.2.1 ▸ List.suffix_rfl

/-- The loop over placeholders keeps what looking up one block type keeps. -/
theorem fillPlaceholders_keeps {R : BlockTypes → BlockTypes → Prop} (refl : ∀ T, R T T)
    (trans : ∀ {T₁ T₂ T₃}, R T₁ T₂ → R T₂ T₃ → R T₁ T₃) {children left : List ℕ}
    (hblock : ∀ c ∈ children, ∀ T t T', blockType c T = some (t, T') → R T T')
    {stmt filled : Text} {T T' : BlockTypes}
    (h : fillPlaceholders blockType target children stmt T = some (filled, left, T')) :
    R T T' := by
  induction children generalizing stmt T with
  | nil =>
    simp only [fillPlaceholders, Option.some.injEq, Prod.mk.injEq] at h
    exact h.2.2 ▸ refl T
  | cons c children ih =>
    rw [fillPlaceholders] at h
    split at h
    · simp only [Option.bind_eq_bind, Option.bind_eq_some_iff] at h
      obtain ⟨⟨t, T₁⟩, hfirst, hrest⟩ := h
      exact trans (hblock c List.mem_cons_self _ _ _ hfirst)
        (ih (fun d hd => hblock d (List.mem_cons_of_mem _ hd)) hrest)
    · simp only [Option.some.injEq, Prod.mk.injEq] at h
      exact h.2.2 ▸ refl T

theorem fillPlaceholders_isSome {children : List ℕ}
    (hblock : ∀ c ∈ children, ∀ T, (blockType c T).isSome) (target stmt : Text)
    (T : BlockTypes) :
    (fillPlaceholders blockType target children stmt T).isSome := by
  induction children generalizing stmt T with
  | nil => rfl
  | cons c children ih =>
    rw [fillPlaceholders]
    split
    · obtain ⟨⟨t, T₁⟩, hfirst⟩ := Option.isSome_iff_exists.mp (hblock c List.mem_cons_self T)
      simp only [hfirst, Option.bind_eq_bind, Option.bind_some]
      exact ih (fun d hd => hblock d (List.mem_cons_of_mem _ hd)) _ _
    · rfl

/-- The loop over statements keeps what looking up one block type keeps. -/
theorem hashedStmts_keeps {R : BlockTypes → BlockTypes → Prop} (refl : ∀ T, R T T)
    (trans : ∀ {T₁ T₂ T₃}, R T₁ T₂ → R T₂ T₃ → R T₁ T₃) {children : List ℕ}
    (hblock : ∀ c ∈ children, ∀ T t T', blockType c T = some (t, T') → R T T')
    {stmts : List Statement} {hashed : List Text} {T T' : BlockTypes}
    (h : hashedStmts U type2Norm blockType stmts children T = some (hashed, T')) : R T T' := by
  induction stmts generalizing children hashed T with
  | nil =>
    simp only [hashedStmts, Option.some.injEq, Prod.mk.injEq] at h
    exact h.2 ▸ refl T
  | cons stmt stmts ih =>
    simp only [hashedStmts, Option.bind_eq_bind, Option.bind_eq_some_iff] at h
    obtain ⟨⟨filled, left, T₁⟩, hfirst, ⟨rest, T₂⟩, hrest, heq⟩ := h
    obtain ⟨-, rfl⟩ := Prod.mk.inj (Option.some.inj heq)
    have hsub := suffix_of_fillPlaceholders hfirst
    exact trans (fillPlaceholders_keeps refl trans hblock hfirst)
      (ih (fun c hc => hblock c (hsub.mem hc)) hrest)

variable (U type2Norm) in
theorem hashedStmts_isSome {children : List ℕ}
    (hblock : ∀ c ∈ children, ∀ T, (blockType c T).isSome) (stmts : List Statement)
    (T : BlockTypes) : (hashedStmts U type2Norm blockType stmts children T).isSome := by
  induction stmts generalizing children T with
  | nil => rfl
  | cons stmt stmts ih =>
    obtain ⟨⟨filled, left, T₁⟩, hfirst⟩ := Option.isSome_iff_exists.mp
      (fillPlaceholders_isSome hblock (hashForm U type2Norm stmt.raw).2
        (hashForm U type2Norm stmt.raw).1 T)
    have hsub := suffix_of_fillPlaceholders hfirst
    obtain ⟨⟨rest, T₂⟩, hrest⟩ := Option.isSome_iff_exists.mp
      (ih (fun c hc => hblock c (hsub.mem hc)) T₁)
    simp [hashedStmts, hfirst, hrest]

end Loops

/-- Every segment with a block type in `T` has one in `T'`. -/
def BlockTypes.Grows (T T' : BlockTypes) : Prop :=
  ∀ id, (T.segHashes.get? id).isSome → (T'.segHashes.get? id).isSome

theorem BlockTypes.Grows.refl (T : BlockTypes) : T.Grows T := fun _ h => h

theorem BlockTypes.Grows.trans {T₁ T₂ T₃ : BlockTypes} (h : T₁.Grows T₂) (h' : T₂.Grows T₃) :
    T₁.Grows T₃ :=
  fun id hid => h' id (h id hid)

theorem BlockTypes.get?_assign (T : BlockTypes) (segId : ℕ) (h : Text) (id : ℕ) :
    (T.assign segId h).2.segHashes.get? id
      = if id = segId then some (T.assign segId h).1 else T.segHashes.get? id := by
  by_cases hid : id = segId
  · rw [if_pos hid, hid]
    exact Dict.get?_upsert_self _ _ _
  · rw [if_neg hid]
    exact Dict.get?_upsert_of_ne _ _ hid

/-- What looking up a block type can do. -/
theorem getBlockTypeId_cases {segments : List Segment} {fuel segId t : ℕ} {T T' : BlockTypes}
    (h : getBlockTypeId U sha256 type2Norm segments (fuel + 1) segId T = some (t, T')) :
    (T.segHashes.get? segId = some t ∧ T' = T) ∨
    (T.segHashes.get? segId = none ∧ ∃ seg hashed T₁, segById segments segId = some seg ∧
      hashedStmts U type2Norm (getBlockTypeId U sha256 type2Norm segments fuel) seg.stmts
        (childrenOf segments segId) T = some (hashed, T₁) ∧
      T₁.assign segId (sha256 (List.intercalate [' '] hashed)) = (t, T')) := by
  rw [getBlockTypeId] at h
  cases hget : T.segHashes.get? segId with
  | some t' =>
    simp only [hget, Option.some.injEq, Prod.mk.injEq] at h
    obtain ⟨rfl, rfl⟩ := h
    exact Or.inl ⟨rfl, rfl⟩
  | none =>
    simp only [hget, Option.bind_eq_bind, Option.bind_eq_some_iff] at h
    obtain ⟨seg, hseg, ⟨hashed, T₁⟩, hhashed, heq⟩ := h
    exact Or.inr ⟨rfl, seg, hashed, T₁, hseg, hhashed, Option.some.inj heq⟩

/-- Looking up a block type records it. -/
theorem getBlockTypeId_records {segments : List Segment} {fuel segId t : ℕ} {T T' : BlockTypes}
    (h : getBlockTypeId U sha256 type2Norm segments fuel segId T = some (t, T')) :
    T'.segHashes.get? segId = some t ∧ T.Grows T' := by
  induction fuel generalizing segId t T T' with
  | zero => cases h
  | succ fuel ih =>
    rcases getBlockTypeId_cases h with ⟨hget, rfl⟩ | ⟨-, seg, hashed, T₁, -, hhashed, heq⟩
    · exact ⟨hget, BlockTypes.Grows.refl _⟩
    · have hgrows : T.Grows T₁ := hashedStmts_keeps BlockTypes.Grows.refl BlockTypes.Grows.trans
        (fun _ _ _ _ _ hc => (ih hc).2) hhashed
      have hassign := BlockTypes.get?_assign T₁ segId (sha256 (List.intercalate [' '] hashed))
      rw [heq] at hassign
      refine ⟨by rw [hassign, if_pos rfl], fun id hid => ?_⟩
      rw [hassign]
      split
      · rfl
      · exact hgrows id hid

variable (U sha256 type2Norm)

/-- **The recursion ends** on a representation without cycles: the rank falls from a segment to its
children. -/
theorem getBlockTypeId_isSome {segments : List Segment} {rank : ℕ → ℕ}
    (hrank : ∀ seg ∈ segments, seg.id ≠ 0 → seg.parent ≠ seg.id → rank seg.id < rank seg.parent)
    {fuel segId : ℕ} (hseg : segId ∈ segments.map Segment.id) (hfuel : rank segId < fuel)
    (T : BlockTypes) : (getBlockTypeId U sha256 type2Norm segments fuel segId T).isSome := by
  induction fuel generalizing segId T with
  | zero => exact absurd hfuel (Nat.not_lt_zero _)
  | succ fuel ih =>
    rw [getBlockTypeId]
    cases hget : T.segHashes.get? segId with
    | some t => rfl
    | none =>
      obtain ⟨seg, hfound⟩ := Option.isSome_iff_exists.mp (segById_isSome hseg)
      have hblock : ∀ c ∈ childrenOf segments segId, ∀ T,
          (getBlockTypeId U sha256 type2Norm segments fuel c T).isSome := by
        intro c hc T
        obtain ⟨child, hchild, rfl, hzero, hne, rfl⟩ := mem_childrenOf.mp hc
        have hlt := hrank child hchild hzero hne
        exact ih (List.mem_map_of_mem hchild) (by omega) T
      obtain ⟨⟨hashed, T₁⟩, hhashed⟩ := Option.isSome_iff_exists.mp
        (hashedStmts_isSome U type2Norm hblock seg.stmts T)
      simp [hfound, hhashed]

/-- Looking up the block types of some segments in turn. -/
theorem blockTypesFrom_isSome {segments segs : List Segment} (hsegs : segs ⊆ segments)
    (hacyclic : Acyclic segments) (T : BlockTypes) :
    ∃ T', blockTypesFrom U sha256 type2Norm segments segs T = some T' ∧ T.Grows T' ∧
      ∀ seg ∈ segs, (T'.segHashes.get? seg.id).isSome := by
  obtain ⟨rank, hbound, hrank⟩ := hacyclic.bounded
  induction segs generalizing T with
  | nil => exact ⟨T, rfl, BlockTypes.Grows.refl T, by simp⟩
  | cons seg segs ih =>
    have hseg : seg.id ∈ segments.map Segment.id :=
      List.mem_map_of_mem (hsegs List.mem_cons_self)
    obtain ⟨⟨t, T₁⟩, hfirst⟩ := Option.isSome_iff_exists.mp
      (getBlockTypeId_isSome U sha256 type2Norm hrank hseg (Nat.lt_succ_of_le (hbound seg.id)) T)
    obtain ⟨hrecorded, hgrows₁⟩ := getBlockTypeId_records hfirst
    obtain ⟨T', hrest, hgrows, hall⟩ := ih (fun s hs => hsegs (List.mem_cons_of_mem _ hs)) T₁
    refine ⟨T', ?_, hgrows₁.trans hgrows, fun s hs => ?_⟩
    · rw [blockTypesFrom, hfirst]
      exact hrest
    · rcases List.mem_cons.mp hs with rfl | hs
      · exact hgrows _ (by rw [hrecorded]; rfl)
      · exact hall s hs

theorem flatForms_isSome {segHashes : Dict ℕ ℕ} {children : List ℕ}
    (h : ∀ c ∈ children, (segHashes.get? c).isSome) (norm norm1 : Text) :
    ∃ r, flatForms type2Norm segHashes children norm norm1 = some r ∧ r.2.2 <:+ children := by
  induction children generalizing norm norm1 with
  | nil => exact ⟨_, rfl, List.suffix_rfl⟩
  | cons c children ih =>
    rw [flatForms]
    split
    · obtain ⟨t, ht⟩ := Option.isSome_iff_exists.mp (h c List.mem_cons_self)
      simp only [ht, Option.bind_eq_bind, Option.bind_some]
      obtain ⟨r, hr, hsuffix⟩ := ih (fun d hd => h d (List.mem_cons_of_mem _ hd)) _ _
      exact ⟨r, hr, hsuffix.trans (List.suffix_cons c children)⟩
    · exact ⟨_, rfl, List.suffix_rfl⟩

theorem flatStmts_isSome {segHashes : Dict ℕ ℕ} {children : List ℕ}
    (h : ∀ c ∈ children, (segHashes.get? c).isSome) (segId idx : ℕ) (stmts : List Statement) :
    (flatStmts U type2Norm segHashes segId idx stmts children).isSome := by
  induction stmts generalizing children idx with
  | nil => rfl
  | cons stmt stmts ih =>
    obtain ⟨⟨norm, norm1, left⟩, hforms, hsuffix⟩ := flatForms_isSome type2Norm h
      (if type2Norm then normalizeStmtType2 U stmt.raw else normalizeStmt U stmt.raw)
      (normalizeStmt U stmt.raw)
    obtain ⟨rest, hrest⟩ := Option.isSome_iff_exists.mp
      (ih (fun c hc => h c (hsuffix.mem hc)) (idx + 1))
    simp [flatStmts, hforms, hrest]

theorem flatSegments_isSome {segHashes : Dict ℕ ℕ} {segments : List Segment}
    (h : ∀ seg ∈ segments, (segHashes.get? seg.id).isSome) (segs : List Segment) :
    (flatSegments U type2Norm segHashes segments segs).isSome := by
  induction segs with
  | nil => rfl
  | cons seg segs ih =>
    have hchildren : ∀ c ∈ childrenOf segments seg.id, (segHashes.get? c).isSome := by
      intro c hc
      obtain ⟨child, hchild, rfl, -⟩ := mem_childrenOf.mp hc
      exact h child hchild
    obtain ⟨entries, hentries⟩ := Option.isSome_iff_exists.mp
      (flatStmts_isSome U type2Norm hchildren seg.id 0 seg.stmts)
    obtain ⟨rest, hrest⟩ := Option.isSome_iff_exists.mp ih
    simp [flatSegments, hentries, hrest]

/-- **The flat list is built** for every representation without cycles. -/
theorem flatten_isSome {segments : List Segment} (h : Acyclic segments) :
    (flatten U sha256 type2Norm segments).isSome := by
  obtain ⟨T, htypes, -, hall⟩ := blockTypesFrom_isSome U sha256 type2Norm
    (List.Subset.refl segments) h BlockTypes.empty
  obtain ⟨flat, hflat⟩ := Option.isSome_iff_exists.mp
    (flatSegments_isSome U type2Norm hall segments)
  simp [flatten, blockTypes, htypes, hflat]

end Csc512
