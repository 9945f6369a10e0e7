import Mathlib.Data.List.Nodup
import Mathlib.Data.List.Pairwise
import Mathlib.Tactic.Ring

/-!
# Texts with nested braces

A text in which some glyphs are marked as opening and closing braces. When the marks are balanced
the text is a `Braced` tree: glyphs and blocks, where a block has a body between its two braces.
From the tree one reads off what a scanner should find: the blocks in the order in which they open
(`Block`, with positions and the block around it), the source, and the source with the bodies of
the outermost blocks left out.

## Main results

* `exists_braced` — a text with balanced marks is a tree
* `Braced.innermost` — the recorded parent of a block is the innermost block around it
-/

namespace Csc512

/-- The marks of a text. -/
inductive Brace where
  | opening
  | closing
deriving DecidableEq, Repr

/-- With `depth` blocks open, does every closing brace close an open block, and is none left open
at the end? -/
def closesFrom : ℕ → List (Option Brace) → Bool
  | depth, [] => depth = 0
  | depth, none :: marks => closesFrom depth marks
  | depth, some .opening :: marks => closesFrom (depth + 1) marks
  | 0, some .closing :: _ => false
  | depth + 1, some .closing :: marks => closesFrom depth marks

/-- The marks are balanced. -/
def Balanced (marks : List (Option Brace)) : Prop := closesFrom 0 marks

instance (marks : List (Option Brace)) : Decidable (Balanced marks) :=
  inferInstanceAs (Decidable (closesFrom 0 marks = true))

/-- A text with nested blocks. -/
inductive Braced (α : Type*) where
  | nil
  | glyph (a : α) (rest : Braced α)
  | block (opening : α) (body : Braced α) (closing : α) (rest : Braced α)

/-- A block: its number in the order in which the blocks open, the positions between its braces,
and the number of the block around it, its own number when there is none. -/
structure Block where
  index : ℕ
  start : ℕ
  stop : ℕ
  parent : ℕ
deriving DecidableEq, Repr

/-- `x` strictly encloses `y`. -/
def Block.Encloses (x y : Block) : Prop := x.start < y.start ∧ y.stop < x.stop

namespace Braced

variable {α : Type*}

/-- The text. -/
def source : Braced α → List α
  | nil => []
  | glyph a rest => a :: rest.source
  | block o body c rest => o :: (body.source ++ c :: rest.source)

/-- The marks of the text. -/
def marks : Braced α → List (Option Brace)
  | nil => []
  | glyph _ rest => none :: rest.marks
  | block _ body _ rest => some .opening :: (body.marks ++ some .closing :: rest.marks)

/-- The text without the bodies of its outermost blocks; the braces stay. -/
def emptied : Braced α → List α
  | nil => []
  | glyph a rest => a :: rest.emptied
  | block o _ c rest => o :: c :: rest.emptied

/-- The number of blocks. -/
def blockCount : Braced α → ℕ
  | nil => 0
  | glyph _ rest => rest.blockCount
  | block _ body _ rest => body.blockCount + rest.blockCount + 1

/-- The bodies of all blocks, in the order in which the blocks open. -/
def bodies : Braced α → List (Braced α)
  | nil => []
  | glyph _ rest => rest.bodies
  | block _ body _ rest => body :: (body.bodies ++ rest.bodies)

/-- All blocks, in the order in which they open, when the text starts at `base`, its first block
has number `index`, and it stands directly in the block `outer`. -/
def blocks (outer : Option ℕ) (index base : ℕ) : Braced α → List Block
  | nil => []
  | glyph _ rest => rest.blocks outer index (base + 1)
  | block _ body _ rest =>
    ⟨index, base + 1, base + 1 + body.source.length, outer.getD index⟩ ::
      (body.blocks (some index) (index + 1) (base + 1) ++
        rest.blocks outer (index + 1 + body.blockCount) (base + 1 + body.source.length + 1))

@[simp] theorem source_nil : (nil : Braced α).source = [] := rfl

@[simp] theorem source_glyph (a : α) (rest : Braced α) :
    (glyph a rest).source = a :: rest.source := rfl

@[simp] theorem source_block (o : α) (body : Braced α) (c : α) (rest : Braced α) :
    (block o body c rest).source = o :: (body.source ++ c :: rest.source) := rfl

@[simp] theorem length_marks (t : Braced α) : t.marks.length = t.source.length := by
  induction t with
  | nil => rfl
  | glyph a rest ih => simp [marks, ih]
  | block o body c rest ihBody ihRest => simp [marks, ihBody, ihRest]

@[simp] theorem length_bodies (t : Braced α) : t.bodies.length = t.blockCount := by
  induction t with
  | nil => rfl
  | glyph a rest ih => exact ih
  | block o body c rest ihBody ihRest => simp [bodies, blockCount, ihBody, ihRest]

/-! ### The blocks of a text -/

variable (outer : Option ℕ) (index base : ℕ)

@[simp] theorem length_blocks (t : Braced α) :
    (t.blocks outer index base).length = t.blockCount := by
  induction t generalizing outer index base with
  | nil => rfl
  | glyph a rest ih => exact ih outer index (base + 1)
  | block o body c rest ihBody ihRest => simp [blocks, blockCount, ihBody, ihRest]

/-- The blocks are numbered in order. -/
theorem map_index_blocks (t : Braced α) :
    (t.blocks outer index base).map Block.index = List.range' index t.blockCount := by
  induction t generalizing outer index base with
  | nil => rfl
  | glyph a rest ih => exact ih outer index (base + 1)
  | block o body c rest ihBody ihRest =>
    rw [blocks, List.map_cons, List.map_append, ihBody, ihRest, blockCount, List.range'_succ,
      ← List.range'_append_1, Nat.add_assoc]

variable {outer index base}

/-- The block that a text begins with. -/
abbrev firstBlock (outer : Option ℕ) (index base : ℕ) (body : Braced α) : Block :=
  ⟨index, base + 1, base + 1 + body.source.length, outer.getD index⟩

theorem mem_blocks_block {o : α} {body : Braced α} {c : α} {rest : Braced α} {x : Block} :
    x ∈ (block o body c rest).blocks outer index base ↔
      x = firstBlock outer index base body ∨
        x ∈ body.blocks (some index) (index + 1) (base + 1) ∨
        x ∈ rest.blocks outer (index + 1 + body.blockCount)
          (base + 1 + body.source.length + 1) := by
  rw [blocks, List.mem_cons, List.mem_append]

theorem index_mem_blocks {t : Braced α} {x : Block} (hx : x ∈ t.blocks outer index base) :
    index ≤ x.index ∧ x.index < index + t.blockCount := by
  have hmem : x.index ∈ (t.blocks outer index base).map Block.index := List.mem_map_of_mem hx
  rw [map_index_blocks, List.mem_range'_1] at hmem
  exact hmem

/-- The number of a block is its place. -/
theorem index_of_getElem? {t : Braced α} {i : ℕ} {x : Block}
    (hx : (t.blocks outer index base)[i]? = some x) : x.index = index + i := by
  have hi : i < t.blockCount := by
    simpa using (List.getElem?_eq_some_iff.mp hx).1
  have hget : ((t.blocks outer index base).map Block.index)[i]? = some (index + i) := by
    rw [map_index_blocks, List.getElem?_range' hi, Nat.one_mul]
  rw [List.getElem?_map, hx] at hget
  exact Option.some.inj hget

/-- A block lies between its braces, and these lie in the text. -/
theorem span_mem_blocks {t : Braced α} {x : Block} (hx : x ∈ t.blocks outer index base) :
    base < x.start ∧ x.start ≤ x.stop ∧ x.stop < base + t.source.length := by
  induction t generalizing outer index base with
  | nil => cases hx
  | glyph a rest ih =>
    have hspan := ih hx
    simp only [source_glyph, List.length_cons]
    omega
  | block o body c rest ihBody ihRest =>
    simp only [source_block, List.length_cons, List.length_append]
    rcases mem_blocks_block.mp hx with rfl | hx | hx
    · refine ⟨Nat.lt_succ_self _, Nat.le_add_right _ _, ?_⟩
      show base + 1 + body.source.length < _
      omega
    · have hspan := ihBody hx
      omega
    · have hspan := ihRest hx
      omega

/-- The parent of a block is the block around the text or a block of the text that opened
earlier. -/
theorem parent_mem_blocks {t : Braced α} {x : Block} (hx : x ∈ t.blocks outer index base) :
    x.parent = outer.getD x.index ∨ index ≤ x.parent ∧ x.parent < x.index := by
  induction t generalizing outer index base with
  | nil => cases hx
  | glyph a rest ih => exact ih hx
  | block o body c rest ihBody ihRest =>
    rcases mem_blocks_block.mp hx with rfl | hx | hx
    · exact Or.inl rfl
    · have hindex := index_mem_blocks hx
      rcases ihBody hx with hparent | hparent
      · rw [Option.getD_some] at hparent
        exact Or.inr (by omega)
      · exact Or.inr (by omega)
    · rcases ihRest hx with hparent | hparent
      · exact Or.inl hparent
      · exact Or.inr (by omega)

/-- The blocks come in the order of their opening braces. -/
theorem pairwise_blocks (t : Braced α) :
    (t.blocks outer index base).Pairwise fun x y => x.start < y.start := by
  induction t generalizing outer index base with
  | nil => exact List.Pairwise.nil
  | glyph a rest ih => exact ih
  | block o body c rest ihBody ihRest =>
    refine List.pairwise_cons.mpr ⟨fun y hy => ?_, List.pairwise_append.mpr
      ⟨ihBody, ihRest, fun y hy z hz => ?_⟩⟩
    · rcases List.mem_append.mp hy with hy | hy
      · exact (span_mem_blocks hy).1
      · have hspan := span_mem_blocks hy
        simp only
        omega
    · have hspan := span_mem_blocks hy
      have hspan' := span_mem_blocks hz
      omega

/-- `p` is the innermost of the blocks `bs` that strictly encloses `x`. -/
def IsInnermost (bs : List Block) (p x : Block) : Prop :=
  p ∈ bs ∧ p.Encloses x ∧ ∀ z ∈ bs, z.Encloses x → z = p ∨ z.Encloses p

/-- **Parents are innermost.** A block has the block around the text as its parent when no block
of the text encloses it, and otherwise the innermost one that does. -/
theorem innermost {t : Braced α} {x : Block} (hx : x ∈ t.blocks outer index base) :
    (x.parent = outer.getD x.index ∧ ∀ z ∈ t.blocks outer index base, ¬ z.Encloses x) ∨
      ∃ p, IsInnermost (t.blocks outer index base) p x ∧ p.index = x.parent := by
  induction t generalizing outer index base with
  | nil => cases hx
  | glyph a rest ih => exact ih hx
  | block o body c rest ihBody ihRest =>
    -- the block itself encloses those of its body, and no block of the body any of the rest
    have hbody : ∀ y ∈ body.blocks (some index) (index + 1) (base + 1),
        (firstBlock outer index base body).Encloses y := by
      intro y hy
      exact ⟨(span_mem_blocks hy).1, (span_mem_blocks hy).2.2⟩
    have hrest : ∀ y ∈ rest.blocks outer (index + 1 + body.blockCount)
        (base + 1 + body.source.length + 1), ∀ z : Block,
        (z = firstBlock outer index base body ∨
          z ∈ body.blocks (some index) (index + 1) (base + 1)) →
        ¬ z.Encloses y ∧ ¬ y.Encloses z := by
      intro y hy z hz
      have hspan := span_mem_blocks hy
      have hz : z.start ≤ base + 1 + body.source.length ∧
          z.stop ≤ base + 1 + body.source.length := by
        rcases hz with rfl | hz
        · exact ⟨Nat.le_add_right _ _, le_rfl⟩
        · have hz := span_mem_blocks hz
          omega
      refine ⟨fun h => ?_, fun h => ?_⟩
      · have := h.2
        omega
      · have := h.1
        omega
    rcases mem_blocks_block.mp hx with rfl | hx | hx
    · refine Or.inl ⟨rfl, fun z hz hzx => ?_⟩
      rcases mem_blocks_block.mp hz with rfl | hz | hz
      · exact Nat.lt_irrefl _ hzx.1
      · exact Nat.lt_asymm hzx.1 (hbody z hz).1
      · exact (hrest z hz _ (Or.inl rfl)).2 hzx
    · refine Or.inr ?_
      rcases ihBody hx with ⟨hparent, hnone⟩ | ⟨p, ⟨hp, hencl, hmin⟩, hparent⟩
      · refine ⟨firstBlock outer index base body, ⟨mem_blocks_block.mpr (Or.inl rfl), hbody x hx,
          fun z hz hzx => ?_⟩, hparent.symm⟩
        rcases mem_blocks_block.mp hz with rfl | hz | hz
        · exact Or.inl rfl
        · exact absurd hzx (hnone z hz)
        · exact absurd hzx (hrest z hz x (Or.inr hx)).2
      · refine ⟨p, ⟨mem_blocks_block.mpr (Or.inr (Or.inl hp)), hencl,
          fun z hz hzx => ?_⟩, hparent⟩
        rcases mem_blocks_block.mp hz with rfl | hz | hz
        · exact Or.inr (hbody p hp)
        · exact hmin z hz hzx
        · exact absurd hzx (hrest z hz x (Or.inr hx)).2
    · rcases ihRest hx with ⟨hparent, hnone⟩ | ⟨p, ⟨hp, hencl, hmin⟩, hparent⟩
      · refine Or.inl ⟨hparent, fun z hz => ?_⟩
        rcases mem_blocks_block.mp hz with hz | hz | hz
        · exact (hrest x hx z (Or.inl hz)).1
        · exact (hrest x hx z (Or.inr hz)).1
        · exact hnone z hz
      · refine Or.inr ⟨p, ⟨mem_blocks_block.mpr (Or.inr (Or.inr hp)), hencl,
          fun z hz hzx => ?_⟩, hparent⟩
        rcases mem_blocks_block.mp hz with hz | hz | hz
        · exact absurd hzx (hrest x hx z (Or.inl hz)).1
        · exact absurd hzx (hrest x hx z (Or.inr hz)).1
        · exact hmin z hz hzx

/-! ### Balanced marks are trees -/

/-- A marked text in which `suffixes.length` blocks are open: a tree, then for every open block,
innermost first, its closing brace and the tree behind it. -/
def openSource (t : Braced α) (suffixes : List (α × Braced α)) : List α :=
  t.source ++ suffixes.flatMap fun s => s.1 :: s.2.source

/-- The marks of `openSource`. -/
def openMarks (t : Braced α) (suffixes : List (α × Braced α)) : List (Option Brace) :=
  t.marks ++ suffixes.flatMap fun s => some .closing :: s.2.marks

/-- A text whose marks are balanced with some blocks open. -/
theorem exists_openSource (l : List α) (marks : List (Option Brace)) (depth : ℕ)
    (hlen : marks.length = l.length) (h : closesFrom depth marks) :
    ∃ (t : Braced α) (suffixes : List (α × Braced α)), suffixes.length = depth ∧
      openSource t suffixes = l ∧ openMarks t suffixes = marks := by
  induction l generalizing marks depth with
  | nil =>
    obtain rfl := List.eq_nil_of_length_eq_zero hlen
    obtain rfl : depth = 0 := by simpa [closesFrom] using h
    exact ⟨nil, [], rfl, rfl, rfl⟩
  | cons a l ih =>
    cases marks with
    | nil => cases hlen
    | cons mark marks =>
      have hlen' : marks.length = l.length := Nat.succ.inj hlen
      cases mark with
      | none =>
        obtain ⟨t, suffixes, hd, rfl, rfl⟩ := ih marks depth hlen' h
        exact ⟨glyph a t, suffixes, hd, rfl, rfl⟩
      | some brace =>
        cases brace with
        | opening =>
          obtain ⟨body, suffixes, hd, rfl, rfl⟩ := ih marks (depth + 1) hlen' h
          match suffixes, hd with
          | (c, rest) :: suffixes, hd =>
            refine ⟨block a body c rest, suffixes, Nat.succ.inj hd, ?_, ?_⟩
            · simp [openSource]
            · simp [openMarks, Braced.marks]
        | closing =>
          cases depth with
          | zero => cases h
          | succ depth =>
            obtain ⟨t, suffixes, hd, rfl, rfl⟩ := ih marks depth hlen' h
            refine ⟨nil, (a, t) :: suffixes, by rw [List.length_cons, hd], ?_, ?_⟩
            · simp [openSource]
            · simp [openMarks, Braced.marks]

/-- **A text with balanced marks is a tree.** -/
theorem exists_braced {l : List α} {marks : List (Option Brace)}
    (hlen : marks.length = l.length) (h : Balanced marks) :
    ∃ t : Braced α, t.source = l ∧ t.marks = marks := by
  obtain ⟨t, suffixes, hd, rfl, rfl⟩ := exists_openSource l marks 0 hlen h
  obtain rfl := List.eq_nil_of_length_eq_zero hd
  exact ⟨t, by simp [openSource], by simp [openMarks]⟩

end Braced

end Csc512
