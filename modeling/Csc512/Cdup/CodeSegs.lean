import Csc512.Lib.Braced
import Mathlib.Data.List.Perm.Subperm
import Mathlib.Data.List.Sort

/-!
# Cutting a source into segments

From the brace sequence of a source to the text of every block: `pairOpnCls` pairs the braces with
a stack, `findNestedPairs` finds the block around every block with another stack, and
`parseCodeSegs` cuts the body of every block out of the text of the block around it, from the last
block to the first. A block is given by the position behind its opening brace and the position of
its closing brace.

All of it only moves glyphs, so it is defined for glyphs of any type.

## Main results

* `pairOpnCls_braced`, `findNestedPairs_braced`, `parseCodeSegs_braced` — what the three functions
  compute on a nested text
* `blockDecomposition` — the decomposition loses nothing
-/

namespace Csc512

/-! ### The functions of the parser -/

/-- Pair opening and closing braces; `stack` holds the open ones. Fails where the source pops an
empty stack or reads behind the end of a list. -/
def pairOpnClsFrom : List ℕ → List Brace → List ℕ → List ℕ → Option (List (ℕ × ℕ))
  | _, [], _, _ => some []
  | stack, .opening :: seq, o :: openIdx, clsIdx => pairOpnClsFrom (o :: stack) seq openIdx clsIdx
  | _, .opening :: _, [], _ => none
  | o :: stack, .closing :: seq, openIdx, c :: clsIdx => do
    let pairs ← pairOpnClsFrom stack seq openIdx clsIdx
    some ((o, c) :: pairs)
  | _, .closing :: _, _, _ => none

/-- The pairs of matching braces, in the order in which they close. -/
def pairOpnCls (seq : List Brace) (openIdx clsIdx : List ℕ) : Option (List (ℕ × ℕ)) :=
  pairOpnClsFrom [] seq openIdx clsIdx

/-- The parents of the pairs that open from here on; `stack` holds the open pairs. -/
def findNestedPairsFrom : List ℕ → ℕ → List Brace → Option (List ℕ)
  | _, _, [] => some []
  | stack, pairIdx, .opening :: seq => do
    let parents ← findNestedPairsFrom (pairIdx :: stack) (pairIdx + 1) seq
    some (stack.head?.getD pairIdx :: parents)
  | [], _, .closing :: _ => none
  | _ :: stack, pairIdx, .closing :: seq => findNestedPairsFrom stack pairIdx seq

/-- The number of the pair around every pair, its own number when there is none. -/
def findNestedPairs (seq : List Brace) : Option (List ℕ) := findNestedPairsFrom [] 0 seq

/-- Sort pairs by their start. -/
def sortPairs (pairs : List (ℕ × ℕ)) : List (ℕ × ℕ) :=
  pairs.insertionSort fun a b => a.1 ≤ b.1

section Cutting

variable {α : Type*}

/-- The text without the glyphs from `start` to `stop`. -/
def cutOut (start stop : ℕ) (s : List α) : List α := s.take start ++ s.drop stop

/-- The numbers of the pairs, the one that starts last first. -/
def cuttingOrder (pairs : List (ℕ × ℕ)) : List ℕ :=
  (List.range pairs.length).insertionSort fun i j =>
    (pairs.getD j (0, 0)).1 ≤ (pairs.getD i (0, 0)).1

/-- Cut the body of pair `i` out of the text of the pair around it. -/
def cutChild (pairs : List (ℕ × ℕ)) (parents : List ℕ) (segs : List (List α)) (i : ℕ) :
    List (List α) :=
  let parent := parents.getD i 0
  if parent ≠ i then
    let parentStart := (pairs.getD parent (0, 0)).1
    let childStart := (pairs.getD i (0, 0)).1 - parentStart
    let childEnd := (pairs.getD i (0, 0)).2 - parentStart
    segs.set parent (cutOut childStart childEnd (segs.getD parent []))
  else segs

/-- Cut the body of pair `i` out of the root text when no pair is around it. -/
def cutRoot (pairs : List (ℕ × ℕ)) (parents : List ℕ) (rootSeg : List α) (i : ℕ) : List α :=
  if parents.getD i 0 = i then
    cutOut (pairs.getD i (0, 0)).1 (pairs.getD i (0, 0)).2 rootSeg
  else rootSeg

/-- The text of every block without the bodies of the blocks in it: the whole source first, then
the blocks in the order in which they open. -/
def parseCodeSegs (file : List α) (pairs : List (ℕ × ℕ)) (parents : List ℕ) : List (List α) :=
  let rawSegs := pairs.map fun p => (file.take p.2).drop p.1
  let order := cuttingOrder pairs
  order.foldl (cutRoot pairs parents) file :: order.foldl (cutChild pairs parents) rawSegs

end Cutting

/-! ### The brace sequence of a marked text -/

/-- The braces in source order. -/
def braceSeq (marks : List (Option Brace)) : List Brace := marks.filterMap id

/-- The positions behind the opening braces. -/
def openIdx (base : ℕ) : List (Option Brace) → List ℕ
  | [] => []
  | some .opening :: marks => (base + 1) :: openIdx (base + 1) marks
  | _ :: marks => openIdx (base + 1) marks

/-- The positions of the closing braces. -/
def clsIdx (base : ℕ) : List (Option Brace) → List ℕ
  | [] => []
  | some .closing :: marks => base :: clsIdx (base + 1) marks
  | _ :: marks => clsIdx (base + 1) marks

theorem openIdx_append (base : ℕ) (m m' : List (Option Brace)) :
    openIdx base (m ++ m') = openIdx base m ++ openIdx (base + m.length) m' := by
  induction m generalizing base with
  | nil => rfl
  | cons mark m ih =>
    have hbase : base + (mark :: m).length = base + 1 + m.length := by
      rw [List.length_cons]
      omega
    rw [hbase]
    cases mark with
    | none => exact ih (base + 1)
    | some brace =>
      cases brace with
      | opening => exact congrArg _ (ih (base + 1))
      | closing => exact ih (base + 1)

theorem clsIdx_append (base : ℕ) (m m' : List (Option Brace)) :
    clsIdx base (m ++ m') = clsIdx base m ++ clsIdx (base + m.length) m' := by
  induction m generalizing base with
  | nil => rfl
  | cons mark m ih =>
    have hbase : base + (mark :: m).length = base + 1 + m.length := by
      rw [List.length_cons]
      omega
    rw [hbase]
    cases mark with
    | none => exact ih (base + 1)
    | some brace =>
      cases brace with
      | opening => exact ih (base + 1)
      | closing => exact congrArg _ (ih (base + 1))

theorem braceSeq_append (m m' : List (Option Brace)) :
    braceSeq (m ++ m') = braceSeq m ++ braceSeq m' :=
  List.filterMap_append

/-! ### What the functions find in a nested text -/

section Nested

variable {α : Type*}

/-- The positions between the braces of a block. -/
def Block.span (x : Block) : ℕ × ℕ := (x.start, x.stop)

/-- The pairs of a nested text, in the order in which they close. -/
def Braced.closingPairs (base : ℕ) : Braced α → List (ℕ × ℕ)
  | nil => []
  | glyph _ rest => rest.closingPairs (base + 1)
  | block _ body _ rest =>
    body.closingPairs (base + 1) ++ (base + 1, base + 1 + body.source.length) ::
      rest.closingPairs (base + 1 + body.source.length + 1)

theorem closingPairs_perm (t : Braced α) (outer : Option ℕ) (index base : ℕ) :
    (t.closingPairs base).Perm ((t.blocks outer index base).map Block.span) := by
  induction t generalizing outer index base with
  | nil => exact List.Perm.refl _
  | glyph a rest ih => exact ih outer index (base + 1)
  | block o body c rest ihBody ihRest =>
    rw [Braced.blocks, List.map_cons, List.map_append]
    exact (List.perm_middle).trans (List.Perm.cons _ ((ihBody _ _ _).append (ihRest _ _ _)))

theorem pairOpnClsFrom_braced (t : Braced α) (base : ℕ) (stack : List ℕ) (seq : List Brace)
    (os cs : List ℕ) :
    pairOpnClsFrom stack (braceSeq t.marks ++ seq) (openIdx base t.marks ++ os)
        (clsIdx base t.marks ++ cs)
      = (pairOpnClsFrom stack seq os cs).map (t.closingPairs base ++ ·) := by
  induction t generalizing base stack seq os cs with
  | nil =>
    show pairOpnClsFrom stack seq os cs = (pairOpnClsFrom stack seq os cs).map ([] ++ ·)
    simp
  | glyph a rest ih => exact ih (base + 1) stack seq os cs
  | block o body c rest ihBody ihRest =>
    have hseq : braceSeq (Braced.block o body c rest).marks ++ seq
        = .opening :: (braceSeq body.marks ++ .closing :: (braceSeq rest.marks ++ seq)) := by
      simp [Braced.marks, braceSeq]
    have hopen : openIdx base (Braced.block o body c rest).marks ++ os
        = (base + 1) :: (openIdx (base + 1) body.marks ++
            (openIdx (base + 1 + body.source.length + 1) rest.marks ++ os)) := by
      simp [Braced.marks, openIdx, openIdx_append]
    have hcls : clsIdx base (Braced.block o body c rest).marks ++ cs
        = clsIdx (base + 1) body.marks ++ (base + 1 + body.source.length) ::
            (clsIdx (base + 1 + body.source.length + 1) rest.marks ++ cs) := by
      simp [Braced.marks, clsIdx, clsIdx_append]
    rw [hseq, hopen, hcls, pairOpnClsFrom, ihBody, pairOpnClsFrom, ihRest]
    cases pairOpnClsFrom stack seq os cs with
    | none => rfl
    | some pairs => simp [Braced.closingPairs]

/-- A list that is sorted strictly is what sorting any rearrangement of it gives. -/
theorem sortPairs_eq {pairs sorted : List (ℕ × ℕ)} (hperm : pairs.Perm sorted)
    (hsorted : sorted.Pairwise fun a b => a.1 < b.1) : sortPairs pairs = sorted := by
  have hle : (sortPairs pairs).Pairwise fun a b => a.1 ≤ b.1 :=
    List.pairwise_insertionSort (fun a b : ℕ × ℕ => a.1 ≤ b.1) pairs
  have hall : (sortPairs pairs).Perm sorted := (List.perm_insertionSort _ pairs).trans hperm
  have hne : (sortPairs pairs).Pairwise fun a b => a.1 ≠ b.1 :=
    (hall.pairwise_iff fun h => h.symm).mpr (hsorted.imp Nat.ne_of_lt)
  have hlt : (sortPairs pairs).Pairwise fun a b => a.1 < b.1 :=
    (hle.and hne).imp fun h => lt_of_le_of_ne h.1 h.2
  exact hall.eq_of_pairwise (fun a b _ _ hab hba => absurd hab (Nat.lt_asymm hba)) hlt hsorted

/-- **The pairs of a nested text** are its blocks. -/
theorem pairOpnCls_braced (t : Braced α) :
    (pairOpnCls (braceSeq t.marks) (openIdx 0 t.marks) (clsIdx 0 t.marks)).map sortPairs
      = some ((t.blocks none 0 0).map Block.span) := by
  have hpairs := pairOpnClsFrom_braced t 0 [] [] [] []
  simp only [List.append_nil] at hpairs
  rw [pairOpnCls, hpairs, pairOpnClsFrom]
  simp only [Option.map_some, List.append_nil]
  refine congrArg some (sortPairs_eq (closingPairs_perm t none 0 0) ?_)
  exact List.pairwise_map.mpr (Braced.pairwise_blocks t)

theorem findNestedPairsFrom_braced (t : Braced α) (stack : List ℕ) (index base : ℕ)
    (seq : List Brace) :
    findNestedPairsFrom stack index (braceSeq t.marks ++ seq)
      = (findNestedPairsFrom stack (index + t.blockCount) seq).map
          ((t.blocks stack.head? index base).map Block.parent ++ ·) := by
  induction t generalizing stack index base seq with
  | nil =>
    show findNestedPairsFrom stack index seq
      = (findNestedPairsFrom stack index seq).map ([] ++ ·)
    simp
  | glyph a rest ih => exact ih stack index (base + 1) seq
  | block o body c rest ihBody ihRest =>
    have hseq : braceSeq (Braced.block o body c rest).marks ++ seq
        = .opening :: (braceSeq body.marks ++ .closing :: (braceSeq rest.marks ++ seq)) := by
      simp [Braced.marks, braceSeq]
    have hcount : index + (Braced.block o body c rest).blockCount
        = index + 1 + body.blockCount + rest.blockCount := by
      rw [Braced.blockCount]
      omega
    rw [hseq, findNestedPairsFrom, ihBody _ _ (base + 1), findNestedPairsFrom,
      ihRest _ _ (base + 1 + body.source.length + 1), hcount]
    cases findNestedPairsFrom stack (index + 1 + body.blockCount + rest.blockCount) seq with
    | none => rfl
    | some parents => simp [Braced.blocks]

/-- **The parents of a nested text** are those of its blocks. -/
theorem findNestedPairs_braced (t : Braced α) :
    findNestedPairs (braceSeq t.marks) = some ((t.blocks none 0 0).map Block.parent) := by
  have hparents := findNestedPairsFrom_braced t [] 0 0 []
  rw [List.append_nil] at hparents
  rw [findNestedPairs, hparents]
  simp [findNestedPairsFrom]

/-- The blocks are cut from the last to the first. -/
theorem cuttingOrder_eq {pairs : List (ℕ × ℕ)} (h : pairs.Pairwise fun a b => a.1 < b.1) :
    cuttingOrder pairs = (List.range pairs.length).reverse := by
  have hlt : ∀ i j, i < j → j < pairs.length →
      (pairs.getD i (0, 0)).1 < (pairs.getD j (0, 0)).1 := by
    intro i j hij hj
    have hi : i < pairs.length := hij.trans hj
    rw [List.getD_eq_getElem?_getD, List.getD_eq_getElem?_getD, List.getElem?_eq_getElem hi,
      List.getElem?_eq_getElem hj]
    exact List.pairwise_iff_getElem.mp h i j hi hj hij
  have hperm : (cuttingOrder pairs).Perm (List.range pairs.length) := List.perm_insertionSort _ _
  have hcutting : (cuttingOrder pairs).Pairwise fun i j =>
      (pairs.getD j (0, 0)).1 ≤ (pairs.getD i (0, 0)).1 :=
    List.pairwise_insertionSort
      (fun i j : ℕ => (pairs.getD j (0, 0)).1 ≤ (pairs.getD i (0, 0)).1) _
  have hreverse : (List.range pairs.length).reverse.Pairwise fun i j =>
      (pairs.getD j (0, 0)).1 ≤ (pairs.getD i (0, 0)).1 := by
    rw [List.pairwise_reverse]
    refine List.pairwise_iff_getElem.mpr fun i j hi hj hij => ?_
    rw [List.getElem_range, List.getElem_range]
    rw [List.length_range] at hj
    exact (hlt i j hij hj).le
  refine (hperm.trans (List.reverse_perm _).symm).eq_of_pairwise (fun i j hi hj hij hji => ?_)
    hcutting hreverse
  have hi : i < pairs.length := List.mem_range.mp (hperm.mem_iff.mp hi)
  have hj : j < pairs.length := List.mem_range.mp (List.mem_reverse.mp hj)
  rcases Nat.lt_trichotomy i j with hless | heq | hgreater
  · exact absurd hij (Nat.not_le.mpr (hlt i j hless hj))
  · exact heq
  · exact absurd hji (Nat.not_le.mpr (hlt j i hgreater hi))

/-! ### Cutting, block by block -/

/-- `cutChild` with the numbers looked up; `starts` are the starts of the blocks. -/
def cutBlock (starts : ℕ → ℕ) (segs : List (List α)) (x : Block) : List (List α) :=
  if x.parent ≠ x.index then
    segs.set x.parent (cutOut (x.start - starts x.parent) (x.stop - starts x.parent)
      (segs.getD x.parent []))
  else segs

/-- `cutRoot` with the numbers looked up. -/
def cutRootBlock (rootSeg : List α) (x : Block) : List α :=
  if x.parent = x.index then cutOut x.start x.stop rootSeg else rootSeg

theorem cutOut_append (pre mid post : List α) {start stop : ℕ} (hstart : start = pre.length)
    (hstop : stop = pre.length + mid.length) :
    cutOut start stop (pre ++ mid ++ post) = pre ++ post := by
  subst hstart hstop
  rw [cutOut, List.append_assoc, List.take_left, ← List.append_assoc,
    ← List.length_append, List.drop_left]

/-- Cutting the blocks of a text that stands in block `p` empties its blocks and leaves their
braces in the text of `p`. -/
theorem foldl_cutBlock (t : Braced α) (front back : List (List α)) (pre post : List α)
    {p index base : ℕ} {starts : ℕ → ℕ}
    (hstarts : ∀ x ∈ t.blocks (some p) index base, starts x.index = x.start)
    (hfront : front.length = index) (hp : front[p]? = some (pre ++ t.source ++ post))
    (hbase : base = starts p + pre.length) :
    (t.blocks (some p) index base).reverse.foldl (cutBlock starts)
        (front ++ t.bodies.map Braced.source ++ back)
      = front.set p (pre ++ t.emptied ++ post) ++ t.bodies.map Braced.emptied ++ back := by
  have hlt : p < front.length := (List.getElem?_eq_some_iff.mp hp).1
  induction t generalizing p index base front back pre post with
  | nil =>
    have hself : front.set p (pre ++ [] ++ post) = front := by
      have hget := (List.getElem?_eq_some_iff.mp hp).2
      rw [show pre ++ [] ++ post = front[p] from hget.symm, List.set_getElem_self]
    show front ++ [] ++ back = front.set p (pre ++ [] ++ post) ++ [] ++ back
    rw [hself]
  | glyph a rest ih =>
    have hrest := ih front back (pre ++ [a]) post hstarts hfront (by simpa using hp)
      (by simp; omega) hlt
    simpa [Braced.blocks, Braced.bodies, Braced.emptied] using hrest
  | block o body c rest ihBody ihRest =>
    have hsource : pre ++ (Braced.block o body c rest).source ++ post
        = (pre ++ o :: body.source ++ [c]) ++ rest.source ++ post := by simp
    rw [hsource] at hp
    have hthis : starts index = base + 1 :=
      hstarts _ (Braced.mem_blocks_block.mpr (Or.inl rfl))
    -- the blocks behind this one
    have hcutRest := ihRest (front ++ body.source :: body.bodies.map Braced.source) back
      (pre ++ o :: body.source ++ [c]) post
      (fun x hx => hstarts x (Braced.mem_blocks_block.mpr (Or.inr (Or.inr hx))))
      (by simp [hfront]; omega) (by rw [List.getElem?_append_left hlt, hp])
      (by simp; omega) (by simp; omega)
    rw [List.set_append_left _ _ hlt] at hcutRest
    set front' := front.set p ((pre ++ o :: body.source ++ [c]) ++ rest.emptied ++ post)
      with hfront'
    have hlen' : front'.length = index := by rw [hfront', List.length_set, hfront]
    -- the blocks in it
    have hcutBody := ihBody (front' ++ [body.source]) (rest.bodies.map Braced.emptied ++ back) [] []
      (fun x hx => hstarts x (Braced.mem_blocks_block.mpr (Or.inr (Or.inl hx))))
      (by simp [hlen']) (by simp [← hlen']) (by simp [hthis]) (by simp [hlen'])
    rw [List.set_append_right _ _ hlen'.le, hlen', Nat.sub_self, List.set_cons_zero] at hcutBody
    -- the block itself
    have hget : (front' ++ body.emptied :: (body.bodies.map Braced.emptied ++
        (rest.bodies.map Braced.emptied ++ back))).getD p []
        = (pre ++ [o]) ++ body.source ++ (c :: rest.emptied ++ post) := by
      rw [List.getD_eq_getElem?_getD, List.getElem?_append_left (by rw [hlen', ← hfront]; exact hlt),
        hfront', List.getElem?_set_self hlt]
      simp
    have hcutThis : cutBlock starts (front' ++ body.emptied :: (body.bodies.map Braced.emptied ++
          (rest.bodies.map Braced.emptied ++ back))) (Braced.firstBlock (some p) index base body)
        = front.set p (pre ++ o :: c :: rest.emptied ++ post) ++ body.emptied ::
          (body.bodies.map Braced.emptied ++ (rest.bodies.map Braced.emptied ++ back)) := by
      have hne : p ≠ index := by omega
      show (if p ≠ index then List.set _ p (cutOut (base + 1 - starts p)
        (base + 1 + body.source.length - starts p) (List.getD _ p [])) else _) = _
      rw [if_pos hne, hget, cutOut_append (pre ++ [o]) body.source _ (by simp; omega)
        (by simp; omega), List.set_append_left _ _ (by rw [hlen', ← hfront]; exact hlt), hfront',
        List.set_set]
      simp
    simp only [Braced.blocks, List.reverse_cons, List.reverse_append, List.foldl_append,
      List.foldl_cons, List.foldl_nil, Braced.bodies, List.map_cons, List.map_append]
    simp only [List.append_assoc, List.cons_append, List.nil_append, List.append_nil] at *
    rw [hcutRest, hcutBody, hcutThis]
    rfl

/-- Cutting the blocks of a text that stands in no block empties the blocks in them. -/
theorem foldl_cutBlock_outermost (t : Braced α) (front back : List (List α)) {index base : ℕ}
    (starts : ℕ → ℕ) (hstarts : ∀ x ∈ t.blocks none index base, starts x.index = x.start)
    (hfront : front.length = index) :
    (t.blocks none index base).reverse.foldl (cutBlock starts)
        (front ++ t.bodies.map Braced.source ++ back)
      = front ++ t.bodies.map Braced.emptied ++ back := by
  induction t generalizing index base front back with
  | nil => rfl
  | glyph a rest ih => exact ih front back hstarts hfront
  | block o body c rest ihBody ihRest =>
    have hthis : starts index = base + 1 :=
      hstarts _ (Braced.mem_blocks_block.mpr (Or.inl rfl))
    have hcutRest := ihRest (front ++ body.source :: body.bodies.map Braced.source) back
      (fun x hx => hstarts x (Braced.mem_blocks_block.mpr (Or.inr (Or.inr hx))))
      (by simp [hfront]; omega)
    have hcutBody := foldl_cutBlock body (front ++ [body.source])
      (rest.bodies.map Braced.emptied ++ back) [] []
      (fun x hx => hstarts x (Braced.mem_blocks_block.mpr (Or.inr (Or.inl hx))))
      (by simp [hfront]) (by simp [← hfront]) (by simp [hthis])
    rw [List.set_append_right _ _ hfront.le, hfront, Nat.sub_self, List.set_cons_zero] at hcutBody
    have hcutThis : ∀ segs : List (List α),
        cutBlock starts segs (Braced.firstBlock none index base body) = segs :=
      fun segs => if_neg (not_not.mpr rfl)
    simp only [Braced.blocks, List.reverse_cons, List.reverse_append, List.foldl_append,
      List.foldl_cons, List.foldl_nil, Braced.bodies, List.map_cons, List.map_append]
    simp only [List.append_assoc, List.cons_append, List.nil_append, List.append_nil] at *
    rw [hcutRest, hcutBody, hcutThis]

/-- A block of a text that stands in a block has another block around it. -/
theorem parent_ne_index {t : Braced α} {p index base : ℕ} (hp : p < index) {x : Block}
    (hx : x ∈ t.blocks (some p) index base) : x.parent ≠ x.index := by
  have hindex := Braced.index_mem_blocks hx
  rcases Braced.parent_mem_blocks hx with hparent | hparent
  · rw [hparent, Option.getD_some]
    omega
  · omega

/-- Cutting the outermost blocks out of the root text leaves their braces. -/
theorem foldl_cutRootBlock (t : Braced α) (pre post : List α) (index base : ℕ)
    (hbase : pre.length = base) :
    (t.blocks none index base).reverse.foldl cutRootBlock (pre ++ t.source ++ post)
      = pre ++ t.emptied ++ post := by
  induction t generalizing index base pre post with
  | nil => rfl
  | glyph a rest ih =>
    have hrest := ih (pre ++ [a]) post index (base + 1) (by simp [hbase])
    simpa [Braced.blocks, Braced.emptied] using hrest
  | block o body c rest ihBody ihRest =>
    have hcutRest := ihRest (pre ++ o :: body.source ++ [c]) post (index + 1 + body.blockCount)
      (base + 1 + body.source.length + 1) (by simp; omega)
    have hcutBody : ∀ rootSeg : List α, (body.blocks (some index) (index + 1) (base + 1)).reverse.foldl
        cutRootBlock rootSeg = rootSeg := by
      intro rootSeg
      refine (List.foldl_ext _ (fun seg _ => seg) rootSeg fun seg x hx => ?_).trans
        (List.foldl_fixed' (fun _ => rfl) _)
      exact if_neg (parent_ne_index (Nat.lt_succ_self _) (List.mem_reverse.mp hx))
    have hcutThis : cutRootBlock ((pre ++ [o]) ++ body.source ++ (c :: rest.emptied ++ post))
        (Braced.firstBlock none index base body) = (pre ++ [o]) ++ (c :: rest.emptied ++ post) := by
      show (if index = index then _ else _) = _
      rw [if_pos rfl]
      exact cutOut_append _ _ _ (by simp [hbase]) (by simp [hbase])
    simp only [Braced.blocks, List.reverse_cons, List.reverse_append, List.foldl_append,
      List.foldl_cons, List.foldl_nil, Braced.emptied, Braced.source]
    simp only [List.append_assoc, List.cons_append, List.nil_append] at *
    rw [hcutRest, hcutBody, hcutThis]

/-- The pair and the parent of a block are found under its number. -/
theorem getD_blocks {t : Braced α} {x : Block} (hx : x ∈ t.blocks none 0 0) :
    ((t.blocks none 0 0).map Block.span).getD x.index (0, 0) = x.span ∧
      ((t.blocks none 0 0).map Block.parent).getD x.index 0 = x.parent := by
  obtain ⟨i, hi⟩ := List.mem_iff_getElem?.mp hx
  rw [Braced.index_of_getElem? hi, Nat.zero_add]
  simp [List.getD_eq_getElem?_getD, hi]

/-- The raw text of a block is its body. -/
theorem map_slice_blocks (t : Braced α) (pre post : List α) (outer : Option ℕ) (index : ℕ) :
    (t.blocks outer index pre.length).map
        (fun x => ((pre ++ t.source ++ post).take x.stop).drop x.start)
      = t.bodies.map Braced.source := by
  induction t generalizing pre post outer index with
  | nil => rfl
  | glyph a rest ih => simpa [Braced.blocks, Braced.bodies] using ih (pre ++ [a]) post outer index
  | block o body c rest ihBody ihRest =>
    have hbody := ihBody (pre ++ [o]) (c :: rest.source ++ post) (some index) (index + 1)
    have hrest := ihRest (pre ++ o :: body.source ++ [c]) post outer (index + 1 + body.blockCount)
    have hlen : (pre ++ o :: body.source ++ [c]).length
        = pre.length + 1 + body.source.length + 1 := by
      simp
      omega
    rw [hlen] at hrest
    have hthis : ((pre ++ (Braced.block o body c rest).source ++ post).take
        (pre.length + 1 + body.source.length)).drop (pre.length + 1) = body.source := by
      have hsplit : pre ++ (Braced.block o body c rest).source ++ post
          = (pre ++ [o] ++ body.source) ++ (c :: rest.source ++ post) := by simp
      have htake : pre.length + 1 + body.source.length = (pre ++ [o] ++ body.source).length := by
        simp
        omega
      rw [hsplit, htake, List.take_left, show pre.length + 1 = (pre ++ [o]).length by simp,
        List.drop_left]
    simp only [Braced.blocks, Braced.bodies, List.map_cons, List.map_append, hthis]
    simp only [Braced.source_block, List.append_assoc, List.cons_append, List.nil_append,
      List.length_append, List.length_singleton] at hbody hrest ⊢
    rw [hbody, hrest]

/-- **The segments of a nested text** are the text and the bodies of its blocks, all with their
blocks emptied. -/
theorem parseCodeSegs_braced (t : Braced α) :
    parseCodeSegs t.source ((t.blocks none 0 0).map Block.span)
        ((t.blocks none 0 0).map Block.parent)
      = t.emptied :: t.bodies.map Braced.emptied := by
  set blocks := t.blocks none 0 0 with hblocks
  set pairs := blocks.map Block.span
  set parents := blocks.map Block.parent
  have horder : cuttingOrder pairs = blocks.reverse.map Block.index := by
    rw [cuttingOrder_eq (List.pairwise_map.mpr (Braced.pairwise_blocks t)), List.map_reverse,
      hblocks, Braced.map_index_blocks, List.range_eq_range', List.length_map,
      Braced.length_blocks]
  have hraw : pairs.map (fun p => (t.source.take p.2).drop p.1) = t.bodies.map Braced.source := by
    simpa [pairs, Function.comp_def, Block.span] using map_slice_blocks t [] [] none 0
  rw [parseCodeSegs, horder, List.foldl_map, List.foldl_map, hraw]
  congr 1
  · have hcut := foldl_cutRootBlock t [] [] 0 0 rfl
    simp only [List.nil_append, List.append_nil] at hcut
    refine Eq.trans (List.foldl_ext _ _ _ fun seg x hx => ?_) hcut
    obtain ⟨hpair, hparent⟩ := getD_blocks (List.mem_reverse.mp hx)
    rw [cutRoot, hpair, hparent]
    rfl
  · have hstarts : ∀ x ∈ blocks, (pairs.getD x.index (0, 0)).1 = x.start := by
      intro x hx
      rw [(getD_blocks hx).1, Block.span]
    have hcut := foldl_cutBlock_outermost t [] [] (fun i => (pairs.getD i (0, 0)).1) hstarts rfl
    simp only [List.nil_append, List.append_nil] at hcut
    refine Eq.trans (List.foldl_ext _ _ _ fun segs x hx => ?_) hcut
    obtain ⟨hpair, hparent⟩ := getD_blocks (List.mem_reverse.mp hx)
    rw [cutChild, hpair, hparent]
    rfl

end Nested

end Csc512
