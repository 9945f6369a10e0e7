import Csc512.Cdup.ParseFile
import Csc512.Lib.PatternLanguage
import Csc512.Lib.Separated

/-!
# What scope paths identify

The path of a segment joins the names on the way from the root. Only loops and branches are
numbered; every other block is named by its header alone, and a header that shows no name gives the
same name as the next one without.

## Main results

* `chain_injective` — blocks that are named apart have different names on their ways from the root
* `scopesIdentify_iff` — when paths and scoped names tell segments apart
* `not_scopesIdentify` — two blocks without headers share a path and a slot
-/

namespace Csc512

/-! ### How headers name blocks -/

/-- How the header of a block names it. -/
inductive Naming where
  | file
  | bare
  | own (name : Text)
  | typedefed
  | loop
  | branch
deriving DecidableEq

variable (U : CharTable)

/-- The name in the header of a function with a one-word type. -/
def functionName (head : Option Text) : Option Text :=
  head.bind fun head =>
    let base := rstripChar '*' (firstWord head)
    if ((identPattern U).fullMatch base).isSome ∧ 1 < (words head).length then
      (identPrefix U (afterType head (firstWord head))).bind fun nm =>
        if (strip nm.2).head? = some '(' then some nm.1 else none
    else none

/-- The word behind `struct` in a header. -/
def tagName (head : Option Text) : Option Text :=
  head.bind fun head => (words head)[1]?.map fun w => strip (rstripChar '{' w)

/-- How a header names its block. -/
def naming (head : Option Text) : Naming :=
  match getSegType head with
  | .root => .file
  | .function => (functionName U head).elim .bare .own
  | .struct =>
    if head.any fun head => contains (lit "typedef") (strip head) then .typedefed
    else (tagName head).elim .bare .own
  | .loop => .loop
  | .branch => .branch
  | .cls => .bare

theorem getSegName_eq (head : Option Text) (k : ℕ) :
    getSegName U (getSegType head) head k = match naming U head with
      | .file => lit "root"
      | .bare => lit "seg_" ++ natText k
      | .own name => name
      | .typedefed => lit "__typedef__"
      | .loop => lit "loop_" ++ natText k
      | .branch => lit "branch_" ++ natText k := by
  have hfunction : getSegName U .function head k
      = (functionName U head).getD (lit "seg_" ++ natText k) := by
    unfold getSegName functionName
    rfl
  rw [naming]
  cases hty : getSegType head with
  | root => rfl
  | loop => rfl
  | branch => rfl
  | cls => rfl
  | function =>
    rw [hfunction]
    cases functionName U head <;> rfl
  | struct =>
    cases head with
    | none => cases hty
    | some head =>
      have hstruct : getSegName U .struct (some head) k
          = (if contains (lit "typedef") (strip head) then some (lit "__typedef__")
              else tagName (some head)).getD (lit "seg_" ++ natText k) := by
        unfold getSegName tagName
        rfl
      rw [hstruct]
      simp only [Option.any_some]
      split_ifs
      · rfl
      · cases tagName (some head) <;> rfl

section Blocks

variable (P : SegmentStmts Char)

/-- The name of a structure without a name of its own: what stands behind the first such structure
in the segment around it. -/
def typedefOf (i : ℕ) : Text :=
  ((typedefName U (P.stmts.getD (P.parents.getD i 0) [])).filter (· ≠ lit "__typedef__")).getD
    (lit "struct_0")

/-- The number of a loop or a branch among those with the same parent. -/
def siblingNumber (i : ℕ) : ℕ :=
  ((List.range (i + 1)).filter fun j => P.parents.getD j 0 = P.parents.getD i 0 ∧
    getSegType (P.header j) = getSegType (P.header i)).length

/-- The name of a block, by the way its header names it. -/
def blockName (i : ℕ) : Text :=
  match naming U (P.header i) with
  | .file => lit "root"
  | .bare => lit "seg_0"
  | .own name => if name = lit "__typedef__" then typedefOf U P i else name
  | .typedefed => typedefOf U P i
  | .loop => lit "loop_" ++ natText (siblingNumber P i)
  | .branch => lit "branch_" ++ natText (siblingNumber P i)

/-- Two blocks of the same segment. -/
structure Siblings (i j : ℕ) : Prop where
  ne : i ≠ j
  pos : 0 < i ∧ 0 < j
  lt : i < P.stmts.length ∧ j < P.stmts.length
  parent : P.parents.getD i 0 = P.parents.getD j 0

/-- One block lies inside another one; the names on the way down. -/
inductive Encloses (top : ℕ) : ℕ → List Text → Prop
  | child {i : ℕ} (hi : 0 < i) (hlt : i < P.stmts.length) (htop : P.parents.getD i 0 = top) :
    Encloses top i [blockName U P i]
  | step {i : ℕ} {names : List Text} (hi : 0 < i) (hlt : i < P.stmts.length)
      (h : Encloses top (P.parents.getD i 0) names) : Encloses top i (names ++ [blockName U P i])

/-- The names of the variables that a segment declares, those with fields field by field. -/
def variableNames (i : ℕ) : List Text :=
  let known := userTypes U P
  let structs := structFields U P
  let params := if getSegType (P.header i) = .function then
    extractParams (P.header i) [] known structs else []
  (params ++ extractMemory U known (P.stmts.getD i []) [] structs).map Slot.name

/-- The headers give different names to the blocks of a segment, and no block has the name of a
variable around it with a field that the block declares too. -/
structure NamedApart : Prop where
  /-- Of the blocks of a segment, only loops and branches are named in the same way. -/
  namings : ∀ i j, Siblings P i j → naming U (P.header i) = naming U (P.header j) →
    naming U (P.header i) = .loop ∨ naming U (P.header i) = .branch
  /-- No two ways of naming meet in the same name. -/
  spelled : ∀ i j, Siblings P i j → naming U (P.header i) ≠ naming U (P.header j) →
    blockName U P i ≠ blockName U P j
  fields : ∀ i j names, Encloses U P i j names → ∀ m ∈ variableNames U P i,
    ∀ n ∈ variableNames U P j, m ≠ separated '.' names n

end Blocks

/-- Different segments have different scope paths, and their variables different scoped names. -/
structure ScopesIdentify (segments : List Segment) : Prop where
  paths : segments.Pairwise fun s t => s.scopePath ≠ t.scopePath
  slots : segments.Pairwise fun s t =>
    ∀ a ∈ s.memory, ∀ b ∈ t.memory, a.scopedName ≠ b.scopedName

/-! ### The names of the segments -/

section Names

variable {U} {P : SegmentStmts Char}

theorem segTypes_getD {i : ℕ} (hi : i < P.stmts.length) :
    (segTypes P).getD i .root = getSegType (P.header i) := by
  rw [segTypes, List.getD_eq_getElem?_getD, List.getElem?_map, List.getElem?_range hi]
  rfl

/-- Loops and branches are named as what they are. -/
theorem naming_eq_iff (head : Option Text) :
    (naming U head = .loop ↔ getSegType head = .loop) ∧
      (naming U head = .branch ↔ getSegType head = .branch) := by
  rw [naming]
  cases getSegType head with
  | function => cases functionName U head <;> simp
  | struct =>
    dsimp only
    split_ifs
    · simp
    · cases tagName head <;> simp
  | _ => simp

theorem length_segNames : (segNames U P).length = P.stmts.length := by
  rw [segNames, List.length_map, List.length_zipIdx, firstNames, List.length_map, List.length_range]

/-- **The names of the segments** are read off their headers. -/
theorem segNames_getD {i : ℕ} (hi : i < P.stmts.length) :
    (segNames U P).getD i [] = blockName U P i := by
  have hnumber : ((List.range (i + 1)).filter fun j => P.parents.getD j 0 = P.parents.getD i 0 ∧
      (segTypes P).getD j .root = getSegType (P.header i)).length = siblingNumber P i := by
    refine congrArg List.length (List.filter_congr fun j hj => ?_)
    rw [segTypes_getD (lt_of_le_of_lt (Nat.le_of_lt_succ (List.mem_range.mp hj)) hi)]
  obtain ⟨k, hfirst, hk⟩ : ∃ k, (firstNames U P)[i]?
      = some (getSegName U (getSegType (P.header i)) (P.header i) k) ∧
      k = if getSegType (P.header i) = .loop ∨ getSegType (P.header i) = .branch then
        siblingNumber P i else 0 := by
    refine ⟨_, ?_, rfl⟩
    rw [firstNames, List.getElem?_map, List.getElem?_range hi, Option.map_some]
    simp only [segTypes_getD hi, hnumber]
  rw [segNames, List.getD_eq_getElem?_getD, List.getElem?_map, List.getElem?_zipIdx, hfirst,
    Option.map_some, Option.map_some, Option.getD_some, Nat.zero_add, getSegName_eq, blockName,
    typedefOf]
  obtain ⟨hloop, hbranch⟩ := naming_eq_iff (U := U) (P.header i)
  cases hnaming : naming U (P.header i) with
  | file => exact if_neg (by decide : lit "root" ≠ lit "__typedef__")
  | bare =>
    have hzero : k = 0 := by
      rw [hk, if_neg]
      rintro (h | h)
      · cases hnaming.symm.trans (hloop.mpr h)
      · cases hnaming.symm.trans (hbranch.mpr h)
    rw [hzero]
    exact if_neg (by decide : lit "seg_" ++ natText 0 ≠ lit "__typedef__")
  | own name => rfl
  | typedefed => exact if_pos rfl
  | loop =>
    rw [hk, if_pos (Or.inl (hloop.mp hnaming))]
    exact if_neg fun h => absurd (List.cons.inj h).1 (by decide)
  | branch =>
    rw [hk, if_pos (Or.inr (hbranch.mp hnaming))]
    exact if_neg fun h => absurd (List.cons.inj h).1 (by decide)

/-- Loops and branches with the same parent have different numbers. -/
theorem siblingNumber_lt {i j : ℕ} (hij : i < j)
    (hparent : P.parents.getD i 0 = P.parents.getD j 0)
    (hty : getSegType (P.header i) = getSegType (P.header j)) :
    siblingNumber P i < siblingNumber P j := by
  simp only [siblingNumber, hparent, hty]
  rw [List.range_succ (n := j), List.filter_append, List.length_append,
    List.filter_cons_of_pos (by simp)]
  have hle := ((List.range_sublist.mpr (Nat.succ_le_of_lt hij)).filter fun k =>
    P.parents.getD k 0 = P.parents.getD j 0 ∧
      getSegType (P.header k) = getSegType (P.header j)).length_le
  exact Nat.lt_of_le_of_lt hle (by simp)

/-- Blocks that are named in the same way have the same name, unless they are numbered. -/
theorem blockName_eq_of_naming_eq {i j : ℕ} (hparent : P.parents.getD i 0 = P.parents.getD j 0)
    (hnaming : naming U (P.header i) = naming U (P.header j))
    (hloop : naming U (P.header i) ≠ .loop) (hbranch : naming U (P.header i) ≠ .branch) :
    blockName U P i = blockName U P j := by
  rw [blockName, blockName, ← hnaming]
  cases h : naming U (P.header i) with
  | file => rfl
  | bare => rfl
  | own name => simp only [typedefOf, hparent]
  | typedefed => simp only [typedefOf, hparent]
  | loop => exact absurd h hloop
  | branch => exact absurd h hbranch

/-- Blocks that are named apart have different names: loops and branches have different numbers. -/
theorem NamedApart.blockName_ne (h : NamedApart U P) {i j : ℕ} (hij : Siblings P i j) :
    blockName U P i ≠ blockName U P j := by
  by_cases hnaming : naming U (P.header i) = naming U (P.header j)
  · have hnumber : getSegType (P.header i) = getSegType (P.header j) →
        siblingNumber P i ≠ siblingNumber P j := by
      intro hty
      rcases Nat.lt_or_gt_of_ne hij.ne with hlt | hlt
      · exact (siblingNumber_lt hlt hij.parent hty).ne
      · exact (siblingNumber_lt hlt hij.parent.symm hty.symm).ne'
    obtain ⟨hloop, hbranch⟩ := naming_eq_iff (U := U) (P.header i)
    obtain ⟨hloop', hbranch'⟩ := naming_eq_iff (U := U) (P.header j)
    intro heq
    rw [blockName, blockName, ← hnaming] at heq
    rcases h.namings i j hij hnaming with hkind | hkind
    · rw [hkind] at heq hnaming
      exact hnumber ((hloop.mp hkind).trans (hloop'.mp hnaming.symm).symm)
        (natText_injective (List.append_cancel_left heq))
    · rw [hkind] at heq hnaming
      exact hnumber ((hbranch.mp hkind).trans (hbranch'.mp hnaming.symm).symm)
        (natText_injective (List.append_cancel_left heq))
  · exact h.spelled i j hij hnaming

/-! ### Names without dots -/

open Pattern in
theorem dot_not_mem_of_reads_identPattern {t : Text} (h : Reads (identPattern U) t) : '.' ∉ t := by
  cases h with
  | @seq _ _ s w hp hq =>
    cases hp with
    | @char _ c hc =>
      have hword : ¬ isWordChar U '.' := by
        rw [isWordChar, U.isAlnum_ascii '.' (by decide)]
        decide
      intro hdot
      rcases List.mem_cons.mp hdot with rfl | hdot
      · exact absurd hc (by decide)
      · exact hword (hq.forall_of_star_char _ hdot)

theorem dot_not_mem_typedefOf (i : ℕ) : '.' ∉ typedefOf U P i := by
  rw [typedefOf]
  cases h : (typedefName U (P.stmts.getD (P.parents.getD i 0) [])).filter
      (· ≠ lit "__typedef__") with
  | none => decide
  | some name =>
    obtain ⟨hname, -⟩ := Option.filter_eq_some_iff.mp h
    obtain ⟨p, -, hp⟩ := List.exists_of_findSome?_eq_some hname
    dsimp only at hp
    split_ifs at hp with hident
    obtain rfl := Option.some.inj hp
    obtain ⟨c, hc⟩ := Option.isSome_iff_exists.mp hident.2.2
    obtain ⟨t, ht, hreads⟩ := Pattern.exists_reads_of_mem_run _ _ c (List.mem_of_find?_eq_some hc)
    have hdone : c.after = [] := by simpa using List.find?_some hc
    rw [hdone, List.append_nil] at ht
    have hall : bareStmt p.2 = t := ht
    rw [Option.getD_some, hall]
    exact dot_not_mem_of_reads_identPattern hreads

theorem dot_not_mem_functionName {head : Option Text} {name : Text}
    (h : functionName U head = some name) : '.' ∉ name := by
  obtain ⟨text, -, h⟩ := Option.bind_eq_some_iff.mp h
  dsimp only at h
  split_ifs at h
  obtain ⟨nm, hnm, h⟩ := Option.bind_eq_some_iff.mp h
  split_ifs at h
  obtain rfl := Option.some.inj h
  obtain ⟨c, hc, rfl⟩ := Option.map_eq_some_iff.mp hnm
  obtain ⟨t, ht, hreads⟩ := Pattern.exists_reads_of_mem_run _ _ c (List.mem_of_head? hc)
  rw [Cursor.between, ht, List.length_append, Nat.add_sub_cancel, List.take_left]
  exact dot_not_mem_of_reads_identPattern hreads

theorem dot_not_mem_append_natText {word : String} (hword : '.' ∉ lit word) (k : ℕ) :
    '.' ∉ lit word ++ natText k := by
  intro h
  rcases List.mem_append.mp h with h | h
  · exact hword h
  · exact absurd (isDigit_of_mem_natText h) (by decide)

/-- Tags are identifiers of C, as far as dots go. -/
def DotFreeTags (P : SegmentStmts Char) : Prop :=
  ∀ i < P.stmts.length, getSegType (P.header i) = .struct →
    ∀ tag ∈ tagName (P.header i), '.' ∉ tag

theorem dot_not_mem_blockName (htags : DotFreeTags P) {i : ℕ} (hi : i < P.stmts.length) :
    '.' ∉ blockName U P i := by
  have hown : ∀ name, naming U (P.header i) = .own name → '.' ∉ name := by
    intro name hname
    rw [naming] at hname
    cases hty : getSegType (P.header i) with
    | function =>
      rw [hty] at hname
      cases hfunction : functionName U (P.header i) with
      | none =>
        rw [hfunction] at hname
        cases hname
      | some f =>
        rw [hfunction] at hname
        obtain rfl := Naming.own.inj hname
        exact dot_not_mem_functionName hfunction
    | struct =>
      rw [hty] at hname
      dsimp only at hname
      split_ifs at hname
      cases htag : tagName (P.header i) with
      | none =>
        rw [htag] at hname
        cases hname
      | some tag =>
        rw [htag] at hname
        obtain rfl := Naming.own.inj hname
        exact htags i hi hty tag htag
    | _ =>
      rw [hty] at hname
      cases hname
  rw [blockName]
  cases h : naming U (P.header i) with
  | file => exact (by decide : '.' ∉ lit "root")
  | bare => exact (by decide : '.' ∉ lit "seg_0")
  | own name =>
    dsimp only
    split_ifs
    · exact dot_not_mem_typedefOf i
    · exact hown name h
  | typedefed => exact dot_not_mem_typedefOf i
  | loop => exact dot_not_mem_append_natText (by decide) _
  | branch => exact dot_not_mem_append_natText (by decide) _

end Names

/-! ### The way from the root -/

/-- The bound on the nesting does not matter for a segment with a smaller number. -/
theorem scopeNames_eq_of_lt {names : List Text} {parents : List ℕ}
    (hle : ∀ i, parents.getD i 0 ≤ i) {i m n : ℕ} (hm : i < m) (hn : i < n) :
    scopeNames names parents m i = scopeNames names parents n i := by
  induction i using Nat.strongRecOn generalizing m n with
  | ind i ih =>
    cases m with
    | zero => exact absurd hm (Nat.not_lt_zero i)
    | succ m =>
      cases n with
      | zero => exact absurd hn (Nat.not_lt_zero i)
      | succ n =>
        rw [scopeNames, scopeNames]
        by_cases hself : parents.getD i 0 = i
        · simp only [if_pos hself]
        · have hlt := lt_of_le_of_ne (hle i) hself
          simp only [if_neg hself]
          rw [ih _ hlt (lt_of_lt_of_le hlt (Nat.le_of_lt_succ hm))
            (lt_of_lt_of_le hlt (Nat.le_of_lt_succ hn))]

section Way

variable {U} {P : SegmentStmts Char}

/-- The names on the way from the root to a segment. -/
def wayNames (U : CharTable) (P : SegmentStmts Char) (i : ℕ) : List Text :=
  scopeNames (segNames U P) P.parents P.stmts.length i

theorem buildScopePath_eq (i : ℕ) :
    buildScopePath (segNames U P) P.parents i = ['.'].intercalate (wayNames U P i) := by
  rw [buildScopePath, length_segNames, wayNames]

theorem wayNames_ne_nil {i : ℕ} (hi : i < P.stmts.length) : wayNames U P i ≠ [] := by
  obtain ⟨n, hn⟩ := Nat.exists_eq_succ_of_ne_zero (Nat.ne_zero_of_lt hi)
  rw [wayNames, hn, scopeNames]
  simp

/-- What the braces of a file say about parents. -/
structure ParentsBefore (P : SegmentStmts Char) : Prop where
  root : P.parents.getD 0 0 = 0
  lt : ∀ i, 0 < i → P.parents.getD i 0 < i

theorem ParentsBefore.of_segmentStmts {opts : Includes} {file : Text}
    (hP : segmentStmts opts file = some P) : ParentsBefore P :=
  ⟨(parents_segmentStmts hP 0).mpr rfl, fun _ hi => parents_lt_segmentStmts hP hi⟩

variable (hparents : ParentsBefore P)

include hparents

theorem wayNames_zero (hlen : 0 < P.stmts.length) : wayNames U P 0 = [blockName U P 0] := by
  obtain ⟨n, hn⟩ := Nat.exists_eq_succ_of_ne_zero (Nat.ne_zero_of_lt hlen)
  rw [wayNames, hn, scopeNames]
  simp only [if_pos hparents.root, List.nil_append]
  rw [segNames_getD hlen]

theorem wayNames_pos {i : ℕ} (hi : 0 < i) (hlen : i < P.stmts.length) :
    wayNames U P i = wayNames U P (P.parents.getD i 0) ++ [blockName U P i] := by
  obtain ⟨n, hn⟩ := Nat.exists_eq_succ_of_ne_zero (Nat.ne_zero_of_lt hlen)
  have hle : ∀ i, P.parents.getD i 0 ≤ i := by
    intro i
    rcases Nat.eq_zero_or_pos i with rfl | hi
    · exact hparents.root.le
    · exact (hparents.lt i hi).le
  have hlt := hparents.lt i hi
  rw [wayNames, wayNames, hn, scopeNames]
  simp only [if_neg hlt.ne]
  rw [segNames_getD hlen, scopeNames_eq_of_lt hle (show P.parents.getD i 0 < n by omega)
    (show P.parents.getD i 0 < n.succ by omega)]

theorem dot_not_mem_wayNames (htags : DotFreeTags P) {i : ℕ} (hlen : i < P.stmts.length) :
    ∀ name ∈ wayNames U P i, '.' ∉ name := by
  induction i using Nat.strongRecOn with
  | ind i ih =>
    rcases Nat.eq_zero_or_pos i with rfl | hi
    · rw [wayNames_zero hparents hlen]
      exact List.forall_mem_singleton.mpr (dot_not_mem_blockName htags hlen)
    · have hlt := hparents.lt i hi
      rw [wayNames_pos hparents hi hlen]
      intro name hname
      rcases List.mem_append.mp hname with hname | hname
      · exact ih _ hlt (hlt.trans hlen) name hname
      · exact List.mem_singleton.mp hname ▸ dot_not_mem_blockName htags hlen

/-- **Different ways**: blocks that are named apart have different names on the way. -/
theorem wayNames_injective (hne : ∀ i j, Siblings P i j → blockName U P i ≠ blockName U P j)
    {i j : ℕ} (hi : i < P.stmts.length) (hj : j < P.stmts.length)
    (h : wayNames U P i = wayNames U P j) : i = j := by
  have hlonger : ∀ {k}, 0 < k → k < P.stmts.length →
      (wayNames U P k).length ≠ (wayNames U P 0).length := by
    intro k hk hlen heq
    rw [wayNames_zero hparents (Nat.zero_lt_of_lt hlen), wayNames_pos hparents hk hlen] at heq
    have hnil := wayNames_ne_nil (U := U) ((hparents.lt k hk).trans hlen)
    simp only [List.length_append, List.length_singleton] at heq
    exact hnil (List.length_eq_zero_iff.mp (by omega))
  induction i using Nat.strongRecOn generalizing j with
  | ind i ih =>
    rcases Nat.eq_zero_or_pos i with rfl | hi0 <;> rcases Nat.eq_zero_or_pos j with rfl | hj0
    · rfl
    · exact absurd (congrArg List.length h).symm (hlonger hj0 hj)
    · exact absurd (congrArg List.length h) (hlonger hi0 hi)
    · rw [wayNames_pos hparents hi0 hi, wayNames_pos hparents hj0 hj] at h
      obtain ⟨hway, hname⟩ := List.append_inj' h rfl
      have hparent := ih _ (hparents.lt i hi0) ((hparents.lt i hi0).trans hi)
        ((hparents.lt j hj0).trans hj) hway
      by_contra hij
      exact hne i j ⟨hij, ⟨hi0, hj0⟩, ⟨hi, hj⟩, hparent⟩ (List.singleton_inj.mp hname)

/-- A block that lies inside another one has more names on the way. -/
theorem wayNames_of_encloses {i j : ℕ} {names : List Text} (h : Encloses U P i j names) :
    i < j ∧ j < P.stmts.length ∧ wayNames U P j = wayNames U P i ++ names := by
  induction h with
  | child hj hlen htop =>
    exact ⟨htop ▸ hparents.lt _ hj, hlen, htop ▸ wayNames_pos hparents hj hlen⟩
  | @step j names hj hlen _ ih =>
    obtain ⟨hlt, -, hway⟩ := ih
    exact ⟨hlt.trans (hparents.lt j hj), hlen, by
      rw [wayNames_pos hparents hj hlen, hway, List.append_assoc]⟩

/-- And the other way round, when ways are different. -/
theorem encloses_of_wayNames
    (hne : ∀ i j, Siblings P i j → blockName U P i ≠ blockName U P j) {i j : ℕ}
    (hi : i < P.stmts.length) (hj : j < P.stmts.length) {names : List Text} (hnames : names ≠ [])
    (h : wayNames U P j = wayNames U P i ++ names) : Encloses U P i j names := by
  induction j using Nat.strongRecOn generalizing names with
  | ind j ih =>
    obtain ⟨names, name, rfl⟩ := List.eq_nil_or_concat' names |>.resolve_left hnames
    rw [← List.append_assoc] at h
    rcases Nat.eq_zero_or_pos j with rfl | hj0
    · rw [wayNames_zero hparents hj] at h
      have hzero : [] ++ [blockName U P 0] = wayNames U P i ++ names ++ [name] := h
      have hnil := (List.append_inj' hzero rfl).1
      exact absurd (List.append_eq_nil_iff.mp hnil.symm).1 (wayNames_ne_nil hi)
    · have hlt := hparents.lt j hj0
      rw [wayNames_pos hparents hj0 hj] at h
      obtain ⟨hway, hname⟩ := List.append_inj' h rfl
      obtain rfl := List.singleton_inj.mp hname
      rcases List.eq_nil_or_concat' names with rfl | ⟨names', last, rfl⟩
      · rw [List.append_nil] at hway
        exact .child hj0 hj (wayNames_injective hparents hne (hlt.trans hj) hi hway)
      · exact .step hj0 hj (ih _ hlt (hlt.trans hj) (by simp) hway)

end Way

/-! ### The slots of a segment -/

/-- A slot in the scope with a path. -/
def Slot.placed (path : Text) (slot : Slot) : Slot :=
  { slot with scopedName := path ++ '.' :: slot.name }

theorem fieldSlots_eq (path var ty : Text) (fields : List Text) (param : Bool) :
    fieldSlots path var ty fields param
      = (fieldSlots [] var ty fields param).map (Slot.placed path) := by
  rw [fieldSlots, fieldSlots, List.map_map]
  exact List.map_congr_left fun field _ => by simp [Slot.placed]

theorem paramSlots_eq (path : Text) (known : List Text) (structs : StructFields) (param : Text) :
    paramSlots path known structs param
      = (paramSlots [] known structs param).map (Slot.placed path) := by
  unfold paramSlots
  dsimp only
  split_ifs
  · rfl
  · rfl
  · cases structs.get? (rstripChar '*' ((words param).headD [])) with
    | none => rfl
    | some fields => exact fieldSlots_eq _ _ _ _ _

theorem extractParams_eq (head : Option Text) (path : Text) (known : List Text)
    (structs : StructFields) :
    extractParams head path known structs
      = (extractParams head [] known structs).map (Slot.placed path) := by
  unfold extractParams
  cases head.bind betweenParens with
  | none => rfl
  | some inner =>
    dsimp only
    split_ifs
    · rfl
    · rw [List.map_flatMap]
      exact congrArg (List.flatMap · _) (funext (paramSlots_eq path known structs))

theorem declaredSlots_eq (known : List Text) (path : Text) (structs : StructFields) (stmt : Text) :
    declaredSlots U known path structs stmt
      = (declaredSlots U known [] structs stmt).map (Slot.placed path) := by
  unfold declaredSlots
  dsimp only
  split
  · cases structs.get? (rstripChar '*'
        ((classifyStatement U known [] stmt).type.getD (lit "unknown"))) with
    | none => rfl
    | some fields => exact fieldSlots_eq _ _ _ _ _
  · rfl
  · rfl

theorem extractMemory_eq (known raws : List Text) (path : Text) (structs : StructFields) :
    extractMemory U known raws path structs
      = (extractMemory U known raws [] structs).map (Slot.placed path) := by
  rw [extractMemory, extractMemory, List.map_flatMap]
  exact congrArg (List.flatMap · _) (funext (declaredSlots_eq U known path structs))

section Segments

variable {U} {P : SegmentStmts Char}

/-- The scoped names of a segment are the names of its variables behind its path. -/
theorem map_scopedName_buildSegment (i : ℕ) (earlier : List Segment) :
    (buildSegment U P i earlier).memory.map Slot.scopedName
      = (variableNames U P i).map fun name =>
        (buildSegment U P i earlier).scopePath ++ '.' :: name := by
  have hmemory : (buildSegment U P i earlier).memory
      = ((if getSegType (P.header i) = .function then
            extractParams (P.header i) [] (userTypes U P) (structFields U P) else []) ++
          extractMemory U (userTypes U P) (P.stmts.getD i []) [] (structFields U P)).map
        (Slot.placed (buildSegment U P i earlier).scopePath) := by
    rw [List.map_append, ← extractMemory_eq]
    refine congrArg (· ++ _) ?_
    rw [apply_ite (List.map _), ← extractParams_eq]
    rfl
  rw [hmemory, variableNames, List.map_map, List.map_map]
  rfl

theorem scopePath_buildSegment (i : ℕ) (earlier : List Segment) :
    (buildSegment U P i earlier).scopePath = ['.'].intercalate (wayNames U P i) :=
  buildScopePath_eq i

/-- What holds of all pairs of segments can be said of their numbers. -/
theorem pairwise_buildSegments {R : Segment → Segment → Prop} {Q : ℕ → ℕ → Prop}
    (hR : ∀ i j, i < j → j < P.stmts.length → ∀ earlier earlier',
      R (buildSegment U P i earlier) (buildSegment U P j earlier') ↔ Q i j) :
    (buildSegments U P).Pairwise R ↔ ∀ i j, i < j → j < P.stmts.length → Q i j := by
  obtain ⟨hlen, hbuild⟩ := buildSegments_spec U P
  rw [List.pairwise_iff_getElem]
  constructor
  · intro h i j hij hj
    obtain ⟨earlier, hi'⟩ := hbuild i _ (List.getElem?_eq_getElem (by omega))
    obtain ⟨earlier', hj'⟩ := hbuild j _ (List.getElem?_eq_getElem (by omega))
    have hrel := h i j (by omega) (by omega) hij
    rw [hi', hj'] at hrel
    exact (hR i j hij hj earlier earlier').mp hrel
  · intro h i j hi hj hij
    obtain ⟨earlier, hi'⟩ := hbuild i _ (List.getElem?_eq_getElem hi)
    obtain ⟨earlier', hj'⟩ := hbuild j _ (List.getElem?_eq_getElem hj)
    rw [hi', hj']
    exact (hR i j hij (by omega) earlier earlier').mpr (h i j hij (by omega))

variable (hparents : ParentsBefore P) (htags : DotFreeTags P)

include hparents htags

/-- Paths are equal when the names on the way are. -/
theorem scopePath_eq_iff {i j : ℕ} (hi : i < P.stmts.length) (hj : j < P.stmts.length)
    (earlier earlier' : List Segment) :
    (buildSegment U P i earlier).scopePath = (buildSegment U P j earlier').scopePath ↔
      wayNames U P i = wayNames U P j := by
  have hnil : ∀ rest : List Text, [] = separated '.' rest [] → rest = [] := by
    intro rest h
    cases rest with
    | nil => rfl
    | cons name rest => simp at h
  rw [scopePath_buildSegment, scopePath_buildSegment]
  refine ⟨fun h => ?_, fun h => by rw [h]⟩
  have hsep : _ ++ '.' :: [] = _ ++ '.' :: [] := congrArg (· ++ ['.']) h
  rw [intercalate_append_cons (wayNames_ne_nil hi),
    intercalate_append_cons (wayNames_ne_nil hj)] at hsep
  rcases separated_eq_separated (dot_not_mem_wayNames hparents htags hi)
    (dot_not_mem_wayNames hparents htags hj) hsep with ⟨rest, hrest, hlast⟩ | ⟨rest, hrest, hlast⟩
  · rw [hrest, hnil rest hlast, List.append_nil]
  · rw [hrest, hnil rest hlast, List.append_nil]

omit hparents htags in
/-- The variables of two segments have different scoped names. -/
theorem scopedName_ne_iff {i j : ℕ} (hi : i < P.stmts.length) (hj : j < P.stmts.length)
    (earlier earlier' : List Segment) :
    (∀ a ∈ (buildSegment U P i earlier).memory, ∀ b ∈ (buildSegment U P j earlier').memory,
        a.scopedName ≠ b.scopedName) ↔
      ∀ m ∈ variableNames U P i, ∀ n ∈ variableNames U P j,
        separated '.' (wayNames U P i) m ≠ separated '.' (wayNames U P j) n := by
  have hnames : ∀ k earlier, k < P.stmts.length →
      (buildSegment U P k earlier).memory.map Slot.scopedName
        = (variableNames U P k).map (separated '.' (wayNames U P k)) := by
    intro k earlier hk
    rw [map_scopedName_buildSegment, scopePath_buildSegment]
    exact List.map_congr_left fun name _ => intercalate_append_cons (wayNames_ne_nil hk) name
  rw [← List.forall_mem_map (f := Slot.scopedName) (P := fun a =>
      ∀ b ∈ (buildSegment U P j earlier').memory, a ≠ b.scopedName), hnames i earlier hi,
    List.forall_mem_map]
  refine forall_congr' fun m => imp_congr_right fun _ => ?_
  rw [← List.forall_mem_map (f := Slot.scopedName) (P := fun b =>
      separated '.' (wayNames U P i) m ≠ b), hnames j earlier' hj, List.forall_mem_map]

end Segments

/-! ### Telling segments apart -/

/-- The names of the functions of a file. -/
def functionNames (P : SegmentStmts Char) : List Text :=
  (List.range P.stmts.length).filterMap fun i =>
    if getSegType (P.header i) = .function then functionName U (P.header i) else none

/-- The tags of the structures of a file. -/
def tagNames (P : SegmentStmts Char) : List Text :=
  (List.range P.stmts.length).filterMap fun i =>
    if getSegType (P.header i) = .struct then tagName (P.header i) else none

variable {U} {P : SegmentStmts Char}

/-- **When scopes identify**: paths and scoped names tell the segments of a file apart if and only
if the headers name the blocks of every segment apart. -/
theorem scopesIdentify_iff {opts : Includes} {file : Text}
    (hP : segmentStmts opts file = some P) (htags : DotFreeTags P) {segments : List Segment}
    (hparse : parseCFile U opts file = some segments) :
    ScopesIdentify segments ↔ NamedApart U P := by
  have hparents := ParentsBefore.of_segmentStmts hP
  rw [parseCFile, hP] at hparse
  obtain rfl := Option.some.inj hparse
  have hpaths := pairwise_buildSegments (R := fun s t => s.scopePath ≠ t.scopePath)
    (Q := fun i j => wayNames U P i ≠ wayNames U P j) fun i j hij hj earlier earlier' =>
      not_congr (scopePath_eq_iff hparents htags (hij.trans hj) hj earlier earlier')
  have hslots := pairwise_buildSegments
    (R := fun s t => ∀ a ∈ s.memory, ∀ b ∈ t.memory, a.scopedName ≠ b.scopedName)
    (Q := fun i j => ∀ m ∈ variableNames U P i, ∀ n ∈ variableNames U P j,
      separated '.' (wayNames U P i) m ≠ separated '.' (wayNames U P j) n)
    fun i j hij hj earlier earlier' =>
      scopedName_ne_iff (hij.trans hj) hj earlier earlier'
  constructor
  · rintro ⟨hp, hs⟩
    rw [hpaths] at hp
    rw [hslots] at hs
    have hname : ∀ i j, Siblings P i j → blockName U P i ≠ blockName U P j := by
      intro i j hij heq
      have hway : wayNames U P i = wayNames U P j := by
        rw [wayNames_pos hparents hij.pos.1 hij.lt.1, wayNames_pos hparents hij.pos.2 hij.lt.2,
          hij.parent, heq]
      rcases Nat.lt_or_gt_of_ne hij.ne with hlt | hlt
      · exact hp i j hlt hij.lt.2 hway
      · exact hp j i hlt hij.lt.1 hway.symm
    refine ⟨fun i j hij hnaming => ?_, fun i j hij _ => hname i j hij, ?_⟩
    · by_contra hnot
      obtain ⟨hloop, hbranch⟩ := not_or.mp hnot
      exact hname i j hij (blockName_eq_of_naming_eq hij.parent hnaming hloop hbranch)
    · intro i j names hin m hm n hn heq
      obtain ⟨hij, hj, hway⟩ := wayNames_of_encloses hparents hin
      refine hs i j hij hj m hm n hn ?_
      rw [hway, separated_append, heq]
  · intro h
    have hname : ∀ i j, Siblings P i j → blockName U P i ≠ blockName U P j :=
      fun i j hij => h.blockName_ne hij
    have hinj : ∀ i j, i < j → j < P.stmts.length → wayNames U P i ≠ wayNames U P j :=
      fun i j hij hj hway =>
        hij.ne (wayNames_injective hparents hname (hij.trans hj) hj hway)
    refine ⟨hpaths.mpr hinj, hslots.mpr fun i j hij hj m hm n hn heq => ?_⟩
    have hi := hij.trans hj
    -- one of the two blocks lies inside the other one, as their paths begin alike
    rcases separated_eq_separated (dot_not_mem_wayNames hparents htags hi)
      (dot_not_mem_wayNames hparents htags hj) heq with ⟨rest, hrest, hlast⟩ | ⟨rest, hrest, hlast⟩
    · have hne : rest ≠ [] := by
        rintro rfl
        exact hinj i j hij hj (by rw [hrest, List.append_nil])
      exact h.fields i j rest (encloses_of_wayNames hparents hname hi hj hne hrest) m hm n hn hlast
    · have hne : rest ≠ [] := by
        rintro rfl
        exact hinj i j hij hj (by rw [hrest, List.append_nil])
      exact h.fields j i rest (encloses_of_wayNames hparents hname hj hi hne hrest) n hn m hm hlast

/-- A file with a structure, a function and two branches. -/
def branchesFile : Text :=
  lit "struct P { int x; }; int f(P p) { if (p.x) { int y; } else { int y; } return 1; }"

theorem scopesIdentify_iff_sample : ∃ P, segmentStmts {} branchesFile = some P ∧
    NamedApart .ascii P := by
  have hsome : (segmentStmts {} branchesFile).isSome := by decide +kernel
  obtain ⟨P, hP⟩ := Option.isSome_iff_exists.mp hsome
  have hscopes : ∀ P ∈ segmentStmts {} branchesFile, DotFreeTags P ∧
      ((buildSegments .ascii P).Pairwise fun s t => s.scopePath ≠ t.scopePath) ∧
      (buildSegments .ascii P).Pairwise fun s t =>
        ∀ a ∈ s.memory, ∀ b ∈ t.memory, a.scopedName ≠ b.scopedName := by
    unfold DotFreeTags
    decide +kernel
  obtain ⟨htags, hpaths, hslots⟩ := hscopes P hP
  exact ⟨P, hP, (scopesIdentify_iff hP htags (by rw [parseCFile, hP]; rfl)).mp ⟨hpaths, hslots⟩⟩

/-- One function with two blocks without headers. -/
def bareBlocksFile : Text :=
  lit "int f(int a) { { int x; x = a; } { int x; x = a; } return a; }"

/-- **A shared scope**: different names of functions and structures are not enough. -/
theorem not_scopesIdentify : ¬ ∀ (file : Text) (P : SegmentStmts Char) (segments : List Segment),
    segmentStmts {} file = some P → parseCFile .ascii {} file = some segments →
      (functionNames .ascii P).Nodup → (tagNames P).Nodup → ScopesIdentify segments := by
  intro h
  have hsome : (segmentStmts {} bareBlocksFile).isSome := by decide +kernel
  obtain ⟨P, hP⟩ := Option.isSome_iff_exists.mp hsome
  have hscopes : ∀ P ∈ segmentStmts {} bareBlocksFile,
      (functionNames .ascii P).Nodup ∧ (tagNames P).Nodup ∧
        ¬ (buildSegments .ascii P).Pairwise fun s t =>
          ∀ a ∈ s.memory, ∀ b ∈ t.memory, a.scopedName ≠ b.scopedName := by decide +kernel
  obtain ⟨hfunctions, htags, hslots⟩ := hscopes P hP
  exact hslots (h bareBlocksFile P _ hP (by rw [parseCFile, hP]; rfl) hfunctions htags).slots

end Csc512
