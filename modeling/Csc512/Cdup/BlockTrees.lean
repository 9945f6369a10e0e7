import Csc512.Cdup.BlockText
import Csc512.Cdup.BlockTypes
import Csc512.Cdup.CloneReport
import Csc512.Cdup.SegmentTree
import Csc512.Cdup.Type2Forms
import Mathlib.Algebra.Order.BigOperators.Group.List

/-!
# Block types are exact

A segment has an expanded tree: the text of its normalised statements, with blanks between them, in
which the placeholders that take a child are cut out and the trees of the children are put in. Two
segments have the same block type exactly if they have the same tree, in both normal forms.

In the text that is hashed there are tags instead of trees. They can be told from the source, since
no normal form holds a `B`: lower case has no capital letters, and the letters of the names that the
Type II normal form gives are others.

## Main results

* `capitalB_not_mem_hashForm` — no normal form holds a `B`
* `render_inj` — the tags can be read back
* `blockType_eq_iff` — segments have the same block type exactly if they have the same tree
-/

namespace Csc512

/-! ### Normal forms -/

section NormalForms

variable (U : CharTable)

theorem capitalB_not_mem_normalizeStmt (s : Text) : 'B' ∉ normalizeStmt U s := by
  intro h
  exact not_isUpper_of_mem_normalizeStmt U h (by decide)

theorem capitalB_not_mem_natText (n : ℕ) : 'B' ∉ natText n := by
  intro h
  exact absurd (isDigit_of_mem_natText h) (by decide)

theorem isWordChar_capitalB : isWordChar U 'B' := by
  rw [isWordChar, U.isAlnum_ascii 'B' (by decide)]
  decide

open Pattern in
/-- What a token becomes holds no `B`. -/
theorem capitalB_not_mem_abstractToken {token : Text} (htoken : Reads (tokenPattern U) token)
    (identifiers : List Text) : 'B' ∉ (abstractToken U identifiers token).1 := by
  have hkeywords : ∀ w ∈ cKeywords, 'B' ∉ w := by decide
  rw [abstractToken_eq]
  cases hkind : tokenKind U token with
  | string => exact (show 'B' ∉ lit "STR_LIT" by decide)
  | number => exact (show 'B' ∉ lit "NUM_LIT" by decide)
  | identifier => exact List.not_mem_append (by decide) (capitalB_not_mem_natText _)
  | fixed =>
    rcases (tokenKind_eq_fixed_iff htoken).mp hkind with hmem | ⟨-, -, c, hword, rfl⟩
    · exact hkeywords token hmem
    · intro hB
      obtain rfl := List.mem_singleton.mp hB
      rw [isWordChar_capitalB] at hword
      cases hword

theorem capitalB_not_mem_normalizeStmtType2 (s : Text) : 'B' ∉ normalizeStmtType2 U s := by
  have htokens : ∀ tokens : List Text, (∀ t ∈ tokens, (tokenPattern U).Reads t) →
      ∀ identifiers, ∀ t ∈ abstractTokens U identifiers tokens, 'B' ∉ t := by
    intro tokens
    induction tokens with
    | nil => nofun
    | cons token tokens ih =>
      intro hreads identifiers
      rw [abstractTokens]
      exact List.forall_mem_cons.mpr
        ⟨capitalB_not_mem_abstractToken U (hreads token List.mem_cons_self) identifiers,
          ih (fun t ht => hreads t (List.mem_cons_of_mem _ ht)) _⟩
  have hpieces := htokens (tokenize U s) (reads_tokenize s) []
  rw [normalizeStmtType2]
  generalize abstractTokens U [] (tokenize U s) = pieces at hpieces
  induction pieces with
  | nil => exact List.not_mem_nil
  | cons p ps ih =>
    obtain ⟨hp, hps⟩ := List.forall_mem_cons.mp hpieces
    rcases eq_or_ne ps [] with rfl | hne
    · simpa [List.intercalate] using hp
    · rw [intercalate_cons p hne]
      have hps := ih hps
      simp [hp, hps]

/-- **No normal form holds a `B`.** -/
theorem capitalB_not_mem_hashForm (type2Norm : Bool) (raw : Text) :
    'B' ∉ (hashForm U type2Norm raw).1 := by
  cases type2Norm with
  | false => exact capitalB_not_mem_normalizeStmt U raw
  | true => exact capitalB_not_mem_normalizeStmtType2 U raw

end NormalForms

/-! ### Cutting a text at placeholders -/

/-- There is no occurrence before the first one. -/
theorem cut_eq_none_of_cut {pat s before after : Text} (hne : pat ≠ [])
    (h : cut pat s = some (before, after)) : cut pat before = none := by
  induction s generalizing before with
  | nil => simp [cut, hne] at h
  | cons c s ih =>
    rw [cut] at h
    split at h
    · obtain ⟨rfl, -⟩ := Prod.mk.inj (Option.some.inj h)
      simp [cut, hne]
    · rename_i hnot
      obtain ⟨⟨b, a⟩, hcut, heq⟩ := Option.map_eq_some_iff.mp h
      obtain ⟨rfl, rfl⟩ := Prod.mk.inj heq
      have hno : ¬ pat.isPrefixOf (c :: b) := by
        intro hpre
        refine hnot (List.isPrefixOf_iff_prefix.mpr
          ((List.isPrefixOf_iff_prefix.mp hpre).trans ?_))
        rw [eq_of_cut hcut, List.append_assoc]
        exact List.prefix_append (c :: b) _
      rw [cut, if_neg hno, ih hcut]
      rfl

/-- A text in front of which a pattern is found as without it. -/
def Transparent (pat p : Text) : Prop :=
  ∀ s, cut pat (p ++ s) = (cut pat s).map fun r => (p ++ r.1, r.2)

theorem Transparent.nil (pat : Text) : Transparent pat [] := by
  intro s
  rw [List.nil_append]
  exact Option.map_id'.symm

theorem Transparent.append {pat p q : Text} (hp : Transparent pat p) (hq : Transparent pat q) :
    Transparent pat (p ++ q) := by
  intro s
  rw [List.append_assoc, hp, hq, Option.map_map]
  simp [Function.comp_def]

theorem Transparent.stop {pat p : Text} (hp : cut pat p = none) {c : Char} (hc : c ∉ pat) :
    Transparent pat (p ++ [c]) := by
  intro s
  rw [List.append_assoc, List.singleton_append, cut_append_stop hc hp]
  simp

theorem Transparent.stops {pat : Text} (hne : pat ≠ []) {q : Text} (hq : ∀ c ∈ q, c ∉ pat) :
    Transparent pat q := by
  induction q with
  | nil => exact .nil pat
  | cons c q ih =>
    exact (Transparent.stop (p := []) (by simp [cut, hne]) (hq c List.mem_cons_self)).append
      (ih fun d hd => hq d (List.mem_cons_of_mem _ hd))

/-- A text with children in place of placeholders. -/
abbrev Marked (α : Type) : Type := List (Char ⊕ α)

/-- Cut a statement at its first placeholders and put the first children there. The second component
are the children that are left. -/
def cutStmt (target : Text) : List ℕ → Text → Marked ℕ × List ℕ
  | [], stmt => (stmt.map .inl, [])
  | c :: children, stmt =>
    match cut target stmt with
    | none => (stmt.map .inl, c :: children)
    | some (before, after) =>
      let rest := cutStmt target children after
      (before.map .inl ++ .inr c :: rest.1, rest.2)

/-- A text with tags for the children. -/
def render (types : ℕ → ℕ) (m : Marked ℕ) : Text :=
  m.flatMap (Sum.elim (fun c => [c]) fun c => blockTag (types c))

theorem render_inl (types : ℕ → ℕ) (s : Text) : render types (s.map .inl) = s := by
  rw [render, List.flatMap_map]
  exact List.flatMap_singleton' s

theorem render_append (types : ℕ → ℕ) (m m' : Marked ℕ) :
    render types (m ++ m') = render types m ++ render types m' :=
  List.flatMap_append

/-- **The tags can be read back.** -/
theorem render_inj {types types' : ℕ → ℕ} {m m' : Marked ℕ} (hm : Sum.inl 'B' ∉ m)
    (hm' : Sum.inl 'B' ∉ m') (h : render types m = render types' m') :
    m.map (Sum.map id types) = m'.map (Sum.map id types') := by
  have htag : ∀ (t : ℕ) (rest : Text), blockTag t ++ rest
      = '<' :: 'B' :: (lit "LOCK_TYPE_" ++ (natText t ++ '>' :: rest)) := by
    intro t rest
    rw [blockTag_eq]
    simp only [List.append_assoc, List.cons_append, List.nil_append]
  -- behind a letter of the source there is no `B`
  have hno : ∀ {types : ℕ → ℕ} {m : Marked ℕ} {s : Text}, Sum.inl 'B' ∉ m →
      render types m ≠ 'B' :: s := by
    intro types m s hm h
    match m with
    | [] => cases h
    | .inl c :: m =>
      obtain rfl : c = 'B' := (List.cons.inj h).1
      exact hm List.mem_cons_self
    | .inr c :: m =>
      have h : blockTag (types c) ++ render types m = 'B' :: s := h
      rw [htag] at h
      exact absurd (List.cons.inj h).1 (by decide)
  induction m generalizing m' with
  | nil =>
    match m' with
    | [] => rfl
    | .inl c :: m' => cases h
    | .inr c :: m' =>
      have h : [] = blockTag (types' c) ++ render types' m' := h
      rw [htag] at h
      cases h
  | cons x m ih =>
    have hrest : Sum.inl 'B' ∉ m := mt (List.mem_cons_of_mem x) hm
    clear hm
    match x, m' with
    | .inl c, [] => cases h
    | .inr c, [] =>
      have h : blockTag (types c) ++ render types m = [] := h
      rw [htag] at h
      cases h
    | .inl c, .inl c' :: m' =>
      obtain ⟨rfl, htail⟩ := List.cons.inj h
      rw [List.map_cons, List.map_cons, ih hrest (mt (List.mem_cons_of_mem _) hm') htail]
      rfl
    | .inl c, .inr c' :: m' =>
      have h : c :: render types m = blockTag (types' c') ++ render types' m' := h
      rw [htag] at h
      exact absurd (List.cons.inj h).2 (hno hrest)
    | .inr c, .inl c' :: m' =>
      have h : blockTag (types c) ++ render types m = c' :: render types' m' := h
      rw [htag] at h
      exact absurd (List.cons.inj h).2.symm (hno (mt (List.mem_cons_of_mem _) hm'))
    | .inr c, .inr c' :: m' =>
      obtain ⟨-, ht, htail⟩ := @eq_of_append_blockTag [] [] _ _ _ _ nofun nofun h
      rw [List.map_cons, List.map_cons, ih hrest (mt (List.mem_cons_of_mem _) hm') htail,
        Sum.map_inr, Sum.map_inr, ht]

/-! ### Expanded trees -/

/-- A text with trees in place of placeholders. -/
inductive ExpandedTree where
  | node (text : List (Char ⊕ ExpandedTree))

section Trees

variable (U : CharTable) (type2Norm : Bool) (segments : List Segment)

/-- The normalised statements, cut at the placeholders that take a child. -/
def cutStmts : List Statement → List ℕ → List (Marked ℕ)
  | [], _ => []
  | stmt :: stmts, children =>
    let form := hashForm U type2Norm stmt.raw
    let r := cutStmt form.2 children form.1
    r.1 :: cutStmts stmts r.2

/-- The text of a segment, cut at the placeholders that take a child. -/
def cutText (seg : Segment) : Marked ℕ :=
  [.inl ' '].intercalate (cutStmts U type2Norm seg.stmts (childrenOf segments seg.id))

/-- The expanded tree of a segment. `fuel` bounds the nesting. -/
def expandedTree : ℕ → ℕ → Option ExpandedTree
  | 0, _ => none
  | fuel + 1, segId => do
    let seg ← segById segments segId
    let text ← (cutText U type2Norm segments seg).mapM
      (Sum.elim (fun c => some (.inl c)) fun c => (expandedTree fuel c).map .inr)
    some (.node text)

end Trees

/-! ### What is hashed -/

section Hashed

variable {U : CharTable} {type2Norm : Bool} {segments : List Segment}
  {blockType : ℕ → BlockTypes → Option (ℕ × BlockTypes)}

/-- The recorded block types. -/
def BlockTypes.typeOf (T : BlockTypes) (c : ℕ) : ℕ := (T.segHashes.get? c).getD 0

theorem target_hashForm (U : CharTable) (type2Norm : Bool) (raw : Text) :
    (hashForm U type2Norm raw).2 = lit "{ }" ∨ (hashForm U type2Norm raw).2 = lit "{}" := by
  cases type2Norm with
  | false => exact .inr rfl
  | true =>
    by_cases h : contains (lit "{ }") (normalizeStmtType2 U raw)
    · exact .inl (if_pos h)
    · exact .inr (if_neg h)

/-- A tag and what stands in front of it do not take part in a placeholder. -/
theorem transparent_blockTag {target p : Text} (htarget : target = lit "{ }" ∨ target = lit "{}")
    (hp : cut target p = none) (t : ℕ) : Transparent target (p ++ blockTag t) := by
  have hne : target ≠ [] := by rcases htarget with rfl | rfl <;> decide
  have hstop : ∀ c ∈ ['<', '>', 'B'] ++ lit "LOCK_TYPE_" ++ ['0', '1', '2', '3', '4', '5', '6',
      '7', '8', '9'], c ∉ target := by
    rcases htarget with rfl | rfl <;> decide +kernel
  have hdigits : ∀ c ∈ natText t, c ∉ target := by
    intro c hc hmem
    have hdigit := isDigit_of_mem_natText hc
    rcases htarget with rfl | rfl
    · exact absurd hdigit ((by decide +kernel : ∀ c ∈ lit "{ }", ¬ c.isDigit) c hmem)
    · exact absurd hdigit ((by decide +kernel : ∀ c ∈ lit "{}", ¬ c.isDigit) c hmem)
  rw [blockTag_eq, show p ++ '<' :: 'B' :: (lit "LOCK_TYPE_" ++ (natText t ++ ['>']))
    = (p ++ ['<']) ++ ('B' :: (lit "LOCK_TYPE_" ++ (natText t ++ ['>']))) by simp]
  refine (Transparent.stop hp (hstop '<' (by simp))).append (.stops hne fun c hc => ?_)
  rcases List.mem_cons.mp hc with rfl | hc
  · exact hstop 'B' (by simp)
  rcases List.mem_append.mp hc with hc | hc
  · exact hstop c (by simp [hc])
  rcases List.mem_append.mp hc with hc | hc
  · exact hdigits c hc
  · obtain rfl := List.mem_singleton.mp hc
    exact hstop '>' (by simp)

theorem mem_cutStmt {target : Text} {children : List ℕ} {s : Text} {c : ℕ}
    (h : .inr c ∈ (cutStmt target children s).1) : c ∈ children := by
  induction children generalizing s with
  | nil => simp [cutStmt] at h
  | cons d children ih =>
    rw [cutStmt] at h
    split at h
    · simp at h
    · rcases List.mem_append.mp h with h | h
      · simp at h
      · rcases List.mem_cons.mp h with h | h
        · exact (Sum.inr.inj h) ▸ List.mem_cons_self
        · exact List.mem_cons_of_mem _ (ih h)

theorem mem_left_cutStmt {target : Text} {children : List ℕ} {s : Text} {c : ℕ}
    (h : c ∈ (cutStmt target children s).2) : c ∈ children := by
  induction children generalizing s with
  | nil => simp [cutStmt] at h
  | cons d children ih =>
    rw [cutStmt] at h
    split at h
    · exact h
    · exact List.mem_cons_of_mem _ (ih h)

/-- **Filling placeholders** gives the cut statement with tags. -/
theorem fillPlaceholders_eq {target : Text} (htarget : target = lit "{ }" ∨ target = lit "{}")
    {children left : List ℕ} {x s filled : Text} {T T' T'' : BlockTypes}
    (hx : Transparent target x)
    (hblock : ∀ c ∈ children, ∀ T t T', blockType c T = some (t, T') →
      T'.segHashes.get? c = some t ∧ T.Extends T')
    (h : fillPlaceholders blockType target children (x ++ s) T = some (filled, left, T'))
    (hlater : T'.Extends T'') :
    filled = x ++ render T''.typeOf (cutStmt target children s).1 ∧
      left = (cutStmt target children s).2 ∧
      ∀ c, .inr c ∈ (cutStmt target children s).1 → (T''.segHashes.get? c).isSome := by
  have hne : target ≠ [] := by rcases htarget with rfl | rfl <;> decide
  induction children generalizing x s T with
  | nil =>
    simp only [fillPlaceholders, Option.some.injEq, Prod.mk.injEq] at h
    obtain ⟨rfl, rfl, -⟩ := h
    exact ⟨by rw [cutStmt, render_inl], rfl, by simp [cutStmt]⟩
  | cons c children ih =>
    rw [fillPlaceholders, contains, hx s] at h
    rw [cutStmt]
    cases hcut : cut target s with
    | none =>
      rw [hcut] at h
      simp only [Option.map_none, Option.isSome_none, Bool.false_eq_true, if_false,
        Option.some.injEq, Prod.mk.injEq] at h
      obtain ⟨rfl, rfl, -⟩ := h
      exact ⟨by rw [render_inl], rfl, by simp⟩
    | some p =>
      obtain ⟨before, after⟩ := p
      rw [hcut] at h
      simp only [Option.map_some, Option.isSome_some, if_true, Option.bind_eq_bind,
        Option.bind_eq_some_iff] at h
      obtain ⟨⟨t, T₁⟩, hfirst, h⟩ := h
      have hrest : ∀ d ∈ children, ∀ T t T', blockType d T = some (t, T') →
          T'.segHashes.get? d = some t ∧ T.Extends T' :=
        fun d hd => hblock d (List.mem_cons_of_mem _ hd)
      have hkept : T₁.Extends T' := fillPlaceholders_keeps BlockTypes.Extends.refl
        BlockTypes.Extends.trans (fun d hd T t T' hd' => (hrest d hd T t T' hd').2) h
      have ht := (hkept.trans hlater).segHashes (hblock c List.mem_cons_self _ _ _ hfirst).1
      have hreplace : replaceFirst target (blockTag t) (x ++ s)
          = (x ++ (before ++ blockTag t)) ++ after := by
        rw [replaceFirst, hx s, hcut]
        simp
      rw [hreplace] at h
      have hpre := hx.append (transparent_blockTag htarget (cut_eq_none_of_cut hne hcut) t)
      obtain ⟨rfl, rfl, hsome⟩ := ih hpre hrest h
      refine ⟨?_, rfl, fun d hd => ?_⟩
      · show _ = x ++ render _ (before.map .inl ++ ([.inr c] ++ _))
        rw [render_append, render_inl, render_append]
        simp [render, BlockTypes.typeOf, ht]
      · rcases List.mem_append.mp hd with hd | hd
        · simp at hd
        · rcases List.mem_cons.mp hd with hd | hd
          · rw [Sum.inr.inj hd, ht]
            rfl
          · exact hsome d hd

theorem hashedStmts_eq {children : List ℕ} {stmts : List Statement} {hashed : List Text}
    {T T' T'' : BlockTypes}
    (hblock : ∀ c ∈ children, ∀ T t T', blockType c T = some (t, T') →
      T'.segHashes.get? c = some t ∧ T.Extends T')
    (h : hashedStmts U type2Norm blockType stmts children T = some (hashed, T'))
    (hlater : T'.Extends T'') :
    hashed = (cutStmts U type2Norm stmts children).map (render T''.typeOf) ∧
      ∀ m ∈ cutStmts U type2Norm stmts children, ∀ c, .inr c ∈ m →
        (T''.segHashes.get? c).isSome := by
  induction stmts generalizing children hashed T with
  | nil =>
    simp only [hashedStmts, Option.some.injEq, Prod.mk.injEq] at h
    exact ⟨h.1.symm, fun m hm => absurd hm List.not_mem_nil⟩
  | cons stmt stmts ih =>
    simp only [hashedStmts, Option.bind_eq_bind, Option.bind_eq_some_iff] at h
    obtain ⟨⟨filled, left, T₁⟩, hfirst, ⟨rest, T₂⟩, hrest, heq⟩ := h
    obtain ⟨rfl, rfl⟩ := Prod.mk.inj (Option.some.inj heq)
    have hsub := suffix_of_fillPlaceholders hfirst
    have hleft : ∀ c ∈ left, ∀ T t T', blockType c T = some (t, T') →
        T'.segHashes.get? c = some t ∧ T.Extends T' := fun c hc => hblock c (hsub.mem hc)
    have hkept : T₁.Extends T₂ := hashedStmts_keeps BlockTypes.Extends.refl
      BlockTypes.Extends.trans (fun c hc T t T' hc' => (hleft c hc T t T' hc').2) hrest
    obtain ⟨hfilled, hcut, hsome⟩ := fillPlaceholders_eq (target_hashForm U type2Norm stmt.raw)
      (.nil _) hblock hfirst (hkept.trans hlater)
    obtain ⟨hhashed, hall⟩ := ih hleft hrest
    rw [List.nil_append] at hfilled
    rw [cutStmts, ← hcut, List.map_cons, ← hfilled, ← hhashed]
    exact ⟨rfl, List.forall_mem_cons.mpr ⟨hsome, hall⟩⟩

theorem render_intercalate (types : ℕ → ℕ) (ms : List (Marked ℕ)) :
    render types ([.inl ' '].intercalate ms) = [' '].intercalate (ms.map (render types)) := by
  induction ms with
  | nil => rfl
  | cons m ms ih =>
    rcases eq_or_ne ms [] with rfl | hne
    · simp [List.intercalate, render]
    · have hne' : ms.map (render types) ≠ [] := by simpa using hne
      rw [List.map_cons, List.intercalate_cons_of_ne_nil hne, List.intercalate_cons_of_ne_nil hne',
        render_append, render_append, ih]
      rfl

theorem mem_intercalate {α : Type} {sep x : α} {ls : List (List α)}
    (h : x ∈ [sep].intercalate ls) : x = sep ∨ ∃ l ∈ ls, x ∈ l := by
  induction ls with
  | nil => simp [List.intercalate] at h
  | cons l ls ih =>
    rcases eq_or_ne ls [] with rfl | hne
    · exact .inr ⟨l, List.mem_cons_self, by simpa [List.intercalate] using h⟩
    · rw [List.intercalate_cons_of_ne_nil hne] at h
      rcases List.mem_append.mp h with h | h
      · rcases List.mem_append.mp h with h | h
        · exact .inr ⟨l, List.mem_cons_self, h⟩
        · exact .inl (List.mem_singleton.mp h)
      · exact (ih h).imp_right fun ⟨l, hl, hx⟩ => ⟨l, List.mem_cons_of_mem _ hl, hx⟩

end Hashed

/-! ### The block types of a run -/

section Runs

variable {U : CharTable} {sha256 : Text → Text} {type2Norm : Bool} {segments : List Segment}

variable (U sha256 type2Norm segments) in
/-- A block type is the number of the hash of the cut text of its segment, with the block types of
the children as tags. -/
structure Tagged (T : BlockTypes) : Prop where
  numbering : T.globalHashToId.Numbering
  types : ∀ {id t}, T.segHashes.get? id = some t → ∃ seg, segById segments id = some seg ∧
    (∀ c, .inr c ∈ cutText U type2Norm segments seg → (T.segHashes.get? c).isSome) ∧
    T.globalHashToId.get? (sha256 (render T.typeOf (cutText U type2Norm segments seg))) = some t

theorem Tagged.empty : Tagged U sha256 type2Norm segments BlockTypes.empty where
  numbering := Dict.Numbering.empty
  types h := by cases h

/-- Tags stay as they are. -/
theorem render_extends {T T' : BlockTypes} (h : T.Extends T') {m : Marked ℕ}
    (hm : ∀ c, .inr c ∈ m → (T.segHashes.get? c).isSome) :
    render T'.typeOf m = render T.typeOf m := by
  refine List.flatMap_congr fun x hx => ?_
  cases x with
  | inl c => rfl
  | inr c =>
    obtain ⟨t, ht⟩ := Option.isSome_iff_exists.mp (hm c hx)
    simp only [Sum.elim_inr, BlockTypes.typeOf, ht, h.segHashes ht]

section Ranked

variable {rank : ℕ → ℕ}
  (hrank : ∀ seg ∈ segments, seg.id ≠ 0 → seg.parent ≠ seg.id → rank seg.id < rank seg.parent)

include hrank

/-- Looking up a block type keeps what the block types stand for. -/
theorem tagged_getBlockTypeId {fuel segId t : ℕ} {T T' : BlockTypes}
    (h : getBlockTypeId U sha256 type2Norm segments fuel segId T = some (t, T'))
    (hT : Tagged U sha256 type2Norm segments T) : Tagged U sha256 type2Norm segments T' := by
  induction fuel generalizing segId t T T' with
  | zero => cases h
  | succ fuel ih =>
    rcases getBlockTypeId_cases h with ⟨-, rfl⟩ | ⟨hnew, seg, hashed, T₁, hseg, hhashed, heq⟩
    · exact hT
    · have hT₁ : Tagged U sha256 type2Norm segments T₁ := hashedStmts_keeps
        (R := fun T T' => Tagged U sha256 type2Norm segments T →
          Tagged U sha256 type2Norm segments T')
        (fun _ h => h) (fun h h' hT => h' (h hT)) (fun _ _ _ _ _ hc hT => ih hc hT) hhashed hT
      obtain rfl : (T₁.assign segId (sha256 (List.intercalate [' '] hashed))).2 = T' :=
        congrArg Prod.snd heq
      have hextends := BlockTypes.extends_assign ((hashedStmts_frame hrank hhashed).trans hnew)
        (sha256 (List.intercalate [' '] hashed))
      obtain ⟨hhash, hsome⟩ := hashedStmts_eq
        (fun c _ T t T' hc => ⟨(getBlockTypeId_records hc).1, getBlockTypeId_extends hrank hc⟩)
        hhashed hextends
      refine ⟨hT₁.numbering.upsert _, fun {id t} hid => ?_⟩
      by_cases hsame : id = segId
      · subst hsame
        rw [BlockTypes.get?_assign, if_pos rfl] at hid
        refine ⟨seg, hseg, fun c hc => ?_, ?_⟩
        · rw [cutText, id_of_segById hseg] at hc
          rcases mem_intercalate hc with hc | ⟨m, hm, hc⟩
          · cases hc
          · exact hsome m hm c hc
        · rw [cutText, id_of_segById hseg, render_intercalate, ← hhash, ← hid]
          exact Dict.get?_upsert_self _ _ _
      · rw [BlockTypes.get?_assign, if_neg hsame] at hid
        obtain ⟨seg', hseg', hsome', hget⟩ := hT₁.types hid
        refine ⟨seg', hseg', fun c hc => ?_, ?_⟩
        · obtain ⟨t, ht⟩ := Option.isSome_iff_exists.mp (hsome' c hc)
          exact Option.isSome_iff_exists.mpr ⟨t, hextends.segHashes ht⟩
        · rw [render_extends hextends hsome']
          exact hextends.ids hget

theorem tagged_blockTypes {T : BlockTypes}
    (h : blockTypes U sha256 type2Norm segments = some T) :
    Tagged U sha256 type2Norm segments T := by
  have hfrom : ∀ segs T T', blockTypesFrom U sha256 type2Norm segments segs T = some T' →
      Tagged U sha256 type2Norm segments T → Tagged U sha256 type2Norm segments T' := by
    intro segs
    induction segs with
    | nil =>
      intro T T' h hT
      exact Option.some.inj h ▸ hT
    | cons seg segs ih =>
      intro T T' h hT
      obtain ⟨⟨t, T₁⟩, hfirst, hrest⟩ := Option.bind_eq_some_iff.mp h
      exact ih T₁ T' hrest (tagged_getBlockTypeId hrank hfirst hT)
  exact hfrom segments _ _ h Tagged.empty

end Ranked

/-! ### Equal block types and equal trees -/

theorem capitalB_not_mem_cutStmt (target : Text) (children : List ℕ) {s : Text} (hs : 'B' ∉ s) :
    Sum.inl 'B' ∉ (cutStmt target children s).1 := by
  induction children generalizing s with
  | nil => simpa [cutStmt] using hs
  | cons c children ih =>
    rw [cutStmt]
    cases hcut : cut target s with
    | none => simpa using hs
    | some p =>
      have hparts := eq_of_cut hcut
      have hbefore : 'B' ∉ p.1 := fun h => hs (by rw [hparts]; simp [h])
      have hafter : 'B' ∉ p.2 := fun h => hs (by rw [hparts]; simp [h])
      simp [hbefore, ih hafter]

theorem capitalB_not_mem_cutText (U : CharTable) (type2Norm : Bool) (segments : List Segment)
    (seg : Segment) : Sum.inl 'B' ∉ cutText U type2Norm segments seg := by
  have hstmts : ∀ (stmts : List Statement) (children : List ℕ),
      ∀ m ∈ cutStmts U type2Norm stmts children, Sum.inl 'B' ∉ m := by
    intro stmts
    induction stmts with
    | nil => nofun
    | cons stmt stmts ih =>
      intro children
      exact List.forall_mem_cons.mpr
        ⟨capitalB_not_mem_cutStmt _ _ (capitalB_not_mem_hashForm U type2Norm stmt.raw), ih _⟩
  intro h
  rcases mem_intercalate h with h | ⟨m, hm, h⟩
  · cases h
  · exact hstmts _ _ m hm h

/-- Equal texts with tags and equal texts with trees, where equal tags stand for equal trees. -/
theorem map_types_eq_iff (types : ℕ → ℕ) {f g : ℕ → Option ExpandedTree} {m m' : Marked ℕ}
    {text text' : Marked ExpandedTree}
    (h : m.mapM (Sum.elim (fun c => some (.inl c)) fun c => (f c).map .inr) = some text)
    (h' : m'.mapM (Sum.elim (fun c => some (.inl c)) fun c => (g c).map .inr) = some text')
    (heq : ∀ c d x y, .inr c ∈ m → .inr d ∈ m' → f c = some x → g d = some y →
      (types c = types d ↔ x = y)) :
    m.map (Sum.map id types) = m'.map (Sum.map id types) ↔ text = text' := by
  induction m generalizing m' text text' with
  | nil =>
    obtain rfl : [] = text := by simpa using h
    cases m' with
    | nil =>
      obtain rfl : [] = text' := by simpa using h'
      simp
    | cons y m' =>
      rw [List.mapM_cons] at h'
      simp only [Option.bind_eq_bind, Option.bind_eq_some_iff] at h'
      obtain ⟨y', -, ys, -, heq'⟩ := h'
      obtain rfl := Option.some.inj heq'
      simp
  | cons x m ih =>
    rw [List.mapM_cons] at h
    simp only [Option.bind_eq_bind, Option.bind_eq_some_iff] at h
    obtain ⟨x', hx, xs, hxs, hcons⟩ := h
    obtain rfl := Option.some.inj hcons
    cases m' with
    | nil =>
      obtain rfl : [] = text' := by simpa using h'
      simp
    | cons y m' =>
      rw [List.mapM_cons] at h'
      simp only [Option.bind_eq_bind, Option.bind_eq_some_iff] at h'
      obtain ⟨y', hy, ys, hys, hcons'⟩ := h'
      obtain rfl := Option.some.inj hcons'
      have hrest := ih hxs hys fun c d x y hc hd => heq c d x y (List.mem_cons_of_mem _ hc)
        (List.mem_cons_of_mem _ hd)
      rw [List.map_cons, List.map_cons, List.cons.injEq, List.cons.injEq, hrest]
      refine and_congr_left fun _ => ?_
      cases x with
      | inl c =>
        obtain rfl := Option.some.inj hx
        cases y with
        | inl d =>
          obtain rfl := Option.some.inj hy
          simp
        | inr d =>
          obtain ⟨t, -, rfl⟩ := Option.map_eq_some_iff.mp hy
          simp
      | inr c =>
        obtain ⟨s, hs, rfl⟩ := Option.map_eq_some_iff.mp hx
        cases y with
        | inl d =>
          obtain rfl := Option.some.inj hy
          simp
        | inr d =>
          obtain ⟨t, ht, rfl⟩ := Option.map_eq_some_iff.mp hy
          rw [Sum.map_inr, Sum.map_inr, Sum.inr.injEq, Sum.inr.injEq]
          exact heq c d s t List.mem_cons_self List.mem_cons_self hs ht

/-- What is rendered depends on the tags only. -/
theorem render_eq_of_map_eq {types : ℕ → ℕ} {m m' : Marked ℕ}
    (h : m.map (Sum.map id types) = m'.map (Sum.map id types)) :
    render types m = render types m' := by
  have hform : ∀ m : Marked ℕ, render types m
      = (m.map (Sum.map id types)).flatMap (Sum.elim (fun c => [c]) blockTag) := by
    intro m
    rw [List.flatMap_map]
    refine List.flatMap_congr fun x _ => ?_
    cases x <;> rfl
  rw [hform, hform, h]

/-- Segments with block types and trees. -/
theorem typeOf_eq_iff (hsha : Function.Injective sha256) {T : BlockTypes}
    (hT : Tagged U sha256 type2Norm segments T) {fuel fuel' a b : ℕ} {x y : ExpandedTree}
    (hx : expandedTree U type2Norm segments fuel a = some x)
    (hy : expandedTree U type2Norm segments fuel' b = some y) {t t' : ℕ}
    (ht : T.segHashes.get? a = some t) (ht' : T.segHashes.get? b = some t') :
    t = t' ↔ x = y := by
  induction fuel generalizing fuel' a b x y t t' with
  | zero => cases hx
  | succ fuel ih =>
    cases fuel' with
    | zero => cases hy
    | succ fuel' =>
      simp only [expandedTree, Option.bind_eq_bind, Option.bind_eq_some_iff] at hx hy
      obtain ⟨seg, hseg, text, htext, heq⟩ := hx
      obtain rfl := Option.some.inj heq
      obtain ⟨seg', hseg', text', htext', heq'⟩ := hy
      obtain rfl := Option.some.inj heq'
      obtain ⟨seg₁, hseg₁, hsome, hget⟩ := hT.types ht
      obtain rfl := Option.some.inj (hseg.symm.trans hseg₁)
      obtain ⟨seg₂, hseg₂, hsome', hget'⟩ := hT.types ht'
      obtain rfl := Option.some.inj (hseg'.symm.trans hseg₂)
      have hnumber : t = t' ↔ render T.typeOf (cutText U type2Norm segments seg)
          = render T.typeOf (cutText U type2Norm segments seg') := by
        constructor
        · rintro rfl
          exact hsha (hT.numbering.inj hget hget')
        · intro h
          rw [h, hget'] at hget
          exact (Option.some.inj hget).symm
      rw [hnumber, ExpandedTree.node.injEq, ← map_types_eq_iff T.typeOf htext htext']
      · exact ⟨render_inj (capitalB_not_mem_cutText _ _ _ _) (capitalB_not_mem_cutText _ _ _ _),
          render_eq_of_map_eq⟩
      · intro c d x y hc hd hxc hyd
        obtain ⟨tc, htc⟩ := Option.isSome_iff_exists.mp (hsome c hc)
        obtain ⟨td, htd⟩ := Option.isSome_iff_exists.mp (hsome' d hd)
        rw [BlockTypes.typeOf, BlockTypes.typeOf, htc, htd, Option.getD_some, Option.getD_some]
        exact ih hxc hyd htc htd

end Runs

/-! ### Forests -/

section Forests

variable {segments : List Segment}

/-- A forest has no cycles. -/
theorem Forest.acyclic (h : Forest segments) : Acyclic segments := by
  obtain ⟨rank, hrank⟩ := h.ranked
  obtain ⟨top, htop⟩ : ∃ top, ∀ seg ∈ segments, rank seg.id ≤ top :=
    ⟨(segments.map fun seg => rank seg.id).sum, fun seg hseg =>
      List.single_le_sum (fun _ _ => Nat.zero_le _) _
        (List.mem_map_of_mem (f := fun seg : Segment => rank seg.id) hseg)⟩
  refine ⟨fun id => top - rank id, fun seg hseg _ hne => ?_⟩
  have hlt := hrank seg hseg hne
  have hle := htop seg hseg
  show top - rank seg.id < top - rank seg.parent
  omega

variable (U : CharTable) (type2Norm : Bool)

/-- **Every segment of a forest has a tree.** -/
theorem expandedTree_isSome {rank : ℕ → ℕ}
    (hrank : ∀ seg ∈ segments, seg.id ≠ 0 → seg.parent ≠ seg.id → rank seg.id < rank seg.parent)
    {fuel segId : ℕ} (hseg : segId ∈ segments.map Segment.id) (hfuel : rank segId < fuel) :
    (expandedTree U type2Norm segments fuel segId).isSome := by
  induction fuel generalizing segId with
  | zero => exact absurd hfuel (Nat.not_lt_zero _)
  | succ fuel ih =>
    obtain ⟨seg, hfound⟩ := Option.isSome_iff_exists.mp (segById_isSome hseg)
    have hchildren : ∀ c, .inr c ∈ cutText U type2Norm segments seg →
        c ∈ childrenOf segments seg.id := by
      have hstmts : ∀ (stmts : List Statement) (children : List ℕ),
          ∀ m ∈ cutStmts U type2Norm stmts children, ∀ c, .inr c ∈ m → c ∈ children := by
        intro stmts
        induction stmts with
        | nil => nofun
        | cons stmt stmts ih =>
          intro children
          refine List.forall_mem_cons.mpr ⟨fun c hc => mem_cutStmt hc, fun m hm c hc => ?_⟩
          exact mem_left_cutStmt (ih _ m hm c hc)
      intro c hc
      rcases mem_intercalate hc with hc | ⟨m, hm, hc⟩
      · cases hc
      · exact hstmts _ _ m hm c hc
    obtain ⟨text, htext, -⟩ := exists_mapM (l := cutText U type2Norm segments seg)
      (f := Sum.elim (fun c => some (Sum.inl c)) fun c =>
        (expandedTree U type2Norm segments fuel c).map Sum.inr) (fun x hx => by
        cases x with
        | inl c => rfl
        | inr c =>
          have hc := hchildren c hx
          obtain ⟨child, hchild, rfl, -⟩ := mem_childrenOf.mp hc
          have hlt := rank_lt_of_mem_childrenOf hrank hc
          rw [id_of_segById hfound] at hlt
          rw [Sum.elim_inr, Option.isSome_map]
          exact ih (List.mem_map_of_mem hchild) (by omega))
    rw [expandedTree, hfound]
    simp only [Option.bind_eq_bind, Option.bind_some, htext]
    rfl

/-- Segments without cycles have block types and trees, and equal block types are those of equal
trees. -/
theorem exists_trees {sha256 : Text → Text} (hsha : Function.Injective sha256)
    (hacyclic : Acyclic segments) : ∃ T, blockTypes U sha256 type2Norm segments = some T ∧
      ∀ s ∈ segments, ∀ t ∈ segments, ∃ x y a b,
        expandedTree U type2Norm segments (segments.length + 1) s.id = some x ∧
        expandedTree U type2Norm segments (segments.length + 1) t.id = some y ∧
        T.segHashes.get? s.id = some a ∧ T.segHashes.get? t.id = some b ∧ (a = b ↔ x = y) := by
  obtain ⟨T, hT, -, hall⟩ := blockTypesFrom_isSome U sha256 type2Norm
    (List.Subset.refl segments) hacyclic BlockTypes.empty
  obtain ⟨rank, hbound, hrank⟩ := hacyclic.bounded
  refine ⟨T, hT, fun s hs t ht => ?_⟩
  obtain ⟨x, hx⟩ := Option.isSome_iff_exists.mp (expandedTree_isSome U type2Norm hrank
    (List.mem_map_of_mem hs) (Nat.lt_succ_of_le (hbound s.id)))
  obtain ⟨y, hy⟩ := Option.isSome_iff_exists.mp (expandedTree_isSome U type2Norm hrank
    (List.mem_map_of_mem ht) (Nat.lt_succ_of_le (hbound t.id)))
  obtain ⟨a, ha⟩ := Option.isSome_iff_exists.mp (hall s hs)
  obtain ⟨b, hb⟩ := Option.isSome_iff_exists.mp (hall t ht)
  exact ⟨x, y, a, b, hx, hy, ha, hb,
    typeOf_eq_iff hsha (tagged_blockTypes hrank hT) hx hy ha hb⟩

/-- **Block types are exact.** In a forest two segments have the same block type exactly if they
have the same expanded tree. -/
theorem blockType_eq_iff {sha256 : Text → Text} (hsha : Function.Injective sha256)
    (hforest : Forest segments) : ∃ T, blockTypes U sha256 type2Norm segments = some T ∧
      ∀ s ∈ segments, ∀ t ∈ segments, ∃ x y a b,
        expandedTree U type2Norm segments (segments.length + 1) s.id = some x ∧
        expandedTree U type2Norm segments (segments.length + 1) t.id = some y ∧
        T.segHashes.get? s.id = some a ∧ T.segHashes.get? t.id = some b ∧ (a = b ↔ x = y) :=
  exists_trees U type2Norm hsha hforest.acyclic

end Forests

/-! ### Two functions with a block -/

/-- The segments of two functions with equal blocks. -/
def twinBlocks : List Segment :=
  (parseCFile .ascii {} (lit "void f() \x7b if (a) \x7b x; \x7d \x7d " ++
    lit "void g() \x7b if (a) \x7b x; \x7d \x7d")).getD []

theorem forest_twinBlocks : Forest twinBlocks where
  nodup := by decide +kernel
  parent_mem := by decide +kernel
  ranked := ⟨id, by decide +kernel⟩

theorem blockType_eq_iff_twinBlocks :
    ∃ T, blockTypes .ascii id false twinBlocks = some T ∧
      ∀ s ∈ twinBlocks, ∀ t ∈ twinBlocks, ∃ x y a b,
        expandedTree .ascii false twinBlocks (twinBlocks.length + 1) s.id = some x ∧
        expandedTree .ascii false twinBlocks (twinBlocks.length + 1) t.id = some y ∧
        T.segHashes.get? s.id = some a ∧ T.segHashes.get? t.id = some b ∧ (a = b ↔ x = y) :=
  blockType_eq_iff .ascii false Function.injective_id forest_twinBlocks

end Csc512
