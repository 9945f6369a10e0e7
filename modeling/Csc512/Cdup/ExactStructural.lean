import Csc512.Cdup.BlockTrees
import Csc512.Cdup.CloneScan

/-!
# Exact and structural clones

The two runs of the detector fill the placeholders of every statement with the types of the same
blocks, but they compare different normal forms. The Type I normal form is in lower case, the
tokens of the Type II normal form are told apart as they are spelled. So two statements can be the
same for the Type I run although an identifier of one stands for two of the other.

## Main results

* `flatForms_eq` — the forms of a statement in the flat list
* `map_types_cutStmt_iff` — what equal forms say about texts and blocks
* `exactIsStructural_iff` — when the Type II run matches what the Type I run matches
-/

namespace Csc512

open Pattern

/-! ### Placeholders in the Type II normal form -/

section Placeholders

variable {U : CharTable}

/-- A pattern without a separator does not occur in texts that are joined by it if it does not occur
in one of them. -/
theorem cut_intercalate_eq_none {pat : Text} {sep : Char} (hsep : sep ∉ pat) (hne : pat ≠ [])
    {ws : List Text} (h : ∀ w ∈ ws, cut pat w = none) : cut pat ([sep].intercalate ws) = none := by
  induction ws with
  | nil => simp [List.intercalate, cut, hne]
  | cons w ws ih =>
    obtain ⟨hw, hws⟩ := List.forall_mem_cons.mp h
    rcases eq_or_ne ws [] with rfl | hnil
    · simpa [List.intercalate] using hw
    · rw [List.intercalate_cons_of_ne_nil hnil, List.append_assoc, List.singleton_append,
        cut_append_stop hsep hw, ih hws]
      rfl

/-- A token that is left alone holds no pair of braces. -/
theorem cut_braces_of_fixed {token : Text} (htoken : Reads (tokenPattern U) token)
    (hkind : tokenKind U token = .fixed) : cut (lit "{}") token = none := by
  have hkeywords : ∀ w ∈ cKeywords, cut (lit "{}") w = none := by decide
  rcases (tokenKind_eq_fixed_iff htoken).mp hkind with hmem | ⟨-, -, c, -, rfl⟩
  · exact hkeywords token hmem
  · simp [cut, lit, List.isPrefixOf]

/-- **The Type II normal form** holds a brace and its closing one with a space between them only. -/
theorem cut_braces_normalizeStmtType2 (s : Text) :
    cut (lit "{}") (normalizeStmtType2 U s) = none := by
  have hshown : ∀ tokens : List Text, (∀ t ∈ tokens, Reads (tokenPattern U) t) →
      ∀ identifiers, ∀ t ∈ abstractTokens U identifiers tokens, cut (lit "{}") t = none := by
    intro tokens
    induction tokens with
    | nil => nofun
    | cons token tokens ih =>
      intro hreads identifiers
      obtain ⟨htoken, hreads⟩ := List.forall_mem_cons.mp hreads
      rw [abstractTokens]
      refine List.forall_mem_cons.mpr ⟨?_, ih hreads _⟩
      rw [abstractToken_eq]
      cases hkind : tokenKind U token with
      | string => exact (show cut (lit "{}") (lit "STR_LIT") = none by decide)
      | number => exact (show cut (lit "{}") (lit "NUM_LIT") = none by decide)
      | fixed => exact cut_braces_of_fixed htoken hkind
      | identifier =>
        refine cut_eq_none_of_notMem (c := '{') (by decide) (List.not_mem_append (by decide) ?_)
        exact fun h => absurd (isDigit_of_mem_natText h) (by decide)
  rw [normalizeStmtType2]
  exact cut_intercalate_eq_none (by decide) (by decide) (hshown _ (reads_tokenize s) [])

end Placeholders

/-! ### The forms of a statement -/

/-- The children in a text. -/
def blocksIn {α : Type} (m : Marked α) : List α := m.filterMap Sum.getRight?

/-- A statement of the flat list: its text, and its two normal forms, cut at the placeholders that
take a child. -/
structure FlatSource where
  raw : Text
  exact : Marked ℕ
  structural : Marked ℕ

section Sources

variable (U : CharTable)

/-- A statement in front of some children, and the children that are left. The Type I normal form
says which children are blocksIn, also in the Type II run. -/
def flatSource (children : List ℕ) (raw : Text) : FlatSource × List ℕ :=
  let exact := cutStmt (lit "{}") children (normalizeStmt U raw)
  (⟨raw, exact.1, (cutStmt (lit "{ }") (blocksIn exact.1) (normalizeStmtType2 U raw)).1⟩, exact.2)

/-- The statements of a segment. -/
def flatSources : List Statement → List ℕ → List FlatSource
  | [], _ => []
  | stmt :: stmts, children =>
    let r := flatSource U children stmt.raw
    r.1 :: flatSources stmts r.2

/-- The statements of all segments, with a separator behind each segment. -/
def sourceList (segments segs : List Segment) : List (Option FlatSource) :=
  segs.flatMap fun seg =>
    (flatSources U seg.stmts (childrenOf segments seg.id)).map some ++ [none]

/-- The form in which a run compares a statement. -/
def FlatSource.form (type2Norm : Bool) (source : FlatSource) : Marked ℕ :=
  if type2Norm then source.structural else source.exact

end Sources

/-- The recorded block types. -/
def typesIn (segHashes : Dict ℕ ℕ) (c : ℕ) : ℕ := (segHashes.get? c).getD 0

section Filled

variable {segHashes : Dict ℕ ℕ}

@[simp]
theorem blocksIn_inl (s : Text) : blocksIn (s.map (Sum.inl (β := ℕ))) = [] := by
  rw [blocksIn, List.filterMap_map, List.filterMap_eq_nil_iff]
  exact fun _ _ => rfl

@[simp]
theorem blocksIn_cutStmt_nil (target s : Text) : blocksIn (cutStmt target [] s).1 = [] :=
  blocksIn_inl s

theorem blocksIn_cutStmt_cons {target s before after : Text} {c : ℕ} {children : List ℕ}
    (h : cut target s = some (before, after)) : blocksIn (cutStmt target (c :: children) s).1 =
      c :: blocksIn (cutStmt target children after).1 := by
  rw [cutStmt, h]
  show (before.map Sum.inl ++ Sum.inr c :: _).filterMap Sum.getRight? = _
  rw [List.filterMap_append]
  show blocksIn (before.map Sum.inl) ++ _ = _
  rw [blocksIn_inl]
  rfl

theorem blocksIn_cutStmt_of_none {target s : Text} (h : cut target s = none) (children : List ℕ) :
    blocksIn (cutStmt target children s).1 = [] := by
  cases children with
  | nil => exact blocksIn_cutStmt_nil target s
  | cons c children =>
    rw [cutStmt, h]
    exact blocksIn_inl s

theorem render_cutStmt_cons {types : ℕ → ℕ} {target s before after : Text} {c : ℕ}
    {children : List ℕ} (h : cut target s = some (before, after)) :
    render types (cutStmt target (c :: children) s).1 =
      before ++ blockTag (types c) ++ render types (cutStmt target children after).1 := by
  rw [cutStmt, h]
  show render types (before.map .inl ++ ([.inr c] ++ _)) = _
  rw [render_append, render_append, render_inl, List.append_assoc]
  simp [render]

theorem render_cutStmt_of_none {types : ℕ → ℕ} {target s : Text} (h : cut target s = none)
    (children : List ℕ) : render types (cutStmt target children s).1 = s := by
  cases children with
  | nil => exact render_inl types s
  | cons c children =>
    rw [cutStmt, h]
    exact render_inl types s

theorem replaceFirst_append {target x s before after : Text} (hx : Transparent target x)
    (h : cut target s = some (before, after)) (rep : Text) :
    replaceFirst target rep (x ++ s) = x ++ (before ++ rep) ++ after := by
  rw [replaceFirst, hx s, h]
  simp

/-- **The Type I form of a statement** in the flat list, and the children that are left. -/
theorem flatForms_exact {type2Norm : Bool} {children left : List ℕ}
    {x s norm filled filled1 : Text} (hx : Transparent (lit "{}") x)
    (h : flatForms type2Norm segHashes children norm (x ++ s) = some (filled, filled1, left)) :
    filled1 = x ++ render (typesIn segHashes) (cutStmt (lit "{}") children s).1 ∧
      left = (cutStmt (lit "{}") children s).2 := by
  induction children generalizing x s norm with
  | nil =>
    simp only [flatForms, Option.some.injEq, Prod.mk.injEq] at h
    obtain ⟨-, rfl, rfl⟩ := h
    exact ⟨by rw [cutStmt, render_inl], rfl⟩
  | cons c children ih =>
    rw [flatForms, contains, hx s] at h
    cases hcut : cut (lit "{}") s with
    | none =>
      rw [hcut] at h
      simp only [Option.map_none, Option.isSome_none, Bool.false_eq_true, if_false,
        Option.some.injEq, Prod.mk.injEq] at h
      obtain ⟨-, rfl, rfl⟩ := h
      exact ⟨by rw [render_cutStmt_of_none hcut], by rw [cutStmt, hcut]⟩
    | some p =>
      obtain ⟨before, after⟩ := p
      rw [hcut] at h
      simp only [Option.map_some, Option.isSome_some, if_true, Option.bind_eq_bind,
        Option.bind_eq_some_iff] at h
      obtain ⟨t, ht, h⟩ := h
      rw [replaceFirst_append hx hcut] at h
      have hpre := hx.append (transparent_blockTag (.inr rfl)
        (cut_eq_none_of_cut (by decide) hcut) t)
      obtain ⟨rfl, rfl⟩ := ih hpre h
      refine ⟨?_, by rw [cutStmt, hcut]⟩
      rw [render_cutStmt_cons hcut, typesIn, ht]
      simp

/-- In the Type I run both forms are the same. -/
theorem flatForms_same {children left : List ℕ} {norm filled filled1 : Text}
    (h : flatForms false segHashes children norm norm = some (filled, filled1, left)) :
    filled = filled1 := by
  induction children generalizing norm with
  | nil =>
    simp only [flatForms, Option.some.injEq, Prod.mk.injEq] at h
    obtain ⟨rfl, rfl, -⟩ := h
    rfl
  | cons c children ih =>
    rw [flatForms] at h
    split at h
    · obtain ⟨t, -, h⟩ := Option.bind_eq_some_iff.mp h
      exact ih h
    · simp only [Option.some.injEq, Prod.mk.injEq] at h
      obtain ⟨rfl, rfl, -⟩ := h
      rfl

/-- A form without placeholders stays as it is. -/
theorem flatForms_of_none {children left : List ℕ} {norm norm1 filled filled1 : Text}
    (hspaced : cut (lit "{ }") norm = none) (hbraces : cut (lit "{}") norm = none)
    (h : flatForms true segHashes children norm norm1 = some (filled, filled1, left)) :
    filled = norm := by
  induction children generalizing norm1 with
  | nil =>
    simp only [flatForms, Option.some.injEq, Prod.mk.injEq] at h
    exact h.1.symm
  | cons c children ih =>
    have hno : ¬ contains (lit "{ }") norm := by simp [contains, hspaced]
    rw [flatForms] at h
    split at h
    · obtain ⟨t, -, h⟩ := Option.bind_eq_some_iff.mp h
      simp only [if_true, replaceFirst, hbraces] at h
      exact ih h
    · simp only [Option.some.injEq, Prod.mk.injEq] at h
      exact h.1.symm

/-- **The Type II form of a statement** in the flat list. -/
theorem flatForms_structural {children left : List ℕ} {x s x1 s1 filled filled1 : Text}
    (hx1 : Transparent (lit "{}") x1) (hspaced : Transparent (lit "{ }") x)
    (hbraces : Transparent (lit "{}") x) (hs : cut (lit "{}") s = none)
    (h : flatForms true segHashes children (x ++ s) (x1 ++ s1) = some (filled, filled1, left)) :
    filled = x ++ render (typesIn segHashes)
      (cutStmt (lit "{ }") (blocksIn (cutStmt (lit "{}") children s1).1) s).1 := by
  induction children generalizing x s x1 s1 with
  | nil =>
    simp only [flatForms, Option.some.injEq, Prod.mk.injEq] at h
    rw [blocksIn_cutStmt_nil, cutStmt, render_inl]
    exact h.1.symm
  | cons c children ih =>
    cases hcut1 : cut (lit "{}") s1 with
    | none =>
      rw [flatForms, contains, hx1 s1, hcut1] at h
      simp only [Option.map_none, Option.isSome_none, Bool.false_eq_true, if_false,
        Option.some.injEq, Prod.mk.injEq] at h
      rw [blocksIn_cutStmt_of_none hcut1, cutStmt, render_inl]
      exact h.1.symm
    | some p1 =>
      obtain ⟨before1, after1⟩ := p1
      rw [blocksIn_cutStmt_cons hcut1]
      cases hcut : cut (lit "{ }") s with
      | none =>
        rw [render_cutStmt_of_none hcut]
        exact flatForms_of_none (by rw [hspaced s, hcut]; rfl) (by rw [hbraces s, hs]; rfl) h
      | some p =>
        obtain ⟨before, after⟩ := p
        have hparts := eq_of_cut hcut
        have hpart : ∀ q, q <:+: s → cut (lit "{}") q = none := by
          intro q hq
          by_contra hne
          have hholds := contains_iff_part.mp (Option.isSome_iff_ne_none.mpr hne)
          have hs' : contains (lit "{}") s := contains_iff_part.mpr (hholds.trans hq)
          rw [contains, hs] at hs'
          cases hs'
        have hbefore := hpart before ⟨[], lit "{ }" ++ after, by rw [hparts]; simp⟩
        have hafter := hpart after ⟨before ++ lit "{ }", [], by rw [hparts]; simp⟩
        rw [flatForms, contains, hx1 s1, hcut1] at h
        have hfound : contains (lit "{ }") (x ++ s) := by rw [contains, hspaced s, hcut]; rfl
        simp only [Option.map_some, Option.isSome_some, if_true, Option.bind_eq_bind,
          Option.bind_eq_some_iff, hfound] at h
        obtain ⟨t, ht, h⟩ := h
        rw [replaceFirst_append hx1 hcut1, replaceFirst_append hspaced hcut] at h
        have hfilled := ih
          (hx1.append (transparent_blockTag (.inr rfl) (cut_eq_none_of_cut (by decide) hcut1) t))
          (hspaced.append (transparent_blockTag (.inl rfl) (cut_eq_none_of_cut (by decide) hcut) t))
          (hbraces.append (transparent_blockTag (.inr rfl) hbefore t)) hafter h
        rw [hfilled, render_cutStmt_cons hcut, typesIn, ht]
        simp

end Filled

/-! ### The flat list -/

section Flat

variable {U : CharTable} {type2Norm : Bool} {segHashes : Dict ℕ ℕ}

theorem map_norm_flatSources {segId idx : ℕ} {stmts : List Statement} {children : List ℕ}
    {entries : List FlatEntry}
    (h : flatStmts U type2Norm segHashes segId idx stmts children = some entries) :
    entries.map FlatEntry.norm = (flatSources U stmts children).map fun source =>
      render (typesIn segHashes) (source.form type2Norm) := by
  induction stmts generalizing idx children entries with
  | nil =>
    obtain rfl : [] = entries := by simpa [flatStmts] using h
    rfl
  | cons stmt stmts ih =>
    simp only [flatStmts, Option.bind_eq_bind, Option.bind_eq_some_iff] at h
    obtain ⟨⟨norm, norm1, left⟩, hforms, rest, hrest, heq⟩ := h
    obtain rfl := Option.some.inj heq
    obtain ⟨hexact, hleft⟩ := flatForms_exact (.nil _) hforms
    rw [flatSources, List.map_cons, List.map_cons, ih hrest, hleft]
    refine congrArg₂ List.cons ?_ rfl
    cases type2Norm with
    | false => exact (flatForms_same hforms).trans hexact
    | true =>
      exact flatForms_structural (.nil _) (.nil _) (.nil _)
        (cut_braces_normalizeStmtType2 stmt.raw) hforms

theorem map_norm_flatSegments {segments segs : List Segment} {flat : List (Option FlatEntry)}
    (h : flatSegments U type2Norm segHashes segments segs = some flat) :
    flat.map (Option.map FlatEntry.norm) = (sourceList U segments segs).map
      (Option.map fun source => render (typesIn segHashes) (source.form type2Norm)) := by
  induction segs generalizing flat with
  | nil =>
    obtain rfl : [] = flat := by simpa [flatSegments] using h
    rfl
  | cons seg segs ih =>
    simp only [flatSegments, Option.bind_eq_bind, Option.bind_eq_some_iff] at h
    obtain ⟨entries, hentries, rest, hrest, heq⟩ := h
    obtain rfl := Option.some.inj heq
    have hforms := map_norm_flatSources hentries
    have hsome := congrArg (List.map some) hforms
    rw [List.map_map, List.map_map] at hsome
    rw [sourceList, List.flatMap_cons, List.map_append, List.map_append, List.map_append,
      List.append_assoc, List.map_cons, ih hrest, List.map_map, List.map_map]
    exact congrArg₂ (· ++ ·) hsome rfl

/-- The normal form at a position. -/
theorem normAt_flatten {sha256 : Text → Text} {segments : List Segment}
    {flat : List (Option FlatEntry)} (h : flatten U sha256 type2Norm segments = some flat) :
    ∃ T, blockTypes U sha256 type2Norm segments = some T ∧ ∀ i, normAt flat i =
      ((sourceList U segments segments)[i]?.join).map fun source =>
        render T.typeOf (source.form type2Norm) := by
  obtain ⟨T, hT, hflat⟩ := Option.bind_eq_some_iff.mp h
  refine ⟨T, hT, fun i => ?_⟩
  have hmap := congrArg (fun l => (l[i]?).join) (map_norm_flatSegments hflat)
  simp only [List.getElem?_map] at hmap
  have hjoin : ∀ {α : Type} (o : Option (Option α)) (f : α → Text),
      (o.map (Option.map f)).join = o.join.map f := by
    intro α o f
    rcases o with _ | _ | _ <;> rfl
  rw [hjoin, hjoin] at hmap
  exact hmap

end Flat

/-! ### Equal forms -/

section Equal

variable {types : ℕ → ℕ}

/-- The text that was cut. -/
theorem text_cutStmt (target : Text) (children : List ℕ) (s : Text) :
    (cutStmt target children s).1.flatMap (Sum.elim (fun c => [c]) fun _ => target) = s := by
  have hinl : ∀ s : Text, (s.map (Sum.inl (β := ℕ))).flatMap
      (Sum.elim (fun c => [c]) fun _ => target) = s := by
    intro s
    rw [List.flatMap_map]
    exact List.flatMap_singleton' s
  induction children generalizing s with
  | nil => exact hinl s
  | cons c children ih =>
    rw [cutStmt]
    cases hcut : cut target s with
    | none => exact hinl s
    | some p =>
      rw [List.flatMap_append, hinl, List.flatMap_cons, ih, eq_of_cut hcut, List.append_assoc]
      rfl

/-- A statement is cut at the same places whatever the children are. -/
theorem map_cutStmt_congr {target : Text} {children children' : List ℕ} {s : Text}
    (h : (blocksIn (cutStmt target children s).1).map types =
      (blocksIn (cutStmt target children' s).1).map types) :
    (cutStmt target children s).1.map (Sum.map id types) =
      (cutStmt target children' s).1.map (Sum.map id types) := by
  induction children generalizing children' s with
  | nil =>
    cases children' with
    | nil => rfl
    | cons c children' =>
      cases hcut : cut target s with
      | none => rw [cutStmt, cutStmt, hcut]
      | some p =>
        rw [blocksIn_cutStmt_cons hcut, blocksIn_cutStmt_nil] at h
        cases h
  | cons c children ih =>
    cases hcut : cut target s with
    | none =>
      cases children' with
      | nil => rw [cutStmt, cutStmt, hcut]
      | cons c' children' => rw [cutStmt, cutStmt, hcut]
    | some p =>
      rw [blocksIn_cutStmt_cons hcut] at h
      cases children' with
      | nil =>
        rw [blocksIn_cutStmt_nil] at h
        cases h
      | cons c' children' =>
        rw [blocksIn_cutStmt_cons hcut] at h
        obtain ⟨hc, hrest⟩ := List.cons.inj h
        rw [cutStmt, cutStmt, hcut]
        show (p.1.map Sum.inl ++ Sum.inr c :: _).map _ = (p.1.map Sum.inl ++ Sum.inr c' :: _).map _
        rw [List.map_append, List.map_append, List.map_cons, List.map_cons, ih hrest, Sum.map_inr,
          Sum.map_inr, hc]

/-- **Two statements are filled alike** if their texts are the same and the children that they take
have the same types. -/
theorem map_types_cutStmt_iff {target : Text} {children children' : List ℕ} {s s' : Text} :
    (cutStmt target children s).1.map (Sum.map id types) =
        (cutStmt target children' s').1.map (Sum.map id types) ↔
      s = s' ∧ (blocksIn (cutStmt target children s).1).map types =
        (blocksIn (cutStmt target children' s').1).map types := by
  constructor
  · intro h
    have htext : ∀ m : Marked ℕ, m.flatMap (Sum.elim (fun c => [c]) fun _ => target) =
        (m.map (Sum.map id types)).flatMap (Sum.elim (fun c => [c]) fun _ => target) := by
      intro m
      rw [List.flatMap_map]
      exact List.flatMap_congr fun x _ => by cases x <;> rfl
    have hblocks : ∀ m : Marked ℕ, (blocksIn m).map types =
        (m.map (Sum.map id types)).filterMap Sum.getRight? := by
      intro m
      rw [blocksIn, List.map_filterMap, List.filterMap_map]
      refine List.filterMap_congr fun x _ => ?_
      cases x <;> rfl
    refine ⟨?_, by rw [hblocks, hblocks, h]⟩
    rw [← text_cutStmt target children s, htext, h, ← htext, text_cutStmt]
  · rintro ⟨rfl, htypes⟩
    exact map_cutStmt_congr htypes

/-- Filled statements are the same if the texts and the types are. -/
theorem render_cutStmt_eq_iff {target : Text} {children children' : List ℕ} {s s' : Text}
    (hs : 'B' ∉ s) (hs' : 'B' ∉ s') :
    render types (cutStmt target children s).1 = render types (cutStmt target children' s').1 ↔
      s = s' ∧ (blocksIn (cutStmt target children s).1).map types =
        (blocksIn (cutStmt target children' s').1).map types := by
  rw [← map_types_cutStmt_iff]
  exact ⟨render_inj (capitalB_not_mem_cutStmt _ _ hs) (capitalB_not_mem_cutStmt _ _ hs'),
    render_eq_of_map_eq⟩

theorem map_eq_map_iff {α β γ : Type} {f : α → β} {g : α → γ} {l l' : List α}
    (h : ∀ a ∈ l, ∀ b ∈ l', f a = f b ↔ g a = g b) :
    l.map f = l'.map f ↔ l.map g = l'.map g := by
  induction l generalizing l' with
  | nil => cases l' <;> simp
  | cons a l ih =>
    cases l' with
    | nil => simp
    | cons b l' =>
      rw [List.map_cons, List.map_cons, List.map_cons, List.map_cons, List.cons.injEq,
        List.cons.injEq, h a List.mem_cons_self b List.mem_cons_self,
        ih fun x hx y hy => h x (List.mem_cons_of_mem a hx) y (List.mem_cons_of_mem b hy)]

end Equal

/-! ### Both runs -/

section Runs

variable {U : CharTable} {sha256 : Text → Text} {segments : List Segment}

theorem mem_blocksIn {m : Marked ℕ} {c : ℕ} : c ∈ blocksIn m ↔ .inr c ∈ m := by
  rw [blocksIn, List.mem_filterMap]
  constructor
  · rintro ⟨x, hx, hc⟩
    rwa [Sum.getRight?_eq_some_iff.mp hc] at hx
  · exact fun h => ⟨_, h, rfl⟩

/-- The statements of the flat list stand in front of children of the representation. -/
theorem exists_of_mem_sourceList {segs : List Segment} {source : FlatSource}
    (h : some source ∈ sourceList U segments segs) : ∃ children,
      source = (flatSource U children source.raw).1 ∧
      ∀ c ∈ children, ∃ seg ∈ segments, seg.id = c := by
  have hstmts : ∀ (stmts : List Statement) (children : List ℕ),
      (∀ c ∈ children, ∃ seg ∈ segments, seg.id = c) → source ∈ flatSources U stmts children →
      ∃ children, source = (flatSource U children source.raw).1 ∧
        ∀ c ∈ children, ∃ seg ∈ segments, seg.id = c := by
    intro stmts
    induction stmts with
    | nil => nofun
    | cons stmt stmts ih =>
      intro children hchildren hmem
      rcases List.mem_cons.mp hmem with rfl | hmem
      · exact ⟨children, rfl, hchildren⟩
      · exact ih _ (fun c hc => hchildren c (mem_left_cutStmt hc)) hmem
  obtain ⟨seg, -, hmem⟩ := List.mem_flatMap.mp h
  rcases List.mem_append.mp hmem with hmem | hmem
  · obtain ⟨source', hsource, heq⟩ := List.mem_map.mp hmem
    obtain rfl := Option.some.inj heq
    refine hstmts _ _ (fun c hc => ?_) hsource
    obtain ⟨child, hchild, hid, -⟩ := mem_childrenOf.mp hc
    exact ⟨child, hchild, hid⟩
  · cases List.mem_singleton.mp hmem

variable (U segments)

/-- The tree of a block. -/
def treeOf (type2Norm : Bool) (c : ℕ) : Option ExpandedTree :=
  expandedTree U type2Norm segments (segments.length + 1) c

/-- Two statements have the same Type I form: the same text up to white space and case, and blocks
with the same trees. -/
structure SameExact (s t : FlatSource) : Prop where
  text : normalizeStmt U s.raw = normalizeStmt U t.raw
  blocks : (blocksIn s.exact).map (treeOf U segments false) =
    (blocksIn t.exact).map (treeOf U segments false)

/-- Two statements have the same Type II form: tokens that correspond, and blocks with the same
trees. -/
structure SameStructural (s t : FlatSource) : Prop where
  tokens : Corresponds U (tokenize U s.raw) (tokenize U t.raw)
  blocks : (blocksIn s.structural).map (treeOf U segments true) =
    (blocksIn t.structural).map (treeOf U segments true)

/-- Every pair of ranges with the same normal forms in the Type I run has the same normal forms in
the Type II run. -/
def ExactIsStructural (exact structural : List (Option FlatEntry)) : Prop :=
  ∀ a b n, (∀ k < n, Matches 0 exact (a + k) (b + k)) →
    ∀ k < n, Matches 0 structural (a + k) (b + k)

variable {U segments}

theorem exactIsStructural_iff_matches {exact structural : List (Option FlatEntry)} :
    ExactIsStructural exact structural ↔ ∀ i j, Matches 0 exact i j → Matches 0 structural i j := by
  constructor
  · intro h i j hij
    exact h i j 1 (fun k hk => by rwa [Nat.lt_one_iff.mp hk]) 0 Nat.one_pos
  · exact fun h a b n hall k hk => h _ _ (hall k hk)

/-- Positions match whose statements are filled to the same form. -/
theorem matches_iff {type2Norm : Bool} {flat : List (Option FlatEntry)} {T : BlockTypes}
    (h : ∀ i, normAt flat i = ((sourceList U segments segments)[i]?.join).map fun source =>
      render T.typeOf (source.form type2Norm)) (i j : ℕ) :
    Matches 0 flat i j ↔ ∃ s t, (sourceList U segments segments)[i]? = some (some s) ∧
      (sourceList U segments segments)[j]? = some (some t) ∧
      render T.typeOf (s.form type2Norm) = render T.typeOf (t.form type2Norm) := by
  constructor
  · rintro ⟨norm, hi, hj, -⟩
    rw [h, Option.map_eq_some_iff] at hi hj
    obtain ⟨s, hs, rfl⟩ := hi
    obtain ⟨t, ht, heq⟩ := hj
    exact ⟨s, t, Option.join_eq_some_iff.mp hs, Option.join_eq_some_iff.mp ht, heq.symm⟩
  · rintro ⟨s, t, hs, ht, heq⟩
    refine ⟨render T.typeOf (s.form type2Norm), ?_, ?_, fun hpos => absurd hpos (lt_irrefl (0 : ℤ))⟩
    · rw [h, hs]
      rfl
    · rw [h, ht, heq]
      rfl

/-- Equal block types are those of equal trees. -/
theorem map_typeOf_eq_iff {type2Norm : Bool} {T : BlockTypes} (hsha : Function.Injective sha256)
    (hacyclic : Acyclic segments) (hT : blockTypes U sha256 type2Norm segments = some T)
    {cs ds : List ℕ} (hcs : ∀ c ∈ cs, ∃ seg ∈ segments, seg.id = c)
    (hds : ∀ d ∈ ds, ∃ seg ∈ segments, seg.id = d) :
    cs.map T.typeOf = ds.map T.typeOf ↔
      cs.map (treeOf U segments type2Norm) = ds.map (treeOf U segments type2Norm) := by
  obtain ⟨T', hT', htrees⟩ := exists_trees U type2Norm hsha hacyclic
  obtain rfl := Option.some.inj (hT.symm.trans hT')
  refine map_eq_map_iff fun c hc d hd => ?_
  obtain ⟨s, hs, rfl⟩ := hcs c hc
  obtain ⟨t, ht, rfl⟩ := hds d hd
  obtain ⟨x, y, a, b, hx, hy, ha, hb, hiff⟩ := htrees s hs t ht
  rw [treeOf, treeOf, hx, hy, BlockTypes.typeOf, BlockTypes.typeOf, ha, hb, Option.some.injEq]
  exact hiff

section Forms

variable {T : BlockTypes} (hsha : Function.Injective sha256) (hacyclic : Acyclic segments)
  {s t : FlatSource} (hs : some s ∈ sourceList U segments segments)
  (ht : some t ∈ sourceList U segments segments)
include hsha hacyclic hs ht

theorem render_exact_eq_iff (hT : blockTypes U sha256 false segments = some T) :
    render T.typeOf s.exact = render T.typeOf t.exact ↔ SameExact U segments s t := by
  obtain ⟨cs, hcs, hids⟩ := exists_of_mem_sourceList hs
  obtain ⟨ds, hds, hidt⟩ := exists_of_mem_sourceList ht
  have hexact : s.exact = (cutStmt (lit "{}") cs (normalizeStmt U s.raw)).1 :=
    congrArg FlatSource.exact hcs
  have hexact' : t.exact = (cutStmt (lit "{}") ds (normalizeStmt U t.raw)).1 :=
    congrArg FlatSource.exact hds
  have hform : render T.typeOf s.exact = render T.typeOf t.exact ↔
      normalizeStmt U s.raw = normalizeStmt U t.raw ∧
        (blocksIn s.exact).map T.typeOf = (blocksIn t.exact).map T.typeOf := by
    rw [hexact, hexact']
    exact render_cutStmt_eq_iff (capitalB_not_mem_normalizeStmt U s.raw)
      (capitalB_not_mem_normalizeStmt U t.raw)
  rw [hform, map_typeOf_eq_iff hsha hacyclic hT (fun c hc => hids c ?_) (fun d hd => hidt d ?_)]
  · exact ⟨fun h => ⟨h.1, h.2⟩, fun h => ⟨h.text, h.blocks⟩⟩
  · rw [hexact] at hc
    exact mem_cutStmt (mem_blocksIn.mp hc)
  · rw [hexact'] at hd
    exact mem_cutStmt (mem_blocksIn.mp hd)

theorem render_structural_eq_iff (hT : blockTypes U sha256 true segments = some T) :
    render T.typeOf s.structural = render T.typeOf t.structural ↔
      SameStructural U segments s t := by
  obtain ⟨cs, hcs, hids⟩ := exists_of_mem_sourceList hs
  obtain ⟨ds, hds, hidt⟩ := exists_of_mem_sourceList ht
  have hstructural := congrArg FlatSource.structural hcs
  have hstructural' := congrArg FlatSource.structural hds
  have hform : render T.typeOf s.structural = render T.typeOf t.structural ↔
      normalizeStmtType2 U s.raw = normalizeStmtType2 U t.raw ∧
        (blocksIn s.structural).map T.typeOf = (blocksIn t.structural).map T.typeOf := by
    rw [hstructural, hstructural']
    exact render_cutStmt_eq_iff (capitalB_not_mem_normalizeStmtType2 U s.raw)
      (capitalB_not_mem_normalizeStmtType2 U t.raw)
  have htokens : normalizeStmtType2 U s.raw = normalizeStmtType2 U t.raw ↔
      Corresponds U (tokenize U s.raw) (tokenize U t.raw) := by
    rw [corresponds_iff (reads_tokenize _) (reads_tokenize _)]
    exact normalizeStmtType2_eq_iff_sameKind _ _
  have hmem : ∀ {children : List ℕ} {raw : Text} {c : ℕ},
      c ∈ blocksIn (flatSource U children raw).1.structural → c ∈ children :=
    fun hc => mem_cutStmt (mem_blocksIn.mp (mem_cutStmt (mem_blocksIn.mp hc)))
  rw [hform, htokens, map_typeOf_eq_iff hsha hacyclic hT (fun c hc => hids c ?_)
    (fun d hd => hidt d ?_)]
  · exact ⟨fun h => ⟨h.1, h.2⟩, fun h => ⟨h.tokens, h.blocks⟩⟩
  · rw [hstructural] at hc
    exact hmem hc
  · rw [hstructural'] at hd
    exact hmem hd

end Forms

/-- **When exact clones are structural clones**: if all statements with the same Type I form have
tokens that correspond, and blocks with the same Type II trees. -/
theorem exactIsStructural_iff (hsha : Function.Injective sha256) (hacyclic : Acyclic segments) :
    ∃ exact structural, flatten U sha256 false segments = some exact ∧
      flatten U sha256 true segments = some structural ∧
      (ExactIsStructural exact structural ↔
        ∀ s t, some s ∈ sourceList U segments segments → some t ∈ sourceList U segments segments →
          SameExact U segments s t → SameStructural U segments s t) := by
  have hsome : ∀ type2Norm, (flatten U sha256 type2Norm segments).isSome :=
    fun _ => flatten_isSome U sha256 _ hacyclic
  obtain ⟨exact, hexact⟩ := Option.isSome_iff_exists.mp (hsome false)
  obtain ⟨structural, hstructural⟩ := Option.isSome_iff_exists.mp (hsome true)
  obtain ⟨T, hT, hnorm⟩ := normAt_flatten hexact
  obtain ⟨T', hT', hnorm'⟩ := normAt_flatten hstructural
  refine ⟨exact, structural, hexact, hstructural, ?_⟩
  rw [exactIsStructural_iff_matches]
  constructor
  · intro h s t hs ht hsame
    obtain ⟨i, hi⟩ := List.mem_iff_getElem?.mp hs
    obtain ⟨j, hj⟩ := List.mem_iff_getElem?.mp ht
    have hmatch := h i j ((matches_iff hnorm i j).mpr
      ⟨s, t, hi, hj, (render_exact_eq_iff hsha hacyclic hs ht hT).mpr hsame⟩)
    obtain ⟨s', t', hs', ht', heq⟩ := (matches_iff hnorm' i j).mp hmatch
    obtain rfl := Option.some.inj (Option.some.inj (hi.symm.trans hs'))
    obtain rfl := Option.some.inj (Option.some.inj (hj.symm.trans ht'))
    exact (render_structural_eq_iff hsha hacyclic hs ht hT').mp heq
  · intro h i j hmatch
    obtain ⟨s, t, hi, hj, heq⟩ := (matches_iff hnorm i j).mp hmatch
    have hs := List.mem_of_getElem? hi
    have ht := List.mem_of_getElem? hj
    have hsame := h s t hs ht ((render_exact_eq_iff hsha hacyclic hs ht hT).mp heq)
    exact (matches_iff hnorm' i j).mpr
      ⟨s, t, hi, hj, (render_structural_eq_iff hsha hacyclic hs ht hT').mpr hsame⟩

end Runs

/-! ### Two names that differ in case -/

/-- Two functions that are the same in lower case. The first one assigns another variable, the
second one the variable itself. -/
def shoutedNames : List Segment :=
  let stmt := fun s : String => ({ raw := lit s, kind := .expr } : Statement)
  [{ id := 0, parent := 0, type := .root, name := lit "root", scopePath := lit "root", head := none,
     stmts := [stmt "void f() {}", stmt "void g() {}"] },
   { id := 1, parent := 0, type := .function, name := lit "f", scopePath := lit "root.f",
     head := some (lit "void f()"), stmts := [stmt "a = A;", stmt "run();"] },
   { id := 2, parent := 0, type := .function, name := lit "g", scopePath := lit "root.g",
     head := some (lit "void g()"), stmts := [stmt "a = a;", stmt "run();"] }]

theorem acyclic_shoutedNames : Acyclic shoutedNames := by
  refine ⟨fun id => 1 - id, ?_⟩
  decide

theorem exactIsStructural_iff_shoutedNames :
    ∃ exact structural, flatten .ascii id false shoutedNames = some exact ∧
      flatten .ascii id true shoutedNames = some structural ∧
      (ExactIsStructural exact structural ↔
        ∀ s t, some s ∈ sourceList .ascii shoutedNames shoutedNames →
          some t ∈ sourceList .ascii shoutedNames shoutedNames →
          SameExact .ascii shoutedNames s t → SameStructural .ascii shoutedNames s t) :=
  exactIsStructural_iff Function.injective_id acyclic_shoutedNames

theorem not_exactIsStructural :
    ∃ exact structural, flatten .ascii id false shoutedNames = some exact ∧
      flatten .ascii id true shoutedNames = some structural ∧
      ¬ ExactIsStructural exact structural := by
  have hforms : (flatten .ascii id false shoutedNames).any fun exact =>
      (flatten .ascii id true shoutedNames).any fun structural =>
        normAt exact 3 = some (lit "a = a;") ∧ normAt exact 6 = some (lit "a = a;") ∧
          normAt structural 3 ≠ normAt structural 6 := by decide +kernel
  obtain ⟨exact, hexact, hforms⟩ := (Option.any_eq_true _ _).mp hforms
  obtain ⟨structural, hstructural, hforms⟩ := (Option.any_eq_true _ _).mp hforms
  obtain ⟨hf, hg, hne⟩ := of_decide_eq_true hforms
  refine ⟨exact, structural, hexact, hstructural, fun h => ?_⟩
  obtain ⟨norm, hf', hg', -⟩ := exactIsStructural_iff_matches.mp h 3 6
    ⟨_, hf, hg, fun hpos => absurd hpos (lt_irrefl (0 : ℤ))⟩
  exact hne (hf'.trans hg'.symm)

end Csc512
