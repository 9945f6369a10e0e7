import Csc512.Cdup.Flatten

/-!
# What equal block types mean

A recorded block type is the number of the hash of the statements of its segment, in which the
recorded block types of the children are filled in. Different hashes have different numbers, so
segments with the same block type have the same hash.

This is about the Type I run, in which the statements that are hashed are those of the flat list.

## Main results

* `sound_blockTypes` — what the recorded block types stand for
* `hash_eq_of_sound` — segments with the same block type have the same hash
-/

namespace Csc512

namespace BlockTypes

/-- What `T` has recorded, `T'` has recorded too. -/
structure Extends (T T' : BlockTypes) : Prop where
  segHashes : ∀ {id t}, T.segHashes.get? id = some t → T'.segHashes.get? id = some t
  ids : ∀ {h t}, T.globalHashToId.get? h = some t → T'.globalHashToId.get? h = some t

theorem Extends.refl (T : BlockTypes) : T.Extends T := ⟨fun h => h, fun h => h⟩

theorem Extends.trans {T₁ T₂ T₃ : BlockTypes} (h : T₁.Extends T₂) (h' : T₂.Extends T₃) :
    T₁.Extends T₃ :=
  ⟨fun hid => h'.segHashes (h.segHashes hid), fun hid => h'.ids (h.ids hid)⟩

theorem extends_assign {T : BlockTypes} {segId : ℕ} (hnew : T.segHashes.get? segId = none)
    (h : Text) : T.Extends (T.assign segId h).2 where
  segHashes {id t} hid := by
    have hne : id ≠ segId := by
      rintro rfl
      rw [hnew] at hid
      cases hid
    rw [get?_assign, if_neg hne, hid]
  ids hid := Dict.get?_upsert_numberOf hid h

variable (U : CharTable) (sha256 : Text → Text) (segments : List Segment)

/-- The block types are the numbers of the hashes of the segments. -/
structure Sound (T : BlockTypes) : Prop where
  numbering : T.globalHashToId.Numbering
  types : ∀ {id t}, T.segHashes.get? id = some t → ∃ seg entries,
    segById segments id = some seg ∧
    flatStmts U false T.segHashes id 0 seg.stmts (childrenOf segments id) = some entries ∧
    T.globalHashToId.get? (sha256 ([' '].intercalate (entries.map FlatEntry.norm))) = some t

theorem Sound.empty : Sound U sha256 segments BlockTypes.empty where
  numbering := Dict.Numbering.empty
  types h := by cases h

end BlockTypes

open BlockTypes

variable {U : CharTable} {sha256 : Text → Text} {segments : List Segment}

/-! ### The flat forms under more block types -/

theorem flatForms_mono {type2Norm : Bool} {d d' : Dict ℕ ℕ}
    (h : ∀ {c t}, d.get? c = some t → d'.get? c = some t) {children : List ℕ}
    {norm norm1 : Text} {r : Text × Text × List ℕ}
    (hr : flatForms type2Norm d children norm norm1 = some r) :
    flatForms type2Norm d' children norm norm1 = some r := by
  induction children generalizing norm norm1 with
  | nil => exact hr
  | cons c children ih =>
    rw [flatForms] at hr ⊢
    split at hr
    · obtain ⟨t, ht, hrest⟩ := Option.bind_eq_some_iff.mp hr
      rw [if_pos ‹_›, h ht]
      exact ih hrest
    · rw [if_neg ‹_›]
      exact hr

theorem flatStmts_mono {type2Norm : Bool} {d d' : Dict ℕ ℕ}
    (h : ∀ {c t}, d.get? c = some t → d'.get? c = some t) {segId idx : ℕ}
    {stmts : List Statement} {children : List ℕ} {entries : List FlatEntry}
    (hentries : flatStmts U type2Norm d segId idx stmts children = some entries) :
    flatStmts U type2Norm d' segId idx stmts children = some entries := by
  induction stmts generalizing idx children entries with
  | nil => exact hentries
  | cons stmt stmts ih =>
    obtain ⟨⟨norm, norm1, left⟩, hforms, hrest⟩ := Option.bind_eq_some_iff.mp hentries
    obtain ⟨rest, hrest, heq⟩ := Option.bind_eq_some_iff.mp hrest
    rw [flatStmts]
    simp only [flatForms_mono h hforms, Option.bind_eq_bind, Option.bind_some, ih hrest]
    exact heq

/-! ### The hashed statements are those of the flat list -/

section Hashed

variable {blockType : ℕ → BlockTypes → Option (ℕ × BlockTypes)}

theorem flatForms_of_fillPlaceholders {children left : List ℕ} {stmt filled : Text}
    {T T' T'' : BlockTypes}
    (hblock : ∀ c ∈ children, ∀ T t T', blockType c T = some (t, T') →
      T'.segHashes.get? c = some t ∧ T.Extends T')
    (h : fillPlaceholders blockType (lit "{}") children stmt T = some (filled, left, T'))
    (hlater : T'.Extends T'') :
    flatForms false T''.segHashes children stmt stmt = some (filled, filled, left) := by
  induction children generalizing stmt T with
  | nil =>
    simp only [fillPlaceholders, Option.some.injEq, Prod.mk.injEq] at h
    obtain ⟨rfl, rfl, -⟩ := h
    rfl
  | cons c children ih =>
    have hrest : ∀ d ∈ children, ∀ T t T', blockType d T = some (t, T') →
        T'.segHashes.get? d = some t ∧ T.Extends T' :=
      fun d hd => hblock d (List.mem_cons_of_mem _ hd)
    rw [fillPlaceholders] at h
    rw [flatForms]
    split at h
    · obtain ⟨⟨t, T₁⟩, hfirst, h⟩ := Option.bind_eq_some_iff.mp h
      have hkept : T₁.Extends T' := fillPlaceholders_keeps Extends.refl Extends.trans
        (fun d hd T t T' hd' => (hrest d hd T t T' hd').2) h
      have ht := (hkept.trans hlater).segHashes (hblock c List.mem_cons_self _ _ _ hfirst).1
      rw [if_pos ‹_›, ht]
      exact ih hrest h
    · simp only [Option.some.injEq, Prod.mk.injEq] at h
      obtain ⟨rfl, rfl, -⟩ := h
      rw [if_neg ‹_›]

theorem flatStmts_of_hashedStmts {children : List ℕ} {stmts : List Statement}
    {hashed : List Text} {T T' T'' : BlockTypes}
    (hblock : ∀ c ∈ children, ∀ T t T', blockType c T = some (t, T') →
      T'.segHashes.get? c = some t ∧ T.Extends T')
    (h : hashedStmts U false blockType stmts children T = some (hashed, T'))
    (hlater : T'.Extends T'') (segId idx : ℕ) : ∃ entries,
      flatStmts U false T''.segHashes segId idx stmts children = some entries ∧
      entries.map FlatEntry.norm = hashed := by
  induction stmts generalizing idx children hashed T with
  | nil =>
    simp only [hashedStmts, Option.some.injEq, Prod.mk.injEq] at h
    exact ⟨[], rfl, h.1⟩
  | cons stmt stmts ih =>
    simp only [hashedStmts, Option.bind_eq_bind, Option.bind_eq_some_iff] at h
    obtain ⟨⟨filled, left, T₁⟩, hfirst, ⟨rest, T₂⟩, hrest, heq⟩ := h
    obtain ⟨rfl, rfl⟩ := Prod.mk.inj (Option.some.inj heq)
    have hsub := suffix_of_fillPlaceholders hfirst
    have hleft : ∀ c ∈ left, ∀ T t T', blockType c T = some (t, T') →
        T'.segHashes.get? c = some t ∧ T.Extends T' := fun c hc => hblock c (hsub.mem hc)
    have hkept : T₁.Extends T₂ := hashedStmts_keeps Extends.refl Extends.trans
      (fun c hc T t T' hc' => (hleft c hc T t T' hc').2) hrest
    obtain ⟨entries, hentries, hnorm⟩ := ih hleft hrest (idx + 1)
    have hforms := flatForms_of_fillPlaceholders hblock hfirst (hkept.trans hlater)
    refine ⟨⟨segId, idx, filled, filled⟩ :: entries, ?_, by rw [List.map_cons, hnorm]⟩
    have hform : flatForms false T''.segHashes children (normalizeStmt U stmt.raw)
        (normalizeStmt U stmt.raw) = some (filled, filled, left) := hforms
    rw [flatStmts]
    simp only [Bool.false_eq_true, if_false, hform, Option.bind_eq_bind, Option.bind_some,
      hentries]

end Hashed

/-! ### Looking up block types -/

section Ranked

variable {rank : ℕ → ℕ}
  (hrank : ∀ seg ∈ segments, seg.id ≠ 0 → seg.parent ≠ seg.id → rank seg.id < rank seg.parent)

include hrank

theorem rank_lt_of_mem_childrenOf {c parent : ℕ} (hc : c ∈ childrenOf segments parent) :
    rank c < rank parent := by
  obtain ⟨seg, hseg, rfl, hzero, hne, rfl⟩ := mem_childrenOf.mp hc
  exact hrank seg hseg hzero hne

/-- Looking up a block type records nothing about segments above or beside. -/
theorem getBlockTypeId_frame {type2Norm : Bool} {fuel segId t : ℕ} {T T' : BlockTypes}
    (h : getBlockTypeId U sha256 type2Norm segments fuel segId T = some (t, T')) {id : ℕ}
    (hle : rank segId ≤ rank id) (hne : id ≠ segId) :
    T'.segHashes.get? id = T.segHashes.get? id := by
  induction fuel generalizing segId t T T' with
  | zero => cases h
  | succ fuel ih =>
    rcases getBlockTypeId_cases h with ⟨-, rfl⟩ | ⟨-, seg, hashed, T₁, -, hhashed, heq⟩
    · rfl
    · have hkept : T₁.segHashes.get? id = T.segHashes.get? id := by
        refine hashedStmts_keeps (R := fun T T' => T'.segHashes.get? id = T.segHashes.get? id)
          (fun _ => rfl) (fun h h' => h'.trans h) (fun c hc T t T' hc' => ?_) hhashed
        have hlt := rank_lt_of_mem_childrenOf hrank hc
        refine ih hc' (by omega) ?_
        rintro rfl
        omega
      have hassign := get?_assign T₁ segId (sha256 (List.intercalate [' '] hashed)) id
      rw [heq, if_neg hne] at hassign
      exact hassign.trans hkept

/-- The children of a segment record nothing about it. -/
theorem hashedStmts_frame {type2Norm : Bool} {fuel segId : ℕ} {stmts : List Statement}
    {hashed : List Text} {T T₁ : BlockTypes}
    (h : hashedStmts U type2Norm (getBlockTypeId U sha256 type2Norm segments fuel) stmts
      (childrenOf segments segId) T = some (hashed, T₁)) :
    T₁.segHashes.get? segId = T.segHashes.get? segId := by
  refine hashedStmts_keeps (R := fun T T' => T'.segHashes.get? segId = T.segHashes.get? segId)
    (fun _ => rfl) (fun h h' => h'.trans h) (fun c hc T t T' hc' => ?_) h
  have hlt := rank_lt_of_mem_childrenOf hrank hc
  refine getBlockTypeId_frame hrank hc' (Nat.le_of_lt hlt) ?_
  rintro rfl
  exact Nat.lt_irrefl _ hlt

/-- Looking up a block type forgets none. -/
theorem getBlockTypeId_extends {type2Norm : Bool} {fuel segId t : ℕ} {T T' : BlockTypes}
    (h : getBlockTypeId U sha256 type2Norm segments fuel segId T = some (t, T')) :
    T.Extends T' := by
  induction fuel generalizing segId t T T' with
  | zero => cases h
  | succ fuel ih =>
    rcases getBlockTypeId_cases h with ⟨-, rfl⟩ | ⟨hnew, seg, hashed, T₁, -, hhashed, heq⟩
    · exact Extends.refl _
    · have hkept : T.Extends T₁ := hashedStmts_keeps Extends.refl Extends.trans
        (fun _ _ _ _ _ hc => ih hc) hhashed
      have hassign := extends_assign ((hashedStmts_frame hrank hhashed).trans hnew)
        (sha256 (List.intercalate [' '] hashed))
      rw [heq] at hassign
      exact hkept.trans hassign

/-- Looking up a block type keeps the block types sound. -/
theorem getBlockTypeId_sound {fuel segId t : ℕ} {T T' : BlockTypes}
    (h : getBlockTypeId U sha256 false segments fuel segId T = some (t, T'))
    (hT : Sound U sha256 segments T) : Sound U sha256 segments T' := by
  induction fuel generalizing segId t T T' with
  | zero => cases h
  | succ fuel ih =>
    rcases getBlockTypeId_cases h with ⟨-, rfl⟩ | ⟨hnew, seg, hashed, T₁, hseg, hhashed, heq⟩
    · exact hT
    · have hT₁ : Sound U sha256 segments T₁ := hashedStmts_keeps
        (R := fun T T' => Sound U sha256 segments T → Sound U sha256 segments T')
        (fun _ h => h) (fun h h' hT => h' (h hT)) (fun _ _ _ _ _ hc hT => ih hc hT) hhashed hT
      obtain rfl : (T₁.assign segId (sha256 (List.intercalate [' '] hashed))).2 = T' :=
        congrArg Prod.snd heq
      have hextends := extends_assign ((hashedStmts_frame hrank hhashed).trans hnew)
        (sha256 (List.intercalate [' '] hashed))
      obtain ⟨entries, hentries, hnorm⟩ := flatStmts_of_hashedStmts
        (fun c _ T t T' hc => ⟨(getBlockTypeId_records hc).1, getBlockTypeId_extends hrank hc⟩)
        hhashed hextends segId 0
      refine ⟨hT₁.numbering.upsert _, fun {id t} hid => ?_⟩
      by_cases hsame : id = segId
      · subst hsame
        rw [get?_assign, if_pos rfl] at hid
        refine ⟨seg, entries, hseg, hentries, ?_⟩
        rw [hnorm, ← hid]
        exact Dict.get?_upsert_self _ _ _
      · rw [get?_assign, if_neg hsame] at hid
        obtain ⟨seg', entries', hseg', hentries', hget⟩ := hT₁.types hid
        exact ⟨seg', entries', hseg', flatStmts_mono hextends.segHashes hentries',
          hextends.ids hget⟩

/-- **What the recorded block types stand for.** -/
theorem sound_blockTypes {T : BlockTypes}
    (h : blockTypes U sha256 false segments = some T) : Sound U sha256 segments T := by
  have hfrom : ∀ segs T T', blockTypesFrom U sha256 false segments segs T = some T' →
      Sound U sha256 segments T → Sound U sha256 segments T' := by
    intro segs
    induction segs with
    | nil =>
      intro T T' h hT
      exact Option.some.inj h ▸ hT
    | cons seg segs ih =>
      intro T T' h hT
      obtain ⟨⟨t, T₁⟩, hfirst, hrest⟩ := Option.bind_eq_some_iff.mp h
      exact ih T₁ T' hrest (getBlockTypeId_sound hrank hfirst hT)
  exact hfrom segments _ _ h (Sound.empty U sha256 segments)

end Ranked

/-- **Segments with the same block type** have the same hash. -/
theorem hash_eq_of_sound {T : BlockTypes} (hT : Sound U sha256 segments T) {id id' t : ℕ}
    (h : T.segHashes.get? id = some t) (h' : T.segHashes.get? id' = some t) :
    ∃ seg seg' entries entries', segById segments id = some seg ∧
      segById segments id' = some seg' ∧
      flatStmts U false T.segHashes id 0 seg.stmts (childrenOf segments id) = some entries ∧
      flatStmts U false T.segHashes id' 0 seg'.stmts (childrenOf segments id') = some entries' ∧
      sha256 ([' '].intercalate (entries.map FlatEntry.norm))
        = sha256 ([' '].intercalate (entries'.map FlatEntry.norm)) := by
  obtain ⟨seg, entries, hseg, hentries, hget⟩ := hT.types h
  obtain ⟨seg', entries', hseg', hentries', hget'⟩ := hT.types h'
  exact ⟨seg, seg', entries, entries', hseg, hseg', hentries, hentries',
    hT.numbering.inj hget hget'⟩

end Csc512
