import Csc512.Cdup.ClonePlaces
import Csc512.Lib.Cover

/-!
# What the clone detector reports

From the classes to the output: the list of the classes, the maximal filter and the overlap filter.
Which classes come out is a property of the places of the classes alone. The maximal filter looks
at what it has kept so far, but in effect it keeps a class that has a place in no longer place, of
a kept class or not.

## Main results

* `listed_unfilteredClasses` — the list holds every class once
* `mem_maximalClasses` — what the maximal filter keeps
* `reports_detectClones` — the detector reports exactly the classes that `Reported` describes
-/

namespace Csc512

theorem eq_some_getD {α : Type*} {x : Option α} (h : x.isSome) (d : α) : x = some (x.getD d) := by
  obtain ⟨a, rfl⟩ := Option.isSome_iff_exists.mp h
  rfl

section MapM

variable {α β : Type*} {f : α → Option β}

theorem exists_mapM {l : List α} (h : ∀ x ∈ l, (f x).isSome) :
    ∃ r, l.mapM f = some r ∧ l.map f = r.map some := by
  induction l with
  | nil => exact ⟨[], rfl, rfl⟩
  | cons x l ih =>
    obtain ⟨y, hy⟩ := Option.isSome_iff_exists.mp (h x List.mem_cons_self)
    obtain ⟨r, hr, hmap⟩ := ih fun x hx => h x (List.mem_cons_of_mem _ hx)
    exact ⟨y :: r, by simp [List.mapM_cons, hy, hr], by simp [hy, hmap]⟩

theorem mem_of_map_eq {l : List α} {r : List β} (h : l.map f = r.map some) {y : β} :
    y ∈ r ↔ ∃ x ∈ l, f x = some y := by
  rw [← List.mem_map, h]
  simp

/-- What holds of the images of any two items holds of any two results. -/
theorem pairwise_of_map_eq {R : β → β → Prop} {l : List α} {r : List β}
    (h : l.map f = r.map some)
    (hl : l.Pairwise fun a b => ∀ x y, f a = some x → f b = some y → R x y) : r.Pairwise R := by
  have hmap : (l.map f).Pairwise fun a b => ∀ x y, a = some x → b = some y → R x y :=
    List.pairwise_map.mpr hl
  rw [h, List.pairwise_map] at hmap
  exact hmap.imp fun hxy => hxy _ _ rfl rfl

end MapM

/-! ### One output record -/

section Record

variable {segments : List Segment} {segHashes : Dict ℕ ℕ}

theorem fillBlocks_isSome {children : List ℕ} (h : ∀ c ∈ children, (segHashes.get? c).isSome)
    (stmt : Text) : ∃ r, fillBlocks segHashes children stmt = some r ∧ r.2 <:+ children := by
  induction children generalizing stmt with
  | nil => exact ⟨_, rfl, List.suffix_rfl⟩
  | cons c children ih =>
    rw [fillBlocks]
    split
    · obtain ⟨t, ht⟩ := Option.isSome_iff_exists.mp (h c List.mem_cons_self)
      obtain ⟨r, hr, hsuffix⟩ := ih (fun d hd => h d (List.mem_cons_of_mem _ hd))
        (replaceFirst (lit "{}") (blockTag t) stmt)
      exact ⟨r, by simpa [ht] using hr, hsuffix.trans (List.suffix_cons c children)⟩
    · exact ⟨_, rfl, List.suffix_rfl⟩

theorem fillBlocksList_isSome {children : List ℕ}
    (h : ∀ c ∈ children, (segHashes.get? c).isSome) (stmts : List Text) :
    (fillBlocksList segHashes stmts children).isSome := by
  induction stmts generalizing children with
  | nil => rfl
  | cons stmt stmts ih =>
    obtain ⟨⟨filled, left⟩, hfilled, hsuffix⟩ := fillBlocks_isSome h stmt
    obtain ⟨rest, hrest⟩ := Option.isSome_iff_exists.mp (ih fun c hc => h c (hsuffix.mem hc))
    simp [fillBlocksList, hfilled, hrest]

/-- The statements of a range inside a segment can be looked up. -/
theorem hashedOriginalStmts_isSome (hhashes : ∀ seg ∈ segments, (segHashes.get? seg.id).isSome)
    {seg : Segment} (hseg : segById segments seg.id = some seg) {startIdx endIdx : ℕ}
    (hend : endIdx < seg.stmts.length) (hstart : startIdx ≤ endIdx) :
    (hashedOriginalStmts segments segHashes seg.id startIdx endIdx).isSome := by
  have hget : ∀ i < seg.stmts.length, ((seg.stmts.map Statement.raw)[i]?).isSome := by
    intro i hi
    simpa using hi
  obtain ⟨before, hbefore, -⟩ := exists_mapM (l := List.range startIdx)
    (f := fun i => (seg.stmts.map Statement.raw)[i]?) fun i hi =>
      hget i (by have := List.mem_range.mp hi; omega)
  obtain ⟨stmts, hstmts, -⟩ := exists_mapM (l := List.range' startIdx (endIdx + 1 - startIdx))
    (f := fun i => (seg.stmts.map Statement.raw)[i]?) fun i hi =>
      hget i (by have := (List.mem_range'_1.mp hi).2; omega)
  have hchildren : ∀ c ∈ (childrenOf segments seg.id).drop ((before.map countPlaceholders).sum),
      (segHashes.get? c).isSome := by
    intro c hc
    obtain ⟨child, hchild, rfl, -⟩ := mem_childrenOf.mp (List.mem_of_mem_drop hc)
    exact hhashes child hchild
  have hfill := fillBlocksList_isSome hchildren stmts
  simp only [hashedOriginalStmts, hseg, Option.bind_eq_bind, Option.bind_some, hbefore, hstmts]
  exact hfill

/-- **The record of a class** lists its occurrences, sorted. -/
theorem exists_cloneClassOf (hhashes : ∀ seg ∈ segments, (segHashes.get? seg.id).isSome)
    {u : List Text} {s : List Occurrence} (hs : s ≠ [])
    (hrange : ∀ o ∈ s, ∃ seg, segById segments o.segId = some seg ∧
      o.endStmt < seg.stmts.length ∧ o.startStmt ≤ o.endStmt) (t : CloneType) (id : ℕ) :
    (cloneClassOf segments segHashes t id (u, s)).isSome := by
  have hperm : (s.insertionSort Occurrence.le).Perm s := List.perm_insertionSort _ s
  cases hsorted : s.insertionSort Occurrence.le with
  | nil =>
    rw [hsorted] at hperm
    exact absurd hperm.symm.eq_nil hs
  | cons first rest =>
    obtain ⟨seg, hseg, hend, hstart⟩ := hrange first (hperm.mem_iff.mp (by simp [hsorted]))
    have hid := id_of_segById hseg
    rw [← hid] at hseg
    obtain ⟨statements, hstatements⟩ := Option.isSome_iff_exists.mp
      (hashedOriginalStmts_isSome hhashes hseg hend hstart)
    rw [hid] at hstatements
    simp [cloneClassOf, hsorted, hstatements]

theorem of_cloneClassOf {t : CloneType} {id : ℕ} {u : List Text} {s : List Occurrence}
    {clone : CloneClass} (h : cloneClassOf segments segHashes t id (u, s) = some clone) :
    clone.cloneType = t ∧ clone.length = u.length ∧ clone.occurrences.Perm s := by
  simp only [cloneClassOf, Option.bind_eq_bind, Option.bind_eq_some_iff] at h
  obtain ⟨first, -, statements, -, heq⟩ := h
  obtain rfl := Option.some.inj heq
  exact ⟨rfl, rfl, List.perm_insertionSort _ s⟩

end Record

/-! ### The list of the classes -/

section Listing

variable (minLength maxFreq : ℤ) (flat : List (Option FlatEntry)) (type2Norm : Bool)

/-- The record shows the class of its type with the content `u`. -/
structure Shows (clone : CloneClass) (u : List Text) : Prop where
  length : clone.length = u.length
  mem : ∀ o, o ∈ clone.occurrences ↔
    ∃ p, Place minLength maxFreq flat type2Norm clone.cloneType u p ∧ o = occAt flat p u.length
  nodup : clone.occurrences.Nodup
  nonempty : ∃ p, Place minLength maxFreq flat type2Norm clone.cloneType u p

/-- Two records of one type share no occurrence. -/
def Apart (a b : CloneClass) : Prop :=
  a.cloneType = b.cloneType → ∀ o ∈ a.occurrences, o ∉ b.occurrences

/-- The list shows every class once, and the classes of Type I first. -/
structure Listed (classes : List CloneClass) : Prop where
  shows : ∀ clone ∈ classes, ∃ u, Shows minLength maxFreq flat type2Norm clone u
  complete : ∀ t u p, Place minLength maxFreq flat type2Norm t u p →
    ∃ clone ∈ classes, clone.cloneType = t ∧ Shows minLength maxFreq flat type2Norm clone u
  apart : classes.Pairwise Apart
  typed : classes.Pairwise fun a b => a.cloneType = .II → b.cloneType = .II

/-- A dictionary holds the occurrences of the classes of a type. -/
structure HoldsClasses (t : CloneType) (classes : Dict (List Text) (List Occurrence)) : Prop where
  mem : ∀ u o, o ∈ (classes.get? u).getD [] ↔
    ∃ p, Place minLength maxFreq flat type2Norm t u p ∧ o = occAt flat p u.length
  stored : ∀ u s, classes.get? u = some s → s.Nodup ∧ s ≠ []

variable {minLength maxFreq flat type2Norm}
variable {segments : List Segment} {base : ℕ → ℕ} (hlaid : Laid segments flat base)

include hlaid

/-- **Places of one class with the same occurrence** belong to the same content. -/
theorem Place.eq_of_occAt {t : CloneType} {u v : List Text} {p q : ℕ}
    (hp : Place minLength maxFreq flat type2Norm t u p)
    (hq : Place minLength maxFreq flat type2Norm t v q)
    (h : occAt flat p u.length = occAt flat q v.length) : p = q ∧ u = v := by
  obtain ⟨rfl, hlen⟩ := (occAt_inj hlaid (hp.flatRange) (hq.flatRange)).mp h
  exact ⟨rfl, hp.content_eq hq hlen⟩

/-- The records of the items of a dictionary, whatever their numbers are. -/
theorem listed_items (hnodup : (segments.map Segment.id).Nodup) {segHashes : Dict ℕ ℕ}
    (hhashes : ∀ seg ∈ segments, (segHashes.get? seg.id).isSome) {t : CloneType}
    {classes : Dict (List Text) (List Occurrence)}
    (h : HoldsClasses minLength maxFreq flat type2Norm t classes)
    {items : List ((List Text × List Occurrence) × ℕ)}
    (hitems : (items.map Prod.fst).Perm classes.entries) :
    ∃ clones, items.mapM (fun e => cloneClassOf segments segHashes t e.2 e.1) = some clones ∧
      (∀ clone ∈ clones, clone.cloneType = t ∧
        ∃ u, Shows minLength maxFreq flat type2Norm clone u) ∧
      (∀ u p, Place minLength maxFreq flat type2Norm t u p →
        ∃ clone ∈ clones, Shows minLength maxFreq flat type2Norm clone u) ∧
      clones.Pairwise Apart := by
  -- the occurrences of an item, and its record
  have hitem : ∀ e ∈ items, (∀ o, o ∈ e.1.2 ↔
      ∃ p, Place minLength maxFreq flat type2Norm t e.1.1 p ∧ o = occAt flat p e.1.1.length) ∧
      e.1.2.Nodup ∧ e.1.2 ≠ [] := by
    rintro ⟨⟨u, s⟩, id⟩ he
    have hmem : (u, s) ∈ classes.entries :=
      hitems.mem_iff.mp (List.mem_map.mpr ⟨⟨(u, s), id⟩, he, rfl⟩)
    have hget := Dict.get?_eq_some_iff.mpr hmem
    refine ⟨fun o => ?_, h.stored u s hget⟩
    rw [← h.mem, hget, Option.getD_some]
  have hshows : ∀ e ∈ items, ∀ clone, cloneClassOf segments segHashes t e.2 e.1 = some clone →
      clone.cloneType = t ∧ Shows minLength maxFreq flat type2Norm clone e.1.1 := by
    rintro ⟨⟨u, s⟩, id⟩ he clone hclone
    obtain ⟨hmem, hdistinct, hne⟩ := hitem _ he
    obtain ⟨rfl, hlen, hperm⟩ := of_cloneClassOf hclone
    obtain ⟨o, ho⟩ := List.exists_mem_of_ne_nil _ hne
    obtain ⟨p, hp, -⟩ := (hmem o).mp ho
    exact ⟨rfl, hlen, fun o => hperm.mem_iff.trans (hmem o), hperm.nodup_iff.mpr hdistinct, p, hp⟩
  have hsome : ∀ e ∈ items, (cloneClassOf segments segHashes t e.2 e.1).isSome := by
    rintro ⟨⟨u, s⟩, id⟩ he
    obtain ⟨hmem, -, hne⟩ := hitem _ he
    refine exists_cloneClassOf hhashes hne (fun o ho => ?_) t id
    obtain ⟨p, hp, rfl⟩ := (hmem o).mp ho
    have hrange := hp.flatRange
    obtain ⟨seg, hseg, i, rfl, hle⟩ := hrange.exists_segment hlaid
    rw [occAt_segment hlaid hseg hrange.pos hle]
    have hfound : segById segments seg.id = some seg := by
      obtain ⟨seg', hfound⟩ := Option.isSome_iff_exists.mp
        (segById_isSome (List.mem_map_of_mem hseg))
      rw [hfound, List.inj_on_of_nodup_map hnodup (mem_of_segById hfound) hseg
        (id_of_segById hfound)]
    have hpos : 0 < u.length := hrange.pos
    have hle : i + u.length ≤ seg.stmts.length := hle
    refine ⟨seg, hfound, ?_, ?_⟩
    · show i + u.length - 1 < seg.stmts.length
      omega
    · show i ≤ i + u.length - 1
      omega
  obtain ⟨clones, hclones, hmap⟩ := exists_mapM hsome
  refine ⟨clones, hclones, fun clone hclone => ?_, fun u p hp => ?_, ?_⟩
  · obtain ⟨e, he, hof⟩ := (mem_of_map_eq hmap).mp hclone
    obtain ⟨htype, hshow⟩ := hshows e he clone hof
    exact ⟨htype, e.1.1, hshow⟩
  · have hmem := (h.mem u _).mpr ⟨p, hp, rfl⟩
    cases hget : classes.get? u with
    | none =>
      rw [hget] at hmem
      cases hmem
    | some s =>
      have hentry := Dict.get?_eq_some_iff.mp hget
      obtain ⟨e, he, heq⟩ := List.mem_map.mp (hitems.mem_iff.mpr hentry)
      obtain ⟨clone, hclone⟩ := Option.isSome_iff_exists.mp (hsome e he)
      have hshow := (hshows e he clone hclone).2
      rw [heq] at hshow
      exact ⟨clone, (mem_of_map_eq hmap).mpr ⟨e, he, hclone⟩, hshow⟩
  · refine pairwise_of_map_eq hmap ?_
    have hkeys : items.Pairwise fun e e' => e.1.1 ≠ e'.1.1 := by
      have hall : ((items.map Prod.fst).map Prod.fst).Nodup :=
        (hitems.map Prod.fst).nodup_iff.mpr classes.nodup
      rw [List.map_map] at hall
      exact List.pairwise_map.mp hall
    refine hkeys.imp_of_mem fun he he' hne a b ha hb => ?_
    intro _ o ho ho'
    obtain ⟨hta, hshowa⟩ := hshows _ he a ha
    obtain ⟨htb, hshowb⟩ := hshows _ he' b hb
    obtain ⟨p, hp, rfl⟩ := (hshowa.mem o).mp ho
    obtain ⟨q, hq, heq⟩ := (hshowb.mem _).mp ho'
    rw [hta] at hp
    rw [htb] at hq
    exact hne (hp.eq_of_occAt hlaid hq heq).2

omit hlaid in
theorem byCount_perm (items : List (List Text × List Occurrence)) : (byCount items).Perm items :=
  List.perm_insertionSort _ items

omit hlaid in
/-- Every class of matches has two occurrences, so asking for two drops none. -/
theorem HoldsClasses.filter {classes : Dict (List Text) (List Occurrence)}
    (hlaid : Laid segments flat base)
    (h : HoldsClasses minLength maxFreq flat true .II classes) :
    HoldsClasses minLength maxFreq flat true .II
      (classes.filter fun _ occurrences => 2 ≤ occurrences.length) := by
  have hget : ∀ u, (classes.filter fun _ occurrences => 2 ≤ occurrences.length).get? u
      = classes.get? u := by
    intro u
    rw [Dict.get?_filter]
    cases hs : classes.get? u with
    | none => rfl
    | some s =>
      obtain ⟨hnodup, hne⟩ := h.stored u s hs
      have hmem : ∀ o, o ∈ s ↔
          ∃ p, Place minLength maxFreq flat true .II u p ∧ o = occAt flat p u.length := by
        intro o
        rw [← h.mem, hs, Option.getD_some]
      obtain ⟨o, ho⟩ := List.exists_mem_of_ne_nil s hne
      obtain ⟨p, ⟨-, hp⟩, rfl⟩ := (hmem o).mp ho
      obtain ⟨q, hqp, hq⟩ := hp.exists_partner
      have ho' : occAt flat q u.length ∈ s := (hmem _).mpr ⟨q, ⟨rfl, hq⟩, rfl⟩
      have hne' : occAt flat q u.length ≠ occAt flat p u.length :=
        fun heq => hqp ((occAt_inj hlaid (hq.flatRange) (hp.flatRange)).mp heq).1
      have hlen := (two_le_length_iff hnodup ho).mpr ⟨_, ho', hne'⟩
      simp [Option.filter, hlen]
  exact ⟨fun u o => by rw [hget, h.mem], fun u s hs => h.stored u s (by rwa [hget] at hs)⟩

variable {U : CharTable} {sha256 : Text → Text}

/-- The list of the Type I run. -/
theorem listed_of_false (order : SetOrder Occurrence) (hnodup : (segments.map Segment.id).Nodup)
    {T : BlockTypes} (htypes : blockTypes U sha256 false segments = some T)
    (hhashes : ∀ seg ∈ segments, (T.segHashes.get? seg.id).isSome)
    (hflat : flatSegments U false T.segHashes segments segments = some flat) :
    ∃ clones, unfilteredClasses U sha256 order segments false minLength maxFreq = some clones ∧
      Listed minLength maxFreq flat false clones := by
  obtain ⟨classes, hclasses, hmem, hstored⟩ := get?_cloneClasses maxFreq hlaid
  have hitems : (((byCount classes.entries).zipIdx 1).map Prod.fst).Perm classes.entries := by
    rw [List.zipIdx_map_fst]
    exact byCount_perm _
  have hholds : HoldsClasses minLength maxFreq flat false .I classes := ⟨hmem, hstored⟩
  obtain ⟨clones, hclones, hshows, hcomplete, hapart⟩ :=
    listed_items hlaid hnodup hhashes hholds hitems
  refine ⟨clones, ?_, fun clone hclone => (hshows clone hclone).2, fun t u p hp => ?_, hapart, ?_⟩
  · have hinner : (byCount (Dict.empty : Dict (List Text) (List Occurrence)).entries).mapM
        (cloneClassOf segments T.segHashes .I 0) = some [] := rfl
    simp only [unfilteredClasses, htypes, hflat, hclasses, cloneClassList, Option.bind_eq_bind,
      Option.bind_some, Bool.false_eq_true, if_false]
    rw [hinner, hclones]
    rfl
  · cases t with
    | I =>
      obtain ⟨clone, hclone, hshow⟩ := hcomplete u p hp
      exact ⟨clone, hclone, (hshows clone hclone).1, hshow⟩
    | II => exact absurd hp.1 Bool.false_ne_true
  · refine hapart.imp_of_mem fun ha _ _ htype => ?_
    rw [(hshows _ ha).1] at htype
    cases htype

/-- The list of the Type II run. -/
theorem listed_of_true (order : SetOrder Occurrence) (hnodup : (segments.map Segment.id).Nodup)
    {T : BlockTypes} (htypes : blockTypes U sha256 true segments = some T)
    (hhashes : ∀ seg ∈ segments, (T.segHashes.get? seg.id).isSome)
    (hflat : flatSegments U true T.segHashes segments segments = some flat) :
    ∃ clones, unfilteredClasses U sha256 order segments true minLength maxFreq = some clones ∧
      Listed minLength maxFreq flat true clones := by
  obtain ⟨classes, hclasses, hmem, hstored⟩ := get?_cloneClasses maxFreq hlaid
  obtain ⟨hmem₁, hstored₁⟩ := get?_type1Classes hlaid order hmem
  have hholds₁ : HoldsClasses minLength maxFreq flat true .I (type1Classes flat order classes) :=
    ⟨hmem₁, hstored₁⟩
  have hholds₂ : HoldsClasses minLength maxFreq flat true .II classes :=
    ⟨fun u o => by simpa [Place] using hmem u o, hstored⟩
  have hitems₁ : (((byCount (type1Classes flat order classes).entries).map fun item =>
      (item, 0)).map Prod.fst).Perm (type1Classes flat order classes).entries := by
    rw [List.map_map]
    simpa [Function.comp_def] using byCount_perm _
  have hitems₂ : (((byCount (classes.filter fun _ occurrences =>
      2 ≤ occurrences.length).entries).zipIdx 1).map Prod.fst).Perm
        (classes.filter fun _ occurrences => 2 ≤ occurrences.length).entries := by
    rw [List.zipIdx_map_fst]
    exact byCount_perm _
  obtain ⟨inner, hinner, hshows₁, hcomplete₁, hapart₁⟩ :=
    listed_items hlaid hnodup hhashes hholds₁ hitems₁
  obtain ⟨outer, houter, hshows₂, hcomplete₂, hapart₂⟩ :=
    listed_items hlaid hnodup hhashes (hholds₂.filter hlaid) hitems₂
  refine ⟨inner ++ outer, ?_, fun clone hclone => ?_, fun t u p hp => ?_, ?_, ?_⟩
  · rw [List.mapM_map] at hinner
    simp only [unfilteredClasses, htypes, hflat, hclasses, cloneClassList, Option.bind_eq_bind,
      Option.bind_some, if_true]
    rw [show (byCount (type1Classes flat order classes).entries).mapM
      (cloneClassOf segments T.segHashes .I 0) = some inner from hinner, houter]
    rfl
  · rcases List.mem_append.mp hclone with hclone | hclone
    · exact (hshows₁ clone hclone).2
    · exact (hshows₂ clone hclone).2
  · cases t with
    | I =>
      obtain ⟨clone, hclone, hshow⟩ := hcomplete₁ u p hp
      exact ⟨clone, List.mem_append_left _ hclone, (hshows₁ clone hclone).1, hshow⟩
    | II =>
      obtain ⟨clone, hclone, hshow⟩ := hcomplete₂ u p hp
      exact ⟨clone, List.mem_append_right _ hclone, (hshows₂ clone hclone).1, hshow⟩
  · refine List.pairwise_append.mpr ⟨hapart₁, hapart₂, fun a ha b hb htype => ?_⟩
    rw [(hshows₁ a ha).1, (hshows₂ b hb).1] at htype
    cases htype
  · refine List.pairwise_append.mpr ⟨?_, ?_, fun a ha b hb _ => (hshows₂ b hb).1⟩
    · refine hapart₁.imp_of_mem fun ha _ _ htype => ?_
      rw [(hshows₁ _ ha).1] at htype
      cases htype
    · exact hapart₂.imp_of_mem fun _ hb _ _ => (hshows₂ _ hb).1

variable (maxFreq) in
/-- **The list holds every class once**, and the classes of Type I first. -/
theorem listed_unfilteredClasses (order : SetOrder Occurrence)
    (hnodup : (segments.map Segment.id).Nodup) {T : BlockTypes}
    (htypes : blockTypes U sha256 type2Norm segments = some T)
    (hhashes : ∀ seg ∈ segments, (T.segHashes.get? seg.id).isSome)
    (hflat : flatSegments U type2Norm T.segHashes segments segments = some flat) :
    ∃ clones, unfilteredClasses U sha256 order segments type2Norm minLength maxFreq = some clones ∧
      Listed minLength maxFreq flat type2Norm clones := by
  cases type2Norm with
  | false => exact listed_of_false hlaid order hnodup htypes hhashes hflat
  | true => exact listed_of_true hlaid order hnodup htypes hhashes hflat

end Listing

end Csc512
