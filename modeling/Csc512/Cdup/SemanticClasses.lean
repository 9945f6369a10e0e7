import Csc512.Cdup.SemanticClones
import Csc512.Lib.Classes

/-!
# The classes of semantic clones

A function stands in a class for its signature, so the classes are as good as what two functions
with one signature have in common. This module collects what the report of the last detector says
as a whole: which functions share a class, that none is reported twice, and how classes and their
members are ordered and numbered.

## Main results

* `separates_detectType4` — the classes of any representation whose segments form a forest
* `separates_merged` — the classes of the files of a run
-/

namespace Csc512

section Detect

variable {segments : List Segment} {sha256 : Text → Text} {minLength : ℤ}

variable (segments sha256 minLength) in
/-- The functions that are compared have different hashes where their signatures differ. -/
def HashesApart : Prop :=
  ∀ s ∈ fnSegments segments minLength, ∀ t ∈ fnSegments segments minLength, ∀ sig sig',
    semanticSignature segments s = some sig → semanticSignature segments t = some sig' →
      sha256 sig.repr = sha256 sig'.repr → sig = sig'

theorem hashesApart_of_injective (hsha : Function.Injective sha256) :
    HashesApart segments sha256 minLength :=
  fun _ _ _ _ _ _ _ _ heq => Signature.repr_injective (hsha heq)

/-- **One signature** is one shape and one summary. -/
theorem signatureKey_eq_iff_of_apart (hsha : HashesApart segments sha256 minLength)
    (hacyclic : Acyclic segments) {s t : Segment} (hs : s ∈ fnSegments segments minLength)
    (ht : t ∈ fnSegments segments minLength) :
    signatureKey segments sha256 s = signatureKey segments sha256 t ↔
      Alike segments s t ∧ SameSummary segments s t := by
  obtain ⟨sig, hsig⟩ := Option.isSome_iff_exists.mp (semanticSignature_isSome hacyclic s)
  obtain ⟨sig', hsig'⟩ := Option.isSome_iff_exists.mp (semanticSignature_isSome hacyclic t)
  rw [signatureKey, signatureKey, hsig, hsig', ← semanticSignature_eq_iff hsig hsig']
  exact ⟨hsha s hs t ht sig sig' hsig hsig', congrArg fun sig : Signature => sha256 sig.repr⟩

variable (segments sha256 minLength) in
/-- The functions in groups of one signature. -/
def semanticGroups : List (List Segment) :=
  groupsBy (signatureKey segments sha256) (fnSegments segments minLength)

theorem mapM_signed (hacyclic : Acyclic segments) (fns : List Segment) :
    (fns.mapM fun seg => do
      let sig ← semanticSignature segments seg
      some (sha256 sig.repr, seg)) =
    some (fns.map fun seg => (signatureKey segments sha256 seg, seg)) := by
  induction fns with
  | nil => rfl
  | cons seg fns ih =>
    obtain ⟨sig, hsig⟩ := Option.isSome_iff_exists.mp (semanticSignature_isSome hacyclic seg)
    rw [List.mapM_cons, ih]
    simp [signatureKey, hsig]

variable (sha256 minLength) in
/-- **The classes are the groups**, numbered from one. -/
theorem detectType4_eq (hacyclic : Acyclic segments) :
    ∃ classes, detectType4 segments sha256 minLength = some classes ∧
      classes.map SemanticClone.occurrences =
        (semanticGroups segments sha256 minLength).map (List.map semanticOccurrence) ∧
      classes.map SemanticClone.id =
        List.range' 1 (semanticGroups segments sha256 minLength).length := by
  refine ⟨_, by rw [detectType4, mapM_signed hacyclic]; rfl, ?_, ?_⟩
  · rw [List.map_map, semanticGroups, groupsBy, List.map_map, ← List.zipIdx_map_fst 1
      (Dict.largeGroups _), List.map_map]
    rfl
  · rw [List.map_map, semanticGroups, groupsBy, List.length_map, ← List.zipIdx_map_snd 1
      (Dict.largeGroups _)]
    rfl

/-- **The classes separate the functions** by shape and summary, in any representation whose
segments have different numbers and are not their own descendants. -/
theorem separates_detectType4 (hsha : HashesApart segments sha256 minLength)
    (hnodup : (segments.map Segment.id).Nodup) (hacyclic : Acyclic segments) :
    ∃ classes groups, detectType4 segments sha256 minLength = some classes ∧
      classes.map SemanticClone.occurrences = groups.map (List.map semanticOccurrence) ∧
      classes.map SemanticClone.id = List.range' 1 groups.length ∧
      Separates (fun s t => Alike segments s t ∧ SameSummary segments s t)
        (fnSegments segments minLength) groups := by
  obtain ⟨classes, hdetect, hocc, hid⟩ := detectType4_eq sha256 minLength hacyclic
  have hfns : (fnSegments segments minLength).Nodup := (List.Nodup.of_map _ hnodup).filter _
  exact ⟨classes, _, hdetect, hocc, hid, (separates_groupsBy hfns).congr fun s hs t ht =>
    signatureKey_eq_iff_of_apart hsha hacyclic hs ht⟩

end Detect

theorem takeBlocks_map (f : ℕ → ℕ) (stmts : List Statement) (children : List ℕ) :
    takeBlocks stmts (children.map f) =
      (takeBlocks stmts children).map fun x => (x.1, x.2.map f) := by
  induction stmts generalizing children with
  | nil => rfl
  | cons stmt stmts ih =>
    cases children with
    | nil =>
      rw [List.map_nil, takeBlocks, List.map_cons, ← ih, List.map_nil]
      rfl
    | cons c children =>
      rw [List.map_cons, takeBlocks, takeBlocks]
      split
      · rw [ih, List.map_cons]
        rfl
      · rw [← List.map_cons, ih, List.map_cons]
        rfl

/-- The fingerprint of statements whose blocks are found elsewhere under other numbers. -/
theorem fingerprintItems_map {inside inside' : ℕ → Option Fingerprint} {f : ℕ → ℕ}
    {items : List (Statement × Option ℕ)}
    (hinside : ∀ x ∈ items, ∀ c ∈ x.2, ∀ block, inside c = some block → inside' (f c) = some block)
    {fp : Fingerprint} (h : fingerprintItems inside items = some fp) :
    fingerprintItems inside' (items.map fun x => (x.1, x.2.map f)) = some fp := by
  induction items generalizing fp with
  | nil => exact h
  | cons x items ih =>
    obtain ⟨hx, hitems⟩ := List.forall_mem_cons.mp hinside
    obtain ⟨stmt, _ | c⟩ := x
    · obtain ⟨rest, hrest, rfl⟩ := fingerprintItems_none_iff.mp h
      exact fingerprintItems_none_iff.mpr ⟨rest, ih hitems hrest, rfl⟩
    · obtain ⟨block, rest, hblock, hrest, rfl⟩ := fingerprintItems_some_iff.mp h
      exact fingerprintItems_some_iff.mpr
        ⟨block, rest, hx c rfl block hblock, ih hitems hrest, rfl⟩

theorem Numbered.acyclic {segments : List Segment} (h : Numbered segments) : Acyclic segments := by
  refine ⟨fun id => segments.length - id, fun seg hseg _ hne => ?_⟩
  have hid := h.id_lt hseg
  have hle := (h.parents seg hseg).1
  show segments.length - seg.id < segments.length - seg.parent
  omega

section OneFile

variable {before after : List (List Segment)} {segments : List Segment}
  (h : ∀ segs ∈ before ++ segments :: after, Numbered segs)

include h

theorem taken_mergeSegments {seg : Segment} (hseg : seg ∈ segments) :
    taken (mergeSegments (before ++ segments :: after))
        (renumberSegment (segmentCount before) seg) =
      (taken segments seg).map fun x => (x.1, x.2.map (segmentCount before + ·)) := by
  have hid := (h segments (by simp)).id_lt hseg
  rw [taken, taken, ← takeBlocks_map, ← childrenOf_mergeSegments h hid, Nat.add_comm]
  rfl

/-- The fingerprint of a function among all files is that in its own file. -/
theorem structuralFingerprint_mergeSegments {fuel fuel' : ℕ} (hle : fuel ≤ fuel') {seg : Segment}
    (hseg : seg ∈ segments) {fp : Fingerprint}
    (hfp : structuralFingerprint segments fuel seg = some fp) :
    structuralFingerprint (mergeSegments (before ++ segments :: after)) fuel'
      (renumberSegment (segmentCount before) seg) = some fp := by
  induction fuel generalizing fuel' seg fp with
  | zero => cases hfp
  | succ fuel ih =>
    obtain ⟨fuel', rfl⟩ := Nat.exists_eq_add_of_le' (Nat.zero_lt_succ fuel |>.trans_le hle)
    rw [structuralFingerprint] at hfp ⊢
    rw [taken_mergeSegments h hseg]
    refine fingerprintItems_map (fun x hx c hc block hblock => ?_) hfp
    have hchild := mem_childrenOf_of_taken hx hc
    obtain ⟨child, hfound⟩ := exists_segById_of_mem_childrenOf hchild
    have hmem := mem_of_segById hfound
    have hlt := (h segments (by simp)).id_lt hmem
    rw [id_of_segById hfound] at hlt
    rw [hfound] at hblock
    rw [segById_mergeSegments h hlt, hfound]
    exact ih (Nat.le_of_succ_le_succ hle) hmem hblock

theorem childTypes_mergeSegments {seg : Segment} (hseg : seg ∈ segments) :
    childTypes (mergeSegments (before ++ segments :: after))
      (renumberSegment (segmentCount before) seg) = childTypes segments seg := by
  have hid := (h segments (by simp)).id_lt hseg
  have hchildren := childrenOf_mergeSegments h hid
  rw [Nat.add_comm] at hchildren
  rw [childTypes, childTypes]
  show ((childrenOf _ (seg.id + segmentCount before)).filterMap _) = _
  rw [hchildren, List.filterMap_map]
  refine List.filterMap_congr fun c hc => ?_
  obtain ⟨child, hfound⟩ := exists_segById_of_mem_childrenOf hc
  have hlt := (h segments (by simp)).id_lt (mem_of_segById hfound)
  rw [id_of_segById hfound] at hlt
  rw [Function.comp_apply, segById_mergeSegments h hlt, hfound]
  rfl

/-- **Merging does not change signatures.** -/
theorem semanticSignature_mergeSegments {seg : Segment} (hseg : seg ∈ segments) :
    semanticSignature (mergeSegments (before ++ segments :: after))
      (renumberSegment (segmentCount before) seg) = semanticSignature segments seg := by
  obtain ⟨sig, hsig⟩ := Option.isSome_iff_exists.mp
    (semanticSignature_isSome (h segments (by simp)).acyclic seg)
  have hlen : segments.length ≤ (mergeSegments (before ++ segments :: after)).length := by
    have hcount := congrArg List.length (map_id_mergeSegments h)
    rw [List.length_map, List.length_range, segmentCount, List.map_append, List.sum_append,
      List.map_cons, List.sum_cons] at hcount
    omega
  rw [hsig]
  simp only [semanticSignature, Option.bind_eq_bind, Option.bind_eq_some_iff,
    Option.some.injEq] at hsig ⊢
  obtain ⟨fp, hfp, rfl⟩ := hsig
  refine ⟨fp, structuralFingerprint_mergeSegments h (Nat.succ_le_succ hlen) hseg hfp, ?_⟩
  rw [childTypes_mergeSegments h hseg]
  rfl

end OneFile

/-- A segment of a file, and the same segment among those of all files. -/
def FromFile (parsed : List (List Segment)) (segs : List Segment) (seg merged : Segment) : Prop :=
  ∃ before after, parsed = before ++ segs :: after ∧ seg ∈ segs ∧
    merged = renumberSegment (segmentCount before) seg

namespace FromFile

variable {parsed : List (List Segment)} {segs : List Segment} {seg merged : Segment}

theorem mem_fnSegments (h : FromFile parsed segs seg merged) {minLength : ℤ}
    (hseg : seg ∈ fnSegments segs minLength) :
    merged ∈ fnSegments (mergeSegments parsed) minLength := by
  obtain ⟨before, after, rfl, hmem, rfl⟩ := h
  refine List.mem_filter.mpr ⟨mem_mergeSegmentsFrom.mpr ⟨before, segs, after, rfl, seg, hmem, ?_⟩,
    (List.mem_filter.mp hseg).2⟩
  rw [Nat.zero_add]

theorem semanticSignature_eq (h : FromFile parsed segs seg merged)
    (hnumbered : ∀ segs ∈ parsed, Numbered segs) :
    semanticSignature (mergeSegments parsed) merged = semanticSignature segs seg := by
  obtain ⟨before, after, rfl, hmem, rfl⟩ := h
  exact semanticSignature_mergeSegments hnumbered hmem

end FromFile

theorem semanticOccurrence_inj {segments : List Segment} (hnodup : (segments.map Segment.id).Nodup)
    {s t : Segment} (hs : s ∈ segments) (ht : t ∈ segments)
    (h : semanticOccurrence s = semanticOccurrence t) : s = t :=
  List.inj_on_of_nodup_map hnodup hs ht (congrArg SemanticOccurrence.segId h)

/-- Functions share a class exactly if they share a group. -/
theorem exists_clone_iff {segments : List Segment} (hnodup : (segments.map Segment.id).Nodup)
    {classes : List SemanticClone} {groups : List (List Segment)}
    (hocc : classes.map SemanticClone.occurrences = groups.map (List.map semanticOccurrence))
    (hgroups : ∀ c ∈ groups, ∀ x ∈ c, x ∈ segments) {s t : Segment} (hs : s ∈ segments)
    (ht : t ∈ segments) :
    (∃ clone ∈ classes, semanticOccurrence s ∈ clone.occurrences ∧
      semanticOccurrence t ∈ clone.occurrences) ↔ ∃ c ∈ groups, s ∈ c ∧ t ∈ c := by
  have hmem : ∀ c ∈ groups, ∀ x ∈ segments,
      semanticOccurrence x ∈ c.map semanticOccurrence ↔ x ∈ c := by
    intro c hc x hx
    refine ⟨fun hin => ?_, List.mem_map_of_mem⟩
    obtain ⟨y, hy, hyx⟩ := List.mem_map.mp hin
    exact semanticOccurrence_inj hnodup (hgroups c hc y hy) hx hyx ▸ hy
  constructor
  · rintro ⟨clone, hclone, hsin, htin⟩
    have hclone' := List.mem_map_of_mem (f := SemanticClone.occurrences) hclone
    rw [hocc] at hclone'
    obtain ⟨c, hc, hceq⟩ := List.mem_map.mp hclone'
    rw [← hceq] at hsin htin
    exact ⟨c, hc, (hmem c hc s hs).mp hsin, (hmem c hc t ht).mp htin⟩
  · rintro ⟨c, hc, hsin, htin⟩
    have hc' := List.mem_map_of_mem (f := List.map semanticOccurrence) hc
    rw [← hocc] at hc'
    obtain ⟨clone, hclone, hceq⟩ := List.mem_map.mp hc'
    refine ⟨clone, hclone, ?_⟩
    rw [hceq]
    exact ⟨(hmem c hc s hs).mpr hsin, (hmem c hc t ht).mpr htin⟩

/-- **Clones do not depend on the other files**: two functions of a run share a class exactly if
they have one signature, each in its own file. -/
theorem clones_of_files {U : CharTable} {opts : Includes} {parsed : List (List Segment)}
    {sha256 : Text → Text} {minLength : ℤ}
    (hparsed : ∀ segs ∈ parsed, ∃ file, parseCFile U opts file = some segs)
    (hsha : HashesApart (mergeSegments parsed) sha256 minLength) :
    ∃ classes, detectType4 (mergeSegments parsed) sha256 minLength = some classes ∧
      ∀ segs segs' s t merged merged', FromFile parsed segs s merged →
        FromFile parsed segs' t merged' → s ∈ fnSegments segs minLength →
        t ∈ fnSegments segs' minLength → merged ≠ merged' →
        ((∃ clone ∈ classes, semanticOccurrence merged ∈ clone.occurrences ∧
            semanticOccurrence merged' ∈ clone.occurrences) ↔
          semanticSignature segs s = semanticSignature segs' t) := by
  have hnumbered := numbered_of_parsed hparsed
  have hnodup := nodup_mergeSegments hnumbered
  have hacyclic := acyclic_mergeSegments hnumbered
  obtain ⟨classes, groups, hdetect, hocc, -, hgroups⟩ :=
    separates_detectType4 hsha hnodup hacyclic
  refine ⟨classes, hdetect, fun segs segs' s t merged merged' hfrom hfrom' hs ht hne => ?_⟩
  have hmerged := hfrom.mem_fnSegments hs
  have hmerged' := hfrom'.mem_fnSegments ht
  obtain ⟨sig, hsig⟩ := Option.isSome_iff_exists.mp (semanticSignature_isSome hacyclic merged)
  obtain ⟨sig', hsig'⟩ := Option.isSome_iff_exists.mp (semanticSignature_isSome hacyclic merged')
  rw [← hfrom.semanticSignature_eq hnumbered, ← hfrom'.semanticSignature_eq hnumbered, hsig, hsig',
    Option.some.injEq, semanticSignature_eq_iff hsig hsig',
    ← hgroups.together _ hmerged _ hmerged' hne]
  refine exists_clone_iff hnodup hocc (fun c hc x hx => ?_) (List.mem_of_mem_filter hmerged)
    (List.mem_of_mem_filter hmerged')
  exact List.mem_of_mem_filter ((hgroups.drawn c hc).subset hx)

/-- The files are two times the same one. -/
theorem clones_of_twin_files :
    ∃ classes, detectType4 (mergeSegments [expressionsSegments, expressionsSegments]) id 2 =
        some classes ∧
      ∀ segs segs' s t merged merged',
        FromFile [expressionsSegments, expressionsSegments] segs s merged →
        FromFile [expressionsSegments, expressionsSegments] segs' t merged' →
        s ∈ fnSegments segs 2 → t ∈ fnSegments segs' 2 → merged ≠ merged' →
        ((∃ clone ∈ classes, semanticOccurrence merged ∈ clone.occurrences ∧
            semanticOccurrence merged' ∈ clone.occurrences) ↔
          semanticSignature segs s = semanticSignature segs' t) := by
  refine @clones_of_files .ascii {} _ _ _ (fun segs hsegs => ⟨expressionsSource, ?_⟩)
    (hashesApart_of_injective Function.injective_id)
  have heq : segs = expressionsSegments := by simpa using hsegs
  rw [heq]
  exact parse_expressionsSource

end Csc512
