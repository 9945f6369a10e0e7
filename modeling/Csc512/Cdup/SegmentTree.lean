import Csc512.Cdup.Ir
import Mathlib.Data.List.Sort

/-!
# The tree of segments

Segments name their parents. The stages behind the parser look a segment up by its id, and take the
children of a segment in the order of their ids.
-/

namespace Csc512

/-- The last segment with an id. -/
def segById (segments : List Segment) (id : ℕ) : Option Segment :=
  segments.reverse.find? fun seg => seg.id = id

/-- The ids of the children of a segment, in increasing order. -/
def buildChildren (segments : List Segment) (parent : ℕ) : List ℕ :=
  ((segments.filter fun seg => seg.id ≠ seg.parent ∧ seg.parent = parent).map
    Segment.id).insertionSort (· ≤ ·)

/-! ### Looking segments up -/

variable {segments : List Segment}

theorem mem_of_segById {id : ℕ} {seg : Segment} (h : segById segments id = some seg) :
    seg ∈ segments :=
  List.mem_reverse.mp (List.mem_of_find?_eq_some h)

theorem id_of_segById {id : ℕ} {seg : Segment} (h : segById segments id = some seg) :
    seg.id = id := by
  have hid := List.find?_some h
  simpa using hid

theorem segById_isSome {id : ℕ} (h : id ∈ segments.map Segment.id) :
    (segById segments id).isSome := by
  obtain ⟨seg, hseg, rfl⟩ := List.mem_map.mp h
  rw [segById, List.find?_isSome]
  exact ⟨seg, List.mem_reverse.mpr hseg, by simp⟩

theorem mem_buildChildren {parent c : ℕ} : c ∈ buildChildren segments parent ↔
    ∃ seg ∈ segments, seg.id = c ∧ seg.parent = parent ∧ seg.parent ≠ seg.id := by
  rw [buildChildren, List.mem_insertionSort, List.mem_map]
  simp only [List.mem_filter, decide_eq_true_eq]
  constructor
  · rintro ⟨seg, ⟨hseg, hne, hparent⟩, hid⟩
    exact ⟨seg, hseg, hid, hparent, hne.symm⟩
  · rintro ⟨seg, hseg, hid, hparent, hne⟩
    exact ⟨seg, ⟨hseg, hne.symm, hparent⟩, hid⟩

/-! ### Forests -/

/-- The segments form trees under segments that are their own parents: their ids are different, and
on the way to the parents no segment comes twice. -/
structure Forest (segments : List Segment) : Prop where
  nodup : (segments.map Segment.id).Nodup
  parent_mem : ∀ seg ∈ segments, seg.parent ∈ segments.map Segment.id
  ranked : ∃ rank : ℕ → ℕ, ∀ seg ∈ segments, seg.parent ≠ seg.id → rank seg.parent < rank seg.id

/-- A segment is another one or below it. -/
inductive Below (segments : List Segment) (top : ℕ) : ℕ → Prop where
  | refl : Below segments top top
  | step {seg : Segment} (hseg : seg ∈ segments) (hne : seg.parent ≠ seg.id)
      (h : Below segments top seg.parent) : Below segments top seg.id

namespace Forest

variable (h : Forest segments)

include h

theorem eq_of_id_eq {seg seg' : Segment} (hseg : seg ∈ segments) (hseg' : seg' ∈ segments)
    (hid : seg.id = seg'.id) : seg = seg' :=
  List.inj_on_of_nodup_map h.nodup hseg hseg' hid

theorem segById_eq {seg : Segment} (hseg : seg ∈ segments) :
    segById segments seg.id = some seg := by
  obtain ⟨seg', hfound⟩ := Option.isSome_iff_exists.mp (segById_isSome (List.mem_map_of_mem hseg))
  rw [hfound, h.eq_of_id_eq (mem_of_segById hfound) hseg (id_of_segById hfound)]

theorem nodup_buildChildren (parent : ℕ) : (buildChildren segments parent).Nodup :=
  (List.perm_insertionSort _ _).nodup_iff.mpr (h.nodup.sublist (List.filter_sublist.map _))

theorem nodup_rootIds : (((segments.filter fun seg => seg.id = seg.parent).map
    Segment.id).insertionSort (· ≤ ·)).Nodup :=
  (List.perm_insertionSort _ _).nodup_iff.mpr (h.nodup.sublist (List.filter_sublist.map _))

/-- Two segments above the same one are above each other. -/
theorem below_or_below {a b t : ℕ} (ha : Below segments a t) (hb : Below segments b t) :
    Below segments a b ∨ Below segments b a := by
  induction ha with
  | refl => exact Or.inr hb
  | @step seg hseg hne ha ih =>
    generalize hid : seg.id = t at hb
    cases hb with
    | refl => exact Or.inl (hid ▸ Below.step hseg hne ha)
    | @step seg' hseg' _ hb =>
      obtain rfl := h.eq_of_id_eq hseg hseg' hid
      exact ih hb

/-- A segment is not below its children. -/
theorem not_below_child {c : Segment} (hc : c ∈ segments) (hne : c.parent ≠ c.id) :
    ¬ Below segments c.id c.parent := by
  obtain ⟨rank, hrank⟩ := h.ranked
  have hle : ∀ t, Below segments c.id t → rank c.id ≤ rank t := by
    intro t ht
    induction ht with
    | refl => exact le_rfl
    | step hseg hne _ ih => exact ih.trans (hrank _ hseg hne).le
  exact fun hbelow => absurd (hle _ hbelow) (Nat.not_le.mpr (hrank c hc hne))

omit h in
/-- A segment that is below another one is below one of its children. -/
theorem exists_child {top t : ℕ} (hbelow : Below segments top t) (hne : t ≠ top) :
    ∃ c ∈ buildChildren segments top, Below segments c t := by
  induction hbelow with
  | refl => exact absurd rfl hne
  | @step seg hseg hpar hup ih =>
    by_cases htop : seg.parent = top
    · exact ⟨seg.id, mem_buildChildren.mpr ⟨seg, hseg, rfl, htop, hpar⟩, .refl⟩
    · obtain ⟨c, hc, hct⟩ := ih htop
      exact ⟨c, hc, .step hseg hpar hct⟩

/-- There is only one such child. -/
theorem child_unique {top t c d : ℕ} (hc : c ∈ buildChildren segments top)
    (hd : d ∈ buildChildren segments top) (hct : Below segments c t) (hdt : Below segments d t) :
    c = d := by
  have hself : ∀ {c d : ℕ}, c ∈ buildChildren segments top → d ∈ buildChildren segments top →
      Below segments c d → c = d := by
    intro c d hc hd hcd
    obtain ⟨seg, hseg, rfl, hparent, hne⟩ := mem_buildChildren.mp hc
    obtain ⟨seg', hseg', rfl, hparent', hne'⟩ := mem_buildChildren.mp hd
    generalize hid : seg'.id = t at hcd
    cases hcd with
    | refl => rfl
    | @step seg'' hseg'' _ hup =>
      obtain rfl := h.eq_of_id_eq hseg' hseg'' hid
      rw [hparent', ← hparent] at hup
      exact absurd hup (h.not_below_child hseg hne)
  rcases h.below_or_below hct hdt with hcd | hdc
  · exact hself hc hd hcd
  · exact (hself hd hc hdc).symm

/-- Every segment is below a root. -/
theorem exists_root {seg : Segment} (hseg : seg ∈ segments) :
    ∃ root ∈ segments, root.parent = root.id ∧ Below segments root.id seg.id := by
  obtain ⟨rank, hrank⟩ := h.ranked
  induction hr : rank seg.id using Nat.strongRecOn generalizing seg with
  | ind r ih =>
    by_cases hroot : seg.parent = seg.id
    · exact ⟨seg, hseg, hroot, .refl⟩
    · obtain ⟨parent, hparent, hid⟩ := List.mem_map.mp (h.parent_mem seg hseg)
      have hlt := hrank seg hseg hroot
      obtain ⟨root, hmem, hself, hbelow⟩ := ih (rank parent.id) (by rw [hid]; omega) hparent rfl
      exact ⟨root, hmem, hself, .step hseg hroot (hid ▸ hbelow)⟩

theorem root_unique {root root' : Segment} (hroot : root ∈ segments) (hroot' : root' ∈ segments)
    (hself : root.parent = root.id) (hself' : root'.parent = root'.id) {t : ℕ}
    (hbelow : Below segments root.id t) (hbelow' : Below segments root'.id t) :
    root.id = root'.id := by
  have hcase : ∀ {r r' : Segment}, r' ∈ segments → r'.parent = r'.id →
      Below segments r.id r'.id → r.id = r'.id := by
    intro r r' hr' hself hup
    generalize hid : r'.id = t at hup
    cases hup with
    | refl => rfl
    | @step seg hseg hne _ =>
      obtain rfl := h.eq_of_id_eq hr' hseg hid
      exact absurd hself hne
  rcases h.below_or_below hbelow hbelow' with hle | hle
  · exact hcase hroot' hself' hle
  · exact (hcase hroot hself hle).symm

end Forest

end Csc512
