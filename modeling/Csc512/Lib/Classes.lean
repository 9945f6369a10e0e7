import Csc512.Lib.Cover
import Csc512.Lib.Dict
import Mathlib.Data.List.Flatten
import Mathlib.Data.List.Perm.Subperm

/-!
# Classes of a list

Elements of a list are put into classes by a relation: the members of a class stand in the order of
the list, and the classes stand by their sizes, from the largest to the smallest, where equal sizes
stay in the order of the members that lead them. Grouping under keys, sorting the groups and leaving
out those of one element makes the classes of "has the same key".

## Main results

* `Dict.pairwise_collect` — groups stand in the order of the elements that lead them
* `separates_groups` — what grouping, sorting and leaving out make
-/

namespace Csc512

/-- The first elements of two lists stand in this order in a third one. -/
def LeadsIn {α : Type*} (l c d : List α) : Prop :=
  ∀ x ∈ c.head?, ∀ y ∈ d.head?, [x, y].Sublist l

/-- The classes of several elements of `l` that `r` relates. -/
structure Separates {α : Type*} (r : α → α → Prop) (l : List α) (classes : List (List α)) :
    Prop where
  together : ∀ x ∈ l, ∀ y ∈ l, x ≠ y → ((∃ c ∈ classes, x ∈ c ∧ y ∈ c) ↔ r x y)
  drawn : ∀ c ∈ classes, c.Sublist l
  several : ∀ c ∈ classes, 2 ≤ c.length
  once : classes.flatten.Nodup
  ordered : classes.Pairwise fun c d =>
    d.length < c.length ∨ d.length = c.length ∧ LeadsIn l c d

theorem Separates.congr {α : Type*} {r r' : α → α → Prop} {l : List α} {classes : List (List α)}
    (h : Separates r l classes) (hr : ∀ x ∈ l, ∀ y ∈ l, r x y ↔ r' x y) : Separates r' l classes :=
  { h with together := fun x hx y hy hxy => (h.together x hx y hy hxy).trans (hr x hx y hy) }

namespace Dict

variable {κ ν : Type*} [DecidableEq κ]

theorem entries_collect_concat (pairs : List (κ × ν)) (e : κ × ν) :
    (collect (pairs ++ [e])).entries =
      upsertEntries (fun vs => vs.getD [] ++ [e.2]) e.1 (collect pairs).entries := by
  rw [collect, List.foldl_append, ← collect]
  rfl

/-- No group is empty. -/
theorem ne_nil_of_mem_collect {pairs : List (κ × ν)} :
    ∀ e ∈ (collect pairs).entries, e.2 ≠ [] := by
  induction pairs using List.reverseRecOn with
  | nil => exact fun e he => absurd he List.not_mem_nil
  | append_singleton pairs e ih =>
    rw [entries_collect_concat]
    generalize (collect pairs).entries = es at ih
    induction es with
    | nil => simp [upsertEntries]
    | cons f es ihes =>
      obtain ⟨hf, hes⟩ := List.forall_mem_cons.mp ih
      rw [upsertEntries]
      split
      · exact List.forall_mem_cons.mpr ⟨by simp, hes⟩
      · exact List.forall_mem_cons.mpr ⟨hf, ihes hes⟩

/-- What leads a group led it before, or is the value that was added. -/
theorem head?_of_mem_upsertEntries (v : ν) (k : κ) {es : List (κ × List ν)}
    (hne : ∀ e ∈ es, e.2 ≠ []) {f : κ × List ν}
    (hf : f ∈ upsertEntries (fun vs => vs.getD [] ++ [v]) k es) {y : ν} (hy : y ∈ f.2.head?) :
    (∃ g ∈ es, y ∈ g.2.head?) ∨ y = v := by
  induction es with
  | nil =>
    obtain rfl := List.mem_singleton.mp hf
    exact Or.inr (Option.mem_some_iff.mp hy).symm
  | cons e es ih =>
    obtain ⟨hene, hesne⟩ := List.forall_mem_cons.mp hne
    rw [upsertEntries] at hf
    split at hf
    · rcases List.mem_cons.mp hf with rfl | hf
      · rw [Option.getD_some, List.head?_append_of_ne_nil _ hene] at hy
        exact Or.inl ⟨e, List.mem_cons_self, hy⟩
      · exact Or.inl ⟨f, List.mem_cons_of_mem _ hf, hy⟩
    · rcases List.mem_cons.mp hf with rfl | hf
      · exact Or.inl ⟨f, List.mem_cons_self, hy⟩
      · rcases ih hesne hf with ⟨g, hg, hyg⟩ | hyv
        · exact Or.inl ⟨g, List.mem_cons_of_mem _ hg, hyg⟩
        · exact Or.inr hyv

/-- A value that is added comes behind the values of all groups. -/
theorem pairwise_upsertEntries_append {values : List ν} (v : ν) (k : κ) {es : List (κ × List ν)}
    (hne : ∀ e ∈ es, e.2 ≠ []) (hsub : ∀ e ∈ es, ∀ x ∈ e.2, x ∈ values)
    (h : (es.map Prod.snd).Pairwise (LeadsIn values)) :
    ((upsertEntries (fun vs => vs.getD [] ++ [v]) k es).map Prod.snd).Pairwise
      (LeadsIn (values ++ [v])) := by
  have hlater : ∀ {c d : List ν}, LeadsIn values c d → LeadsIn (values ++ [v]) c d :=
    fun hcd x hx y hy => (hcd x hx y hy).trans (List.sublist_append_left _ _)
  induction es with
  | nil => exact List.pairwise_singleton _ _
  | cons e es ih =>
    obtain ⟨hhead, htail⟩ := List.pairwise_cons.mp h
    obtain ⟨hene, hesne⟩ := List.forall_mem_cons.mp hne
    obtain ⟨hesub, hessub⟩ := List.forall_mem_cons.mp hsub
    rw [upsertEntries]
    split
    · -- the group grows at its end and is led as before
      refine List.pairwise_cons.mpr ⟨fun d hd x hx => ?_, htail.imp hlater⟩
      refine hlater (hhead d hd) x ?_
      rwa [Option.getD_some, List.head?_append_of_ne_nil _ hene] at hx
    · refine List.pairwise_cons.mpr ⟨fun d hd x hx y hy => ?_, ih hesne hessub htail⟩
      obtain ⟨f, hf, rfl⟩ := List.mem_map.mp hd
      rcases head?_of_mem_upsertEntries v k hesne hf hy with ⟨g, hg, hyg⟩ | rfl
      · exact hlater (hhead g.2 (List.mem_map_of_mem hg)) x hx y hyg
      · have hx' : [x].Sublist values :=
          List.singleton_sublist.mpr (hesub x (List.mem_of_mem_head? hx))
        exact hx'.append (List.Sublist.refl [y])

/-- A group holds values that came in. -/
theorem mem_of_mem_collect {pairs : List (κ × ν)} {e : κ × List ν}
    (he : e ∈ (collect pairs).entries) {x : ν} (hx : x ∈ e.2) : x ∈ pairs.map Prod.snd :=
  (perm_collect pairs).mem_iff.mp (List.mem_flatMap.mpr ⟨e, he, hx⟩)

/-- **Groups stand in the order of the values that lead them.** -/
theorem pairwise_collect (pairs : List (κ × ν)) :
    ((collect pairs).entries.map Prod.snd).Pairwise (LeadsIn (pairs.map Prod.snd)) := by
  induction pairs using List.reverseRecOn with
  | nil => exact List.Pairwise.nil
  | append_singleton pairs e ih =>
    rw [entries_collect_concat, List.map_append]
    exact pairwise_upsertEntries_append e.2 e.1 ne_nil_of_mem_collect
      (fun _ hf _ hx => mem_of_mem_collect hf hx) ih

/-- A group is what came in under its key. -/
theorem eq_filter_of_mem_collect {α : Type*} {key : α → κ} {l : List α} {e : κ × List α}
    (he : e ∈ (collect (l.map fun x => (key x, x))).entries) :
    e.2 = l.filter fun x => key x = e.1 := by
  have h := get?_collect (l.map fun x => (key x, x)) e.1
  rw [get?_eq_some_iff.mpr he, Option.getD_some, List.filter_map, List.map_map] at h
  exact h.trans (List.map_id _)

theorem exists_mem_collect {α : Type*} (key : α → κ) {l : List α} {x : α} (hx : x ∈ l) :
    ∃ e ∈ (collect (l.map fun x => (key x, x))).entries, e.1 = key x := by
  have hmem : x ∈ (l.map fun x => (key x, x)).map Prod.snd := by
    rw [List.map_map]
    exact List.mem_map.mpr ⟨x, hx, rfl⟩
  obtain ⟨e, he, hxe⟩ := List.mem_flatMap.mp ((perm_collect _).mem_iff.mpr hmem)
  rw [eq_filter_of_mem_collect he] at hxe
  exact ⟨e, he, (of_decide_eq_true (List.mem_filter.mp hxe).2).symm⟩

/-- The groups of several values, from the largest to the smallest. -/
def largeGroups (d : Dict κ (List ν)) : List (κ × List ν) :=
  (d.entries.insertionSort fun x y => y.2.length ≤ x.2.length).filter fun e => 2 ≤ e.2.length

omit [DecidableEq κ] in
theorem mem_largeGroups {d : Dict κ (List ν)} {e : κ × List ν} :
    e ∈ d.largeGroups ↔ e ∈ d.entries ∧ 2 ≤ e.2.length := by
  rw [largeGroups, List.mem_filter, List.mem_insertionSort, decide_eq_true_eq]

omit [DecidableEq κ] in
/-- The groups that are left hold nothing twice where the dictionary does not. -/
theorem nodup_flatten_largeGroups {d : Dict κ (List ν)}
    (h : (d.entries.flatMap Prod.snd).Nodup) : (d.largeGroups.map Prod.snd).flatten.Nodup := by
  have hperm := ((List.perm_insertionSort (fun x y : κ × List ν => y.2.length ≤ x.2.length)
    d.entries).map Prod.snd).flatten
  have hsub : (d.largeGroups.map Prod.snd).Sublist
      ((d.entries.insertionSort fun x y => y.2.length ≤ x.2.length).map Prod.snd) :=
    List.filter_sublist.map Prod.snd
  refine hsub.flatten.nodup (hperm.nodup_iff.mpr ?_)
  rwa [← List.flatMap_def]

end Dict

section Groups

variable {α κ : Type*} [DecidableEq κ] (key : α → κ) (l : List α)

/-- The elements of a list in groups of one key. -/
def groupsBy : List (List α) :=
  (Dict.collect (l.map fun x => (key x, x))).largeGroups.map Prod.snd

variable {key l}

theorem exists_key_of_mem_groupsBy {c : List α} (hc : c ∈ groupsBy key l) :
    2 ≤ c.length ∧ ∃ k, c = l.filter fun x => key x = k := by
  obtain ⟨e, he, rfl⟩ := List.mem_map.mp hc
  obtain ⟨he, hlen⟩ := Dict.mem_largeGroups.mp he
  exact ⟨hlen, e.1, Dict.eq_filter_of_mem_collect he⟩

/-- Different elements of one key are in one group. -/
theorem exists_mem_groupsBy {x y : α} (hx : x ∈ l) (hy : y ∈ l) (hxy : x ≠ y)
    (hkey : key x = key y) : ∃ c ∈ groupsBy key l, x ∈ c ∧ y ∈ c := by
  obtain ⟨e, he, hek⟩ := Dict.exists_mem_collect key hx
  have hmem : ∀ z ∈ [x, y], z ∈ e.2 := by
    rw [Dict.eq_filter_of_mem_collect he]
    simp only [List.forall_mem_cons, List.mem_filter, decide_eq_true_eq]
    exact ⟨⟨hx, hek.symm⟩, ⟨hy, hkey.symm.trans hek.symm⟩, fun z hz => absurd hz List.not_mem_nil⟩
  have hpair : [x, y].Nodup := by simp [hxy]
  have hlen : 2 ≤ e.2.length := (hpair.subperm hmem).length_le
  exact ⟨e.2, List.mem_map_of_mem (Dict.mem_largeGroups.mpr ⟨he, hlen⟩),
    hmem x List.mem_cons_self, hmem y (List.mem_cons_of_mem _ List.mem_cons_self)⟩

variable (key l) in
omit [DecidableEq κ] in
theorem map_snd_keyed : (l.map fun x => (key x, x)).map Prod.snd = l := by
  rw [List.map_map]
  exact List.map_id _

/-- **Grouping, sorting and leaving out** makes the classes of what has the same key. -/
theorem separates_groupsBy (hl : l.Nodup) :
    Separates (fun x y => key x = key y) l (groupsBy key l) where
  together x hx y hy hxy := by
    refine ⟨?_, exists_mem_groupsBy hx hy hxy⟩
    rintro ⟨c, hc, hxc, hyc⟩
    obtain ⟨-, k, rfl⟩ := exists_key_of_mem_groupsBy hc
    have hkx := of_decide_eq_true (List.mem_filter.mp hxc).2
    have hky := of_decide_eq_true (List.mem_filter.mp hyc).2
    exact hkx.trans hky.symm
  drawn c hc := by
    obtain ⟨-, k, rfl⟩ := exists_key_of_mem_groupsBy hc
    exact List.filter_sublist
  several c hc := (exists_key_of_mem_groupsBy hc).1
  once := by
    refine Dict.nodup_flatten_largeGroups ((Dict.perm_collect _).nodup_iff.mpr ?_)
    rwa [map_snd_keyed]
  ordered := by
    have hlead := Dict.pairwise_collect (l.map fun x => (key x, x))
    rw [map_snd_keyed, List.pairwise_map] at hlead
    exact List.pairwise_map.mpr
      ((pairwise_insertionSort (fun e : κ × List α => e.2.length) hlead).filter _)

end Groups

end Csc512
