import Csc512.Lib.Dict
import Mathlib.Data.List.Induction
import Mathlib.Logic.Relation

/-!
# Union-find

A forest of parent pointers in a dictionary: a key without an entry is its own parent. Looking up
the root of a key halves the path to it, and two keys are united by hanging the root of the first
one under the root of the second one. That the pointers make no cycle is part of the structure.

The walk to the root is bounded by the number of entries, which is always enough.

## Main results

* `root_find` — what a lookup finds, and that it moves no key to another tree
* `same_unionAll` — after uniting pairs of keys, two keys are in one tree exactly if a chain of
  pairs leads from one to the other
-/

namespace Csc512

variable {κ : Type*}

/-! ### Parents and roots -/

/-- The root above a key. -/
inductive Root (parent : κ → κ) : κ → κ → Prop where
  | root {r : κ} (h : parent r = r) : Root parent r r
  | step {x r : κ} (h : parent x ≠ x) (hr : Root parent (parent x) r) : Root parent x r

/-- The pointers make no cycle: they lead to keys of a higher rank. -/
def RankedBy (parent : κ → κ) (rank : κ → ℕ) : Prop :=
  ∀ x, parent x ≠ x → rank x < rank (parent x)

theorem Root.parent_eq {parent : κ → κ} {x r : κ} (h : Root parent x r) : parent r = r := by
  induction h with
  | root h => exact h
  | step _ _ ih => exact ih

theorem Root.unique {parent : κ → κ} {x r s : κ} (h : Root parent x r) (h' : Root parent x s) :
    r = s := by
  induction h with
  | root h =>
    cases h' with
    | root => rfl
    | step hne => exact absurd h hne
  | step h _ ih =>
    cases h' with
    | root hroot => exact absurd hroot h
    | step _ hr => exact ih hr

section Update

variable [DecidableEq κ] {parent : κ → κ}

/-- **Halving a path** moves no key to another tree. -/
theorem root_halve_iff {rank : κ → ℕ} (hrank : RankedBy parent rank) {x : κ} (hx : parent x ≠ x)
    (y s : κ) : Root (Function.update parent x (parent (parent x))) y s ↔ Root parent y s := by
  have hself : Function.update parent x (parent (parent x)) x = parent (parent x) :=
    Function.update_self ..
  have hother : ∀ {z}, z ≠ x → Function.update parent x (parent (parent x)) z = parent z :=
    fun hz => Function.update_of_ne hz _ _
  have hgrand : parent (parent x) ≠ x := by
    intro h
    have hlt := hrank x hx
    by_cases hroot : parent (parent x) = parent x
    · exact hx (hroot.symm.trans h)
    · have hlt' := hrank (parent x) hroot
      rw [h] at hlt'
      omega
  constructor
  · intro h
    induction h with
    | @root s hroot =>
      by_cases hs : s = x
      · subst hs
        exact absurd (hself.symm.trans hroot) hgrand
      · exact .root ((hother hs).symm.trans hroot)
    | @step y s hne _ ih =>
      by_cases hy : y = x
      · subst hy
        rw [hself] at ih
        by_cases hroot : parent (parent y) = parent y
        · exact .step hx (hroot ▸ ih)
        · exact .step hx (.step hroot ih)
      · rw [hother hy] at ih hne
        exact .step hne ih
  · intro h
    induction h with
    | @root s hroot =>
      have hs : s ≠ x := fun hs => hx (hs ▸ hroot)
      exact .root ((hother hs).trans hroot)
    | @step y s hne _ ih =>
      by_cases hy : y = x
      · subst hy
        refine .step (fun h => hgrand (hself.symm.trans h)) ?_
        rw [hself]
        by_cases hroot : parent (parent y) = parent y
        · exact hroot.symm ▸ ih
        · cases ih with
          | root h => exact absurd ((hother hx).symm.trans h) hroot
          | step _ hr => rwa [hother hx] at hr
      · exact .step ((hother hy).symm ▸ hne) ((hother hy).symm ▸ ih)

/-- **Hanging one root under another one** moves the first tree. -/
theorem root_hang_iff {a b : κ} (ha : parent a = a) (hb : parent b = b) (hab : a ≠ b) (y s : κ) :
    Root (Function.update parent a b) y s ↔ Root parent y s ∧ s ≠ a ∨ Root parent y a ∧ s = b := by
  have hself : Function.update parent a b a = b := Function.update_self ..
  have hother : ∀ {z}, z ≠ a → Function.update parent a b z = parent z :=
    fun hz => Function.update_of_ne hz _ _
  have hrootb : Root (Function.update parent a b) b b := .root ((hother hab.symm).trans hb)
  constructor
  · intro h
    induction h with
    | @root s hroot =>
      have hs : s ≠ a := by
        rintro rfl
        exact hab (hroot.symm.trans hself)
      exact .inl ⟨.root ((hother hs).symm.trans hroot), hs⟩
    | @step y s hne hr ih =>
      by_cases hy : y = a
      · subst hy
        rw [hself] at hr
        exact .inr ⟨.root ha, hr.unique hrootb⟩
      · rw [hother hy] at hne ih
        rcases ih with ⟨h, hs⟩ | ⟨h, hs⟩
        · exact .inl ⟨.step hne h, hs⟩
        · exact .inr ⟨.step hne h, hs⟩
  · rintro (⟨h, hs⟩ | ⟨h, rfl⟩)
    · induction h with
      | @root s hroot => exact .root ((hother hs).trans hroot)
      | @step y s hne _ ih =>
        have hy : y ≠ a := fun hy => hne (hy ▸ ha)
        exact .step ((hother hy).symm ▸ hne) ((hother hy).symm ▸ ih hs)
    · have hmoved : ∀ r, Root parent y r → r = a → Root (Function.update parent a s) y s := by
        intro r h
        induction h with
        | root =>
          rintro rfl
          exact .step (fun h => hab (h.symm.trans hself)) (hself.symm ▸ hrootb)
        | @step y r hne hr ih =>
          intro hra
          have hy : y ≠ a := fun hy => hne (hy ▸ ha)
          exact .step ((hother hy).symm ▸ hne) ((hother hy).symm ▸ ih (hra ▸ hr) hra)
      exact hmoved a h rfl

end Update

/-! ### The structure -/

variable [DecidableEq κ]

/-- The parent of a key. -/
def parentIn (parents : Dict κ κ) (x : κ) : κ := (parents.get? x).getD x

theorem parentIn_upsert (parents : Dict κ κ) (x y : κ) :
    parentIn (parents.upsert x fun _ => y) = Function.update (parentIn parents) x y := by
  funext z
  by_cases hz : z = x
  · subst hz
    rw [parentIn, Dict.get?_upsert_self, Function.update_self, Option.getD_some]
  · rw [parentIn, Dict.get?_upsert_of_ne _ _ hz, Function.update_of_ne hz]
    rfl

/-- Parent pointers without a cycle. -/
structure UnionFind (κ : Type*) [DecidableEq κ] where
  parents : Dict κ κ
  ranked : ∃ rank, RankedBy (parentIn parents) rank

namespace UnionFind

/-- No keys are united. -/
def empty : UnionFind κ := ⟨Dict.empty, fun _ => 0, fun _ h => absurd rfl h⟩

/-- The parent of a key. -/
def parent (u : UnionFind κ) (x : κ) : κ := parentIn u.parents x

/-- Point a key at its grandparent. -/
def halve (u : UnionFind κ) (x : κ) : UnionFind κ where
  parents := u.parents.upsert x fun _ => u.parent (u.parent x)
  ranked := by
    obtain ⟨rank, hrank⟩ := u.ranked
    refine ⟨rank, fun y hy => ?_⟩
    rw [parentIn_upsert] at hy ⊢
    by_cases hyx : y = x
    · subst hyx
      rw [Function.update_self] at hy ⊢
      by_cases hroot : u.parent y = y
      · exact absurd (hroot.symm ▸ hroot) hy
      · have hlt := hrank y hroot
        by_cases hgrand : u.parent (u.parent y) = u.parent y
        · rwa [hgrand]
        · exact Nat.lt_trans hlt (hrank _ hgrand)
    · rw [Function.update_of_ne hyx] at hy ⊢
      exact hrank y hy

/-- Look for the root of a key, `n` steps at most. -/
def findFrom : ℕ → UnionFind κ → κ → κ × UnionFind κ
  | 0, u, x => (x, u)
  | n + 1, u, x =>
    if u.parent x = x then (x, u) else findFrom n (u.halve x) (u.parent (u.parent x))

/-- The root of a key. -/
def find (u : UnionFind κ) (x : κ) : κ × UnionFind κ := findFrom u.parents.entries.length u x

theorem parent_halve (u : UnionFind κ) (x : κ) :
    (u.halve x).parent = Function.update u.parent x (u.parent (u.parent x)) :=
  parentIn_upsert _ _ _

theorem mem_keys_of_parent_ne {u : UnionFind κ} {x : κ} (h : u.parent x ≠ x) :
    x ∈ u.parents.entries.map Prod.fst := by
  cases hget : u.parents.get? x with
  | none => exact absurd (show (u.parents.get? x).getD x = x by rw [hget]; rfl) h
  | some y => exact List.mem_map_of_mem (Dict.get?_eq_some_iff.mp hget)

theorem keys_halve {u : UnionFind κ} {x : κ} (h : u.parent x ≠ x) :
    (u.halve x).parents.entries.map Prod.fst = u.parents.entries.map Prod.fst := by
  show (Dict.upsertEntries _ x u.parents.entries).map Prod.fst = _
  rw [Dict.map_fst_upsertEntries, if_pos (mem_keys_of_parent_ne h)]

/-- A walk is over when no key of a higher rank is left. -/
theorem root_findFrom {rank : κ → ℕ} (n : ℕ) (u : UnionFind κ) (x : κ)
    (hrank : RankedBy u.parent rank)
    (hn : ((u.parents.entries.map Prod.fst).filter fun k => rank x ≤ rank k).length ≤ n) :
    Root u.parent x (findFrom n u x).1 ∧
      ∀ y s, Root (findFrom n u x).2.parent y s ↔ Root u.parent y s := by
  induction n generalizing u x with
  | zero =>
    refine ⟨.root ?_, fun _ _ => Iff.rfl⟩
    by_contra h
    have hnil := List.eq_nil_of_length_eq_zero (Nat.le_zero.mp hn)
    have hmem : x ∈ (u.parents.entries.map Prod.fst).filter fun k => rank x ≤ rank k :=
      List.mem_filter.mpr ⟨mem_keys_of_parent_ne h, decide_eq_true (Nat.le_refl _)⟩
    rw [hnil] at hmem
    exact List.not_mem_nil hmem
  | succ n ih =>
    rw [findFrom]
    by_cases hx : u.parent x = x
    · rw [if_pos hx]
      exact ⟨.root hx, fun _ _ => Iff.rfl⟩
    · rw [if_neg hx]
      have hle : rank x < rank (u.parent (u.parent x)) := by
        have hlt := hrank x hx
        by_cases hroot : u.parent (u.parent x) = u.parent x
        · rwa [hroot]
        · exact Nat.lt_trans hlt (hrank _ hroot)
      have hhalve : RankedBy (u.halve x).parent rank := by
        intro y hy
        rw [parent_halve] at hy ⊢
        by_cases hyx : y = x
        · subst hyx
          rwa [Function.update_self]
        · rw [Function.update_of_ne hyx] at hy ⊢
          exact hrank y hy
      -- `x` is a key that is not looked at again
      have hcount : ((u.parents.entries.map Prod.fst).filter fun k =>
          rank (u.parent (u.parent x)) ≤ rank k).length
            < ((u.parents.entries.map Prod.fst).filter fun k => rank x ≤ rank k).length := by
        have hfilter : ((u.parents.entries.map Prod.fst).filter fun k =>
            rank (u.parent (u.parent x)) ≤ rank k)
              = ((u.parents.entries.map Prod.fst).filter fun k => rank x ≤ rank k).filter
                fun k => rank (u.parent (u.parent x)) ≤ rank k := by
          rw [List.filter_filter]
          refine List.filter_congr fun k _ => ?_
          by_cases hk : rank (u.parent (u.parent x)) ≤ rank k
          · have hk' : rank x ≤ rank k := by omega
            simp [hk, hk']
          · simp [hk]
        rw [hfilter, List.length_filter_lt_length_iff_exists]
        refine ⟨x, List.mem_filter.mpr ⟨mem_keys_of_parent_ne hx, decide_eq_true (Nat.le_refl _)⟩, ?_⟩
        simpa using hle
      obtain ⟨hroot, hsame⟩ := ih (u.halve x) (u.parent (u.parent x)) hhalve (by
        rw [keys_halve hx]
        omega)
      rw [parent_halve] at hroot hsame
      simp only [root_halve_iff hrank hx] at hroot hsame
      refine ⟨.step hx ?_, hsame⟩
      by_cases hgrand : u.parent (u.parent x) = u.parent x
      · rw [hgrand] at hroot ⊢
        exact hroot
      · exact .step hgrand hroot

/-- **What a lookup finds.** -/
theorem root_find (u : UnionFind κ) (x : κ) : Root u.parent x (u.find x).1 ∧
    ∀ y s, Root (u.find x).2.parent y s ↔ Root u.parent y s := by
  obtain ⟨rank, hrank⟩ := u.ranked
  refine root_findFrom _ u x hrank (Nat.le_trans (List.length_filter_le _ _) ?_)
  exact Nat.le_of_eq (List.length_map _)

/-- Hang a root under another one. -/
def hang (u : UnionFind κ) (a b : κ) (ha : u.parent a = a) (hb : u.parent b = b) (hab : a ≠ b) :
    UnionFind κ where
  parents := u.parents.upsert a fun _ => b
  ranked := by
    obtain ⟨rank, hrank⟩ := u.ranked
    classical
    -- everything in the tree of `b` goes above the rank of `a`
    refine ⟨fun y => if Root u.parent y b then rank y + rank a + 1 else rank y, fun y hy => ?_⟩
    have hnot : ¬ Root u.parent a b := fun h => hab ((Root.root ha).unique h)
    rw [parentIn_upsert] at hy ⊢
    by_cases hya : y = a
    · subst hya
      rw [Function.update_self]
      show (if Root u.parent y b then _ else _) < if Root u.parent b b then _ else _
      rw [if_pos (Root.root hb), if_neg hnot]
      omega
    · rw [Function.update_of_ne hya] at hy ⊢
      have hstep : Root u.parent y b ↔ Root u.parent (u.parent y) b := by
        constructor
        · intro h
          cases h with
          | root h => exact absurd h hy
          | step _ h => exact h
        · exact fun h => .step hy h
      have hlt := hrank y hy
      show (if Root u.parent y b then _ else _) < if Root u.parent (u.parent y) b then _ else _
      by_cases h : Root u.parent y b
      · rw [if_pos h, if_pos (hstep.mp h)]
        exact Nat.add_lt_add_right (Nat.add_lt_add_right hlt _) _
      · rw [if_neg h, if_neg (mt hstep.mpr h)]
        exact hlt

/-- Unite two keys. -/
def union (u : UnionFind κ) (a b : κ) : UnionFind κ :=
  let fa := u.find a
  let fb := fa.2.find b
  if h : fa.1 ≠ fb.1 then
    fb.2.hang fa.1 fb.1
      (((root_find fa.2 b).2 _ _).mpr
        (((root_find u a).2 _ _).mpr (.root (root_find u a).1.parent_eq))).parent_eq
      (((root_find fa.2 b).2 _ _).mpr (.root (root_find fa.2 b).1.parent_eq)).parent_eq h
  else fb.2

/-! ### Trees -/

/-- Two keys are in one tree. -/
def Same (u : UnionFind κ) (x y : κ) : Prop := ∃ r, Root u.parent x r ∧ Root u.parent y r

theorem same_refl (u : UnionFind κ) (x : κ) : u.Same x x :=
  ⟨_, (root_find u x).1, (root_find u x).1⟩

theorem Same.symm {u : UnionFind κ} {x y : κ} (h : u.Same x y) : u.Same y x := by
  obtain ⟨r, hx, hy⟩ := h
  exact ⟨r, hy, hx⟩

theorem Same.trans {u : UnionFind κ} {x y z : κ} (h : u.Same x y) (h' : u.Same y z) :
    u.Same x z := by
  obtain ⟨r, hx, hy⟩ := h
  obtain ⟨s, hy', hz⟩ := h'
  obtain rfl := hy.unique hy'
  exact ⟨r, hx, hz⟩

theorem find_eq_iff_same (u : UnionFind κ) (x y : κ) : (u.find x).1 = (u.find y).1 ↔ u.Same x y := by
  constructor
  · intro h
    exact ⟨_, (root_find u x).1, h ▸ (root_find u y).1⟩
  · rintro ⟨r, hx, hy⟩
    rw [(root_find u x).1.unique hx, (root_find u y).1.unique hy]

/-- **Uniting two keys** joins their trees. -/
theorem same_union_iff (u : UnionFind κ) (a b x y : κ) : (u.union a b).Same x y ↔
    u.Same x y ∨ (u.Same x a ∧ u.Same b y) ∨ (u.Same x b ∧ u.Same a y) := by
  obtain ⟨hra, hsa⟩ := root_find u a
  obtain ⟨hrb, hsb⟩ := root_find (u.find a).2 b
  have hrb' : Root u.parent b ((u.find a).2.find b).1 := (hsa _ _).mp hrb
  have hroots : ∀ y s, Root ((u.find a).2.find b).2.parent y s ↔ Root u.parent y s :=
    fun y s => (hsb y s).trans (hsa y s)
  have hex : ∀ z, ∃ r, Root u.parent z r := fun z => ⟨_, (root_find u z).1⟩
  have hsame : ∀ {z w r}, Root u.parent w r → (u.Same z w ↔ Root u.parent z r) := by
    intro z w r hw
    constructor
    · rintro ⟨s, hz, hw'⟩
      exact hw'.unique hw ▸ hz
    · exact fun hz => ⟨r, hz, hw⟩
  have hsame' : ∀ {z w r}, Root u.parent w r → (u.Same w z ↔ Root u.parent z r) :=
    fun hw => ⟨fun h => (hsame hw).mp h.symm, fun h => ((hsame hw).mpr h).symm⟩
  rw [hsame hra, hsame' hrb', hsame hrb', hsame' hra]
  by_cases hne : (u.find a).1 ≠ ((u.find a).2.find b).1
  · have hunion : ∀ z s, Root (u.union a b).parent z s ↔
        Root u.parent z s ∧ s ≠ (u.find a).1 ∨
          Root u.parent z (u.find a).1 ∧ s = ((u.find a).2.find b).1 := by
      intro z s
      have hparent : (u.union a b).parent
          = Function.update ((u.find a).2.find b).2.parent (u.find a).1
            ((u.find a).2.find b).1 := by
        rw [union]
        simp only [dif_pos hne]
        exact parentIn_upsert _ _ _
      rw [hparent, root_hang_iff ((hroots _ _).mpr (.root hra.parent_eq)).parent_eq
        ((hroots _ _).mpr (.root hrb'.parent_eq)).parent_eq hne, hroots, hroots]
    constructor
    · rintro ⟨r, hx, hy⟩
      rw [hunion] at hx hy
      rcases hx with ⟨hx, hxa⟩ | ⟨hx, rfl⟩
      · rcases hy with ⟨hy, -⟩ | ⟨hy, rfl⟩
        · exact .inl ⟨r, hx, hy⟩
        · exact .inr (.inr ⟨hx, hy⟩)
      · rcases hy with ⟨hy, -⟩ | ⟨hy, -⟩
        · exact .inr (.inl ⟨hx, hy⟩)
        · exact .inl ⟨_, hx, hy⟩
    · rintro (⟨r, hx, hy⟩ | ⟨hx, hy⟩ | ⟨hx, hy⟩)
      · by_cases hr : r = (u.find a).1
        · subst hr
          exact ⟨_, (hunion _ _).mpr (.inr ⟨hx, rfl⟩), (hunion _ _).mpr (.inr ⟨hy, rfl⟩)⟩
        · exact ⟨r, (hunion _ _).mpr (.inl ⟨hx, hr⟩), (hunion _ _).mpr (.inl ⟨hy, hr⟩)⟩
      · exact ⟨_, (hunion _ _).mpr (.inr ⟨hx, rfl⟩), (hunion _ _).mpr (.inl ⟨hy, hne.symm⟩)⟩
      · exact ⟨_, (hunion _ _).mpr (.inl ⟨hx, hne.symm⟩), (hunion _ _).mpr (.inr ⟨hy, rfl⟩)⟩
  · have heq := not_not.mp hne
    have hunion : (u.union a b).Same x y ↔ u.Same x y := by
      have hunfold : u.union a b = ((u.find a).2.find b).2 := by
        rw [union]
        simp only [dif_neg hne]
      simp only [hunfold, Same, hroots]
    rw [hunion, ← heq]
    refine ⟨.inl, fun h => h.elim id fun h => ?_⟩
    rcases h with ⟨hx, hy⟩ | ⟨hx, hy⟩ <;> exact ⟨_, hx, hy⟩

/-- Unite pairs of keys. -/
def unionAll (edges : List (κ × κ)) : UnionFind κ :=
  edges.foldl (fun u e => u.union e.1 e.2) empty

theorem same_empty_iff (x y : κ) : (empty : UnionFind κ).Same x y ↔ x = y := by
  have hroot : ∀ z : κ, Root (empty : UnionFind κ).parent z z := fun z => .root rfl
  constructor
  · rintro ⟨r, hx, hy⟩
    exact (hx.unique (hroot x)).symm.trans (hy.unique (hroot y))
  · rintro rfl
    exact same_refl _ x

/-- **Chains of pairs.** After uniting pairs of keys, two keys are in one tree exactly if a chain of
pairs leads from one to the other. -/
theorem same_unionAll (edges : List (κ × κ)) (x y : κ) :
    (unionAll edges).Same x y ↔ Relation.EqvGen (fun a b => (a, b) ∈ edges) x y := by
  induction edges using List.reverseRecOn generalizing x y with
  | nil =>
    rw [unionAll, List.foldl_nil, same_empty_iff]
    constructor
    · rintro rfl
      exact .refl x
    · intro h
      induction h with
      | rel _ _ h => exact absurd h List.not_mem_nil
      | refl => rfl
      | symm _ _ _ ih => exact ih.symm
      | trans _ _ _ _ _ ih ih' => exact ih.trans ih'
  | append_singleton edges e ih =>
    rw [unionAll, List.foldl_append, List.foldl_cons, List.foldl_nil, ← unionAll]
    have hmono : ∀ {x y}, Relation.EqvGen (fun a b => (a, b) ∈ edges) x y →
        Relation.EqvGen (fun a b => (a, b) ∈ edges ++ [e]) x y :=
      fun h => h.mono fun _ _ h => List.mem_append_left _ h
    have hedge : Relation.EqvGen (fun a b => (a, b) ∈ edges ++ [e]) e.1 e.2 :=
      .rel _ _ (List.mem_append_right _ (List.mem_singleton_self _))
    constructor
    · rw [same_union_iff]
      simp only [ih]
      rintro (h | ⟨h, h'⟩ | ⟨h, h'⟩)
      · exact hmono h
      · exact ((hmono h).trans _ _ _ hedge).trans _ _ _ (hmono h')
      · exact ((hmono h).trans _ _ _ (hedge.symm _ _)).trans _ _ _ (hmono h')
    · intro h
      induction h with
      | rel a b hab =>
        rw [same_union_iff]
        rcases List.mem_append.mp hab with hab | hab
        · exact .inl ((ih a b).mpr (.rel _ _ hab))
        · obtain rfl := List.mem_singleton.mp hab
          exact .inr (.inl ⟨same_refl _ _, same_refl _ _⟩)
      | refl x => exact same_refl _ x
      | symm _ _ _ ih => exact ih.symm
      | trans _ _ _ _ _ ih ih' => exact ih.trans ih'

end UnionFind

end Csc512
