import Mathlib.Data.List.Nodup
import Mathlib.Data.List.Induction
import Mathlib.Data.List.Lattice

/-!
# Insertion-ordered dictionaries

A dictionary as a list of entries with pairwise different keys, in the order in which the keys
were first inserted. Updating a key keeps its place. The order is what an iteration over the
dictionary sees, so it is part of the value.

The invariant is a field: a dictionary with a repeated key cannot be built.
-/

namespace Csc512

/-- An insertion-ordered dictionary. -/
structure Dict (κ ν : Type*) where
  entries : List (κ × ν)
  nodup : (entries.map Prod.fst).Nodup

namespace Dict

variable {κ ν : Type*}

/-- The dictionary without entries. -/
def empty : Dict κ ν := ⟨[], List.nodup_nil⟩

@[simp] theorem entries_empty : (empty : Dict κ ν).entries = [] := rfl

/-- Keep the entries that satisfy `p`. -/
def filter (d : Dict κ ν) (p : κ → ν → Bool) : Dict κ ν where
  entries := d.entries.filter fun e => p e.1 e.2
  nodup := d.nodup.sublist (List.filter_sublist.map _)

@[simp] theorem mem_entries_filter {d : Dict κ ν} {p : κ → ν → Bool} {e : κ × ν} :
    e ∈ (d.filter p).entries ↔ e ∈ d.entries ∧ p e.1 e.2 := by
  simp [filter]

/-- Different entries have different keys. -/
theorem eq_of_mem_entries {d : Dict κ ν} {k : κ} {v v' : ν} (h : (k, v) ∈ d.entries)
    (h' : (k, v') ∈ d.entries) : v = v' := by
  have heq : (k, v) = (k, v') := List.inj_on_of_nodup_map d.nodup h h' rfl
  exact congrArg Prod.snd heq

variable [DecidableEq κ]

/-- The value at a key. -/
def get? (d : Dict κ ν) (k : κ) : Option ν := (d.entries.find? fun e => e.1 = k).map Prod.snd

theorem get?_eq_some_iff {d : Dict κ ν} {k : κ} {v : ν} :
    d.get? k = some v ↔ (k, v) ∈ d.entries := by
  constructor
  · intro h
    obtain ⟨e, he, rfl⟩ := Option.map_eq_some_iff.mp h
    have hkey : e.1 = k := by simpa using List.find?_some he
    exact hkey ▸ List.mem_of_find?_eq_some he
  · intro h
    cases hf : d.entries.find? fun e => e.1 = k with
    | none =>
      have hne := List.find?_eq_none.mp hf _ h
      simp at hne
    | some e =>
      have hkey : e.1 = k := by simpa using List.find?_some hf
      have hmem : (k, e.2) ∈ d.entries := hkey ▸ List.mem_of_find?_eq_some hf
      rw [get?, hf, Option.map_some, eq_of_mem_entries hmem h]

@[simp] theorem get?_empty (k : κ) : (empty : Dict κ ν).get? k = none := rfl

/-! ### Update in place, or insert at the end -/

/-- `upsert` on a list of entries. -/
def upsertEntries (f : Option ν → ν) (k : κ) : List (κ × ν) → List (κ × ν)
  | [] => [(k, f none)]
  | e :: es => if e.1 = k then (k, f (some e.2)) :: es else e :: upsertEntries f k es

theorem map_fst_upsertEntries (f : Option ν → ν) (k : κ) (es : List (κ × ν)) :
    (upsertEntries f k es).map Prod.fst
      = if k ∈ es.map Prod.fst then es.map Prod.fst else es.map Prod.fst ++ [k] := by
  induction es with
  | nil => simp [upsertEntries]
  | cons e es ih =>
    by_cases he : e.1 = k
    · simp [upsertEntries, he]
    · have hne : k ≠ e.1 := fun h => he h.symm
      simp only [upsertEntries, if_neg he, List.map_cons, ih, List.mem_cons, hne, false_or]
      split <;> rfl

/-- Set the value at `k` to `f` of the value it has. -/
def upsert (d : Dict κ ν) (k : κ) (f : Option ν → ν) : Dict κ ν where
  entries := upsertEntries f k d.entries
  nodup := by
    rw [map_fst_upsertEntries]
    split
    · exact d.nodup
    · rename_i hk
      exact List.nodup_append.mpr ⟨d.nodup, List.nodup_singleton k, fun a ha b hb =>
        fun hab => hk (List.mem_singleton.mp hb ▸ hab ▸ ha)⟩

theorem find?_upsertEntries_self (f : Option ν → ν) (k : κ) (es : List (κ × ν)) :
    ((upsertEntries f k es).find? fun e => e.1 = k).map Prod.snd
      = some (f ((es.find? fun e => e.1 = k).map Prod.snd)) := by
  induction es with
  | nil => simp [upsertEntries]
  | cons e es ih =>
    by_cases he : e.1 = k
    · simp [upsertEntries, he]
    · simpa [upsertEntries, he] using ih

theorem find?_upsertEntries_of_ne (f : Option ν → ν) {k k' : κ} (h : k' ≠ k) (es : List (κ × ν)) :
    (upsertEntries f k es).find? (fun e => e.1 = k') = es.find? fun e => e.1 = k' := by
  induction es with
  | nil => simpa [upsertEntries] using h.symm
  | cons e es ih =>
    by_cases he : e.1 = k
    · have hk : ¬ e.1 = k' := fun hc => h (hc.symm.trans he)
      simp [upsertEntries, he, h.symm]
    · simp only [upsertEntries, if_neg he, List.find?_cons, ih]

@[simp] theorem get?_upsert_self (d : Dict κ ν) (k : κ) (f : Option ν → ν) :
    (d.upsert k f).get? k = some (f (d.get? k)) :=
  find?_upsertEntries_self f k d.entries

theorem get?_upsert_of_ne (d : Dict κ ν) {k k' : κ} (f : Option ν → ν) (h : k' ≠ k) :
    (d.upsert k f).get? k' = d.get? k' := by
  rw [get?, get?]
  exact congrArg _ (find?_upsertEntries_of_ne f h d.entries)

/-- Updating every key of a list of different keys. -/
theorem get?_foldl_upsert (f : Option ν → ν) {ks : List κ} (hks : ks.Nodup) (d : Dict κ ν)
    (k : κ) : (ks.foldl (fun d k => d.upsert k f) d).get? k
      = if k ∈ ks then some (f (d.get? k)) else d.get? k := by
  induction ks generalizing d with
  | nil => simp
  | cons j ks ih =>
    obtain ⟨hj, hks⟩ := List.nodup_cons.mp hks
    rw [List.foldl_cons, ih hks]
    by_cases hk : k = j
    · subst hk
      simp [hj]
    · rw [get?_upsert_of_ne _ _ hk]
      simp [hk]

/-- Setting every key of a list to the same value. -/
theorem get?_foldl_upsert_const {α : Type*} (key : α → κ) (v : ν) (xs : List α) (d : Dict κ ν)
    (k : κ) : (xs.foldl (fun d x => d.upsert (key x) fun _ => v) d).get? k
      = if k ∈ xs.map key then some v else d.get? k := by
  induction xs generalizing d with
  | nil => simp
  | cons x xs ih =>
    rw [List.foldl_cons, ih, List.map_cons]
    by_cases hk : k = key x
    · subst hk
      simp
    · rw [get?_upsert_of_ne _ _ hk]
      simp [hk]

/-- Setting the keys of a list of items: the last item with a key gives its value. -/
theorem get?_foldl_set_last {α : Type*} (key : α → κ) (val : α → ν) (xs : List α) (d : Dict κ ν)
    (k : κ) : (xs.foldl (fun d x => d.upsert (key x) fun _ => val x) d).get? k
      = ((xs.filter fun x => key x = k).getLast?.map val).or (d.get? k) := by
  induction xs generalizing d with
  | nil => rfl
  | cons x xs ih =>
    rw [List.foldl_cons, ih]
    by_cases hk : key x = k
    · rw [List.filter_cons_of_pos (by simpa using hk), List.getLast?_cons, ← hk, get?_upsert_self]
      cases (xs.filter fun y => key y = key x).getLast? <;> rfl
    · rw [List.filter_cons_of_neg (by simpa using hk), get?_upsert_of_ne _ _ (Ne.symm hk)]

/-- Setting the keys of a list of items, no key twice. -/
theorem get?_foldl_set_iff {α : Type*} (key : α → κ) (val : α → ν) {xs : List α}
    (hxs : (xs.map key).Nodup) {d : Dict κ ν} {k : κ} {v : ν} :
    (xs.foldl (fun d x => d.upsert (key x) fun _ => val x) d).get? k = some v ↔
      (∃ x ∈ xs, key x = k ∧ val x = v) ∨ (k ∉ xs.map key ∧ d.get? k = some v) := by
  induction xs generalizing d with
  | nil => simp
  | cons x xs ih =>
    obtain ⟨hx, hxs⟩ := List.nodup_cons.mp hxs
    rw [List.foldl_cons, ih hxs]
    by_cases hk : k = key x
    · subst hk
      have hne : ∀ y ∈ xs, key y ≠ key x := fun y hy heq => hx (heq ▸ List.mem_map_of_mem hy)
      simp only [get?_upsert_self, List.mem_cons, List.map_cons, Option.some.injEq]
      constructor
      · rintro (⟨y, hy, heq, -⟩ | ⟨-, rfl⟩)
        · exact absurd heq (hne y hy)
        · exact .inl ⟨x, .inl rfl, rfl, rfl⟩
      · rintro (⟨y, rfl | hy, heq, hval⟩ | ⟨hmem, -⟩)
        · exact .inr ⟨hx, hval⟩
        · exact absurd heq (hne y hy)
        · exact absurd (.inl trivial) hmem
    · rw [get?_upsert_of_ne _ _ hk]
      simp only [List.mem_cons, List.map_cons, not_or]
      constructor
      · rintro (⟨y, hy, hkey, hval⟩ | ⟨hmem, hget⟩)
        · exact .inl ⟨y, .inr hy, hkey, hval⟩
        · exact .inr ⟨⟨hk, hmem⟩, hget⟩
      · rintro (⟨y, rfl | hy, hkey, hval⟩ | ⟨⟨-, hmem⟩, hget⟩)
        · exact absurd hkey.symm hk
        · exact .inl ⟨y, hy, hkey, hval⟩
        · exact .inr ⟨hmem, hget⟩

/-- Setting the keys that are not set yet. -/
theorem get?_foldl_unless_iff (es : List (κ × ν)) (hes : (es.map Prod.fst).Nodup) {d : Dict κ ν}
    {k : κ} {v : ν} :
    (es.foldl (fun d e => if (d.get? e.1).isSome then d else d.upsert e.1 fun _ => e.2) d).get? k
        = some v ↔
      d.get? k = some v ∨ (d.get? k = none ∧ (k, v) ∈ es) := by
  induction es generalizing d with
  | nil => simp
  | cons e es ih =>
    obtain ⟨j, w⟩ := e
    obtain ⟨hj, hes⟩ := List.nodup_cons.mp hes
    rw [List.foldl_cons, ih hes]
    by_cases hk : k = j
    · subst hk
      have hne : (k, v) ∉ es := fun h => hj (List.mem_map.mpr ⟨_, h, rfl⟩)
      cases hget : d.get? k with
      | none => simp [hne, eq_comm]
      | some w' => simp [hget, hne]
    · have hsame : (if (d.get? j).isSome then d else d.upsert j fun _ => w).get? k = d.get? k := by
        split
        · rfl
        · exact get?_upsert_of_ne d _ hk
      rw [hsame]
      simp [hk]

/-! ### Dictionaries of lists -/

section Lists

variable {ι α : Type*} (key : ι → κ) (add : List α → ι → List α)

/-- Extend the lists at the keys of some items. -/
def extend (xs : List ι) (d : Dict κ (List α)) : Dict κ (List α) :=
  xs.foldl (fun d x => d.upsert (key x) fun s => add (s.getD []) x) d

/-- **What the lists hold** after extending them, where an extension adds the members of `added`. -/
theorem mem_get?_extend (added : ι → List α) (hadd : ∀ s x a, a ∈ add s x ↔ a ∈ s ∨ a ∈ added x)
    (xs : List ι) (d : Dict κ (List α)) (k : κ) (a : α) :
    a ∈ ((extend key add xs d).get? k).getD [] ↔
      a ∈ (d.get? k).getD [] ∨ ∃ x ∈ xs, key x = k ∧ a ∈ added x := by
  induction xs generalizing d with
  | nil => simp [extend]
  | cons x xs ih =>
    rw [extend, List.foldl_cons, ← extend, ih]
    by_cases hk : k = key x
    · subst hk
      rw [get?_upsert_self, Option.getD_some, hadd, or_assoc]
      simp
    · rw [get?_upsert_of_ne _ _ hk]
      simp [Ne.symm hk]

/-- What the extensions establish about a list holds of every list. -/
theorem forall_get?_extend {P : List α → Prop} {Q : List α → Prop} (hnil : P [])
    (hQ : ∀ s, Q s → P s) (xs : List ι) (hadd : ∀ s, ∀ x ∈ xs, P s → Q (add s x))
    {d : Dict κ (List α)} (hd : ∀ k s, d.get? k = some s → Q s) {k : κ} {s : List α}
    (hs : (extend key add xs d).get? k = some s) : Q s := by
  induction xs generalizing d with
  | nil => exact hd k s hs
  | cons x xs ih =>
    refine ih (fun s x hx => hadd s x (List.mem_cons_of_mem _ hx)) (fun k' s' hs' => ?_) hs
    by_cases hk : k' = key x
    · subst hk
      rw [get?_upsert_self] at hs'
      obtain rfl := Option.some.inj hs'
      refine hadd _ x List.mem_cons_self ?_
      cases hold : d.get? (key x) with
      | none => exact hnil
      | some old => exact hQ old (hd _ old hold)
    · rw [get?_upsert_of_ne _ _ hk] at hs'
      exact hd k' s' hs'

end Lists

theorem get?_filter (d : Dict κ ν) (p : κ → ν → Bool) (k : κ) :
    (d.filter p).get? k = (d.get? k).filter (p k) := by
  refine Option.ext fun v => ?_
  rw [get?_eq_some_iff, mem_entries_filter, Option.filter_eq_some_iff, get?_eq_some_iff]

/-! ### Numbering keys -/

/-- The number of a key: the one it has, or the next one. -/
def numberOf (d : Dict κ ℕ) (k : κ) : ℕ := (d.get? k).getD (d.entries.length + 1)

/-- Different keys have different numbers, and there are as many keys as numbers. -/
structure Numbering (d : Dict κ ℕ) : Prop where
  inj : ∀ {k k' n}, d.get? k = some n → d.get? k' = some n → k = k'
  le : ∀ {k n}, d.get? k = some n → n ≤ d.entries.length

theorem Numbering.empty : Numbering (empty : Dict κ ℕ) where
  inj h := by cases h
  le h := by cases h

theorem length_upsert (d : Dict κ ν) (k : κ) (f : Option ν → ν) :
    (d.upsert k f).entries.length
      = if (d.get? k).isSome then d.entries.length else d.entries.length + 1 := by
  have hkey : k ∈ d.entries.map Prod.fst ↔ (d.get? k).isSome := by
    rw [Option.isSome_iff_exists, List.mem_map]
    constructor
    · rintro ⟨⟨k', v⟩, he, rfl⟩
      exact ⟨v, get?_eq_some_iff.mpr he⟩
    · rintro ⟨v, hv⟩
      exact ⟨(k, v), get?_eq_some_iff.mp hv, rfl⟩
  have hlen := congrArg List.length (map_fst_upsertEntries f k d.entries)
  rw [List.length_map] at hlen
  rw [show (d.upsert k f).entries = upsertEntries f k d.entries from rfl, hlen]
  by_cases h : k ∈ d.entries.map Prod.fst
  · rw [if_pos h, if_pos (hkey.mp h), List.length_map]
  · rw [if_neg h, if_neg (mt hkey.mpr h), List.length_append, List.length_map]
    rfl

/-- A key keeps its number when another one is numbered. -/
theorem get?_upsert_numberOf {d : Dict κ ℕ} {k : κ} {n : ℕ} (h : d.get? k = some n) (k' : κ) :
    (d.upsert k' fun _ => d.numberOf k').get? k = some n := by
  by_cases hk : k = k'
  · subst hk
    rw [get?_upsert_self, numberOf, h, Option.getD_some]
  · rw [get?_upsert_of_ne _ _ hk, h]

/-- **Numbering one more key.** -/
theorem Numbering.upsert {d : Dict κ ℕ} (h : Numbering d) (k : κ) :
    Numbering (d.upsert k fun _ => d.numberOf k) := by
  have hget : ∀ k' n, (d.upsert k fun _ => d.numberOf k).get? k' = some n →
      d.get? k' = some n ∨ k' = k ∧ d.get? k = none ∧ n = d.entries.length + 1 := by
    intro k' n hn
    by_cases hk : k' = k
    · subst hk
      rw [get?_upsert_self, numberOf, Option.some.injEq] at hn
      cases hget : d.get? k' with
      | none => exact Or.inr ⟨rfl, rfl, by rw [← hn, hget, Option.getD_none]⟩
      | some m =>
        rw [hget, Option.getD_some] at hn
        exact Or.inl (congrArg some hn)
    · rw [get?_upsert_of_ne _ _ hk] at hn
      exact Or.inl hn
  constructor
  · intro k₁ k₂ n h₁ h₂
    rcases hget k₁ n h₁ with hold₁ | ⟨hk₁, -, hn₁⟩
    · rcases hget k₂ n h₂ with hold₂ | ⟨-, -, hn₂⟩
      · exact h.inj hold₁ hold₂
      · exact absurd (hn₂ ▸ h.le hold₁) (Nat.not_succ_le_self _)
    · rcases hget k₂ n h₂ with hold₂ | ⟨hk₂, -, -⟩
      · exact absurd (hn₁ ▸ h.le hold₂) (Nat.not_succ_le_self _)
      · rw [hk₁, hk₂]
  · intro k' n hn
    rw [length_upsert]
    rcases hget k' n hn with hn | ⟨rfl, hnone, rfl⟩
    · have hle := h.le hn
      split_ifs <;> omega
    · rw [hnone]
      exact Nat.le_refl _

/-! ### Grouping -/

/-- Group values under keys, in the order in which they come. -/
def collect (pairs : List (κ × ν)) : Dict κ (List ν) :=
  pairs.foldl (fun d e => d.upsert e.1 fun vs => vs.getD [] ++ [e.2]) empty

/-- Adding `pairs` to the groups of `d`. -/
theorem get?_collect_from (pairs : List (κ × ν)) (d : Dict κ (List ν)) (k : κ) :
    ((pairs.foldl (fun d e => d.upsert e.1 fun vs => vs.getD [] ++ [e.2]) d).get? k).getD []
      = (d.get? k).getD [] ++ (pairs.filter fun e => e.1 = k).map Prod.snd := by
  induction pairs generalizing d with
  | nil => simp
  | cons e pairs ih =>
    rw [List.foldl_cons, ih]
    by_cases he : e.1 = k
    · subst he
      simp
    · rw [get?_upsert_of_ne _ _ (Ne.symm he)]
      simp [he]

/-- **The group of a key** holds the values that came with it, in order. -/
theorem get?_collect (pairs : List (κ × ν)) (k : κ) :
    ((collect pairs).get? k).getD [] = (pairs.filter fun e => e.1 = k).map Prod.snd := by
  rw [collect, get?_collect_from pairs empty k, get?_empty, Option.getD_none, List.nil_append]

/-- Adding one value to its group adds it to the values of all groups. -/
theorem perm_upsertEntries_append (v : ν) (k : κ) (es : List (κ × List ν)) :
    ((upsertEntries (fun vs => vs.getD [] ++ [v]) k es).flatMap Prod.snd).Perm
      (es.flatMap Prod.snd ++ [v]) := by
  induction es with
  | nil => exact List.Perm.refl _
  | cons e es ih =>
    rw [upsertEntries]
    split
    · rw [List.flatMap_cons, List.flatMap_cons, Option.getD_some, List.append_assoc,
        List.append_assoc]
      exact List.perm_append_comm.append_left _
    · rw [List.flatMap_cons, List.flatMap_cons, List.append_assoc]
      exact ih.append_left _

/-- **Grouping loses nothing**: the groups together hold the values. -/
theorem perm_collect (pairs : List (κ × ν)) :
    ((collect pairs).entries.flatMap Prod.snd).Perm (pairs.map Prod.snd) := by
  induction pairs using List.reverseRecOn with
  | nil => exact List.Perm.refl _
  | append_singleton pairs e ih =>
    rw [collect, List.foldl_append, ← collect, List.map_append]
    exact (perm_upsertEntries_append e.2 e.1 _).trans (ih.append_right _)

theorem mem_of_mem_keys_collect {pairs : List (κ × ν)} {k : κ}
    (hk : k ∈ (collect pairs).entries.map Prod.fst) : k ∈ pairs.map Prod.fst := by
  induction pairs using List.reverseRecOn with
  | nil => exact absurd hk List.not_mem_nil
  | append_singleton pairs e ih =>
    rw [collect, List.foldl_append, ← collect, List.foldl_cons, List.foldl_nil, upsert,
      map_fst_upsertEntries] at hk
    rw [List.map_append, List.mem_append]
    split at hk
    · exact Or.inl (ih hk)
    · rcases List.mem_append.mp hk with hk | hk
      · exact Or.inl (ih hk)
      · exact Or.inr hk

end Dict

end Csc512
