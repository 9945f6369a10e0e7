import Mathlib.Data.List.Basic
import Mathlib.Order.Basic

/-!
# Dealing out a list

Walk along a list and give every element that takes one the next item of a second list, as long as
there are items.

## Main results

* `filter_deal` — the `t`-th element that takes one gets item number `t`
* `forall_own_iff` — when every element gets an item of its own, if belonging keeps order
-/

namespace Csc512

variable {α β : Type*}

/-- Give the elements that take one the items of a list, one after the other. -/
def deal (takes : α → Bool) : List α → List β → List (α × Option β)
  | [], _ => []
  | x :: xs, items =>
    if takes x then (x, items.head?) :: deal takes xs items.tail
    else (x, none) :: deal takes xs items

section Deal

variable (takes : α → Bool)

theorem deal_cons_pos {x : α} (hx : takes x) (xs : List α) (items : List β) :
    deal takes (x :: xs) items = (x, items.head?) :: deal takes xs items.tail :=
  if_pos hx

theorem deal_cons_neg {x : α} (hx : ¬ takes x) (xs : List α) (items : List β) :
    deal takes (x :: xs) items = (x, none) :: deal takes xs items :=
  if_neg hx

theorem map_fst_deal (xs : List α) (items : List β) :
    (deal takes xs items).map Prod.fst = xs := by
  induction xs generalizing items with
  | nil => rfl
  | cons x xs ih =>
    by_cases hx : takes x
    · rw [deal_cons_pos takes hx, List.map_cons, ih]
    · rw [deal_cons_neg takes hx, List.map_cons, ih]

/-- Dealing does not look at the elements but for whether they take an item. -/
theorem deal_map {α' : Type*} (f : α' → α) (xs : List α') (items : List β) :
    deal takes (xs.map f) items
      = (deal (fun x => takes (f x)) xs items).map fun p => (f p.1, p.2) := by
  induction xs generalizing items with
  | nil => rfl
  | cons x xs ih =>
    by_cases hx : takes (f x)
    · rw [List.map_cons, deal_cons_pos takes hx, deal_cons_pos (fun x => takes (f x)) hx, ih,
        List.map_cons]
    · rw [List.map_cons, deal_cons_neg takes hx, deal_cons_neg (fun x => takes (f x)) hx, ih,
        List.map_cons]

/-- Dealing does not look at the items. -/
theorem deal_map_right {β' : Type*} (f : β → β') (xs : List α) (items : List β) :
    deal takes xs (items.map f) = (deal takes xs items).map fun p => (p.1, p.2.map f) := by
  induction xs generalizing items with
  | nil => rfl
  | cons x xs ih =>
    by_cases hx : takes x
    · rw [deal_cons_pos takes hx, deal_cons_pos takes hx, List.map_cons, ← ih, List.map_tail,
        List.head?_map]
    · rw [deal_cons_neg takes hx, deal_cons_neg takes hx, List.map_cons, ← ih]
      rfl

/-- An element that takes none gets none. -/
theorem snd_of_mem_deal {xs : List α} {items : List β} {p : α × Option β}
    (hp : p ∈ deal takes xs items) (hplain : ¬ takes p.1) : p.2 = none := by
  induction xs generalizing items with
  | nil => cases hp
  | cons x xs ih =>
    by_cases hx : takes x
    · rw [deal_cons_pos takes hx, List.mem_cons] at hp
      rcases hp with rfl | hp
      · exact absurd hx hplain
      · exact ih hp
    · rw [deal_cons_neg takes hx, List.mem_cons] at hp
      rcases hp with rfl | hp
      · rfl
      · exact ih hp

/-- What is dealt are items. -/
theorem mem_of_mem_deal {xs : List α} {items : List β} {p : α × Option β} {item : β}
    (hp : p ∈ deal takes xs items) (hitem : p.2 = some item) : item ∈ items := by
  induction xs generalizing items with
  | nil => cases hp
  | cons x xs ih =>
    by_cases hx : takes x
    · rw [deal_cons_pos takes hx, List.mem_cons] at hp
      rcases hp with rfl | hp
      · exact List.mem_of_head? hitem
      · exact List.mem_of_mem_tail (ih hp)
    · rw [deal_cons_neg takes hx, List.mem_cons] at hp
      rcases hp with rfl | hp
      · cases hitem
      · exact ih hp

/-- What is dealt and what is left are all items, in order. -/
theorem flatMap_snd_deal {γ : Type*} (f : β → List γ) (xs : List α) (items : List β) :
    ((deal takes xs items).flatMap fun p => p.2.elim [] f) ++
      (items.drop (xs.countP takes)).flatMap f = items.flatMap f := by
  induction xs generalizing items with
  | nil => rfl
  | cons x xs ih =>
    by_cases hx : takes x
    · rw [deal_cons_pos takes hx, List.countP_cons_of_pos hx, List.flatMap_cons, List.append_assoc,
        ← List.drop_tail, ih]
      cases items <;> rfl
    · rw [deal_cons_neg takes hx, List.countP_cons_of_neg hx, List.flatMap_cons]
      exact ih items

theorem getElem?_tail_eq (items : List β) (t : ℕ) : items.tail[t]? = items[t + 1]? := by
  cases items <;> rfl

/-- **The items in order.** Of the elements that take one, number `t` gets item number `t`. -/
theorem filter_deal (xs : List α) (items : List β) (t : ℕ) :
    ((deal takes xs items).filter fun p => takes p.1)[t]?
      = (xs.filter takes)[t]?.map fun x => (x, items[t]?) := by
  induction xs generalizing items t with
  | nil => rfl
  | cons x xs ih =>
    by_cases hx : takes x
    · rw [deal_cons_pos takes hx, List.filter_cons_of_pos (by simpa using hx),
        List.filter_cons_of_pos hx]
      cases t with
      | zero => simp [List.head?_eq_getElem?]
      | succ t => rw [List.getElem?_cons_succ, List.getElem?_cons_succ, ih, getElem?_tail_eq]
    · rw [deal_cons_neg takes hx, List.filter_cons_of_neg (by simpa using hx),
        List.filter_cons_of_neg hx, ih]

end Deal

/-! ### Items of one's own -/

/-- If a relation is order-preserving and unambiguous, and the numbers below `m` are related to
something on both sides, then each of them is related to itself. -/
theorem related_self {R : ℕ → ℕ → Prop} {m : ℕ} (hmono : ∀ s t b c, s < t → R s b → R t c → b < c)
    (huniq : ∀ t b c, R t b → R t c → b = c) (hleft : ∀ t < m, ∃ b, R t b)
    (hright : ∀ b < m, ∃ t, R t b) (t : ℕ) (ht : t < m) : R t t := by
  induction t using Nat.strongRecOn with
  | ind t ih =>
    obtain ⟨b, hb⟩ := hleft t ht
    rcases Nat.lt_trichotomy b t with hlt | rfl | hgt
    · exact absurd (hmono b t b b hlt (ih b hlt (Nat.lt_trans hlt ht)) hb) (Nat.lt_irrefl b)
    · exact hb
    · obtain ⟨s, hs⟩ := hright t ht
      rcases Nat.lt_trichotomy s t with hlt | rfl | hgt'
      · exact absurd (huniq s s t (ih s hlt (Nat.lt_trans hlt ht)) hs) (Nat.ne_of_lt hlt)
      · exact hs
      · exact absurd (hmono t s b t hgt' hb hs) (Nat.lt_asymm hgt)

section Own

variable {takers : List α} {items : List β} {Own : α → β → Prop}

/-- Every taker gets an item of its own, or has none and gets none, if and only if, as far as both
lists reach, every taker has an item of its own and every item belongs to a taker. -/
theorem forall_own_iff
    (hmono : ∀ (s t b c : ℕ) x y u v, s < t → takers[s]? = some x → takers[t]? = some y →
      items[b]? = some u → items[c]? = some v → Own x u → Own y v → b < c)
    (huniq : ∀ x ∈ takers, ∀ (b c : ℕ) u v, items[b]? = some u → items[c]? = some v → Own x u →
      Own x v → b = c) :
    (∀ (t : ℕ) x, takers[t]? = some x →
      (∀ u, items[t]? = some u → Own x u) ∧ (items[t]? = none → ∀ u ∈ items, ¬ Own x u)) ↔
    (∀ x ∈ takers.take (min takers.length items.length), ∃ u ∈ items, Own x u) ∧
      (∀ u ∈ items.take (min takers.length items.length), ∃ x ∈ takers, Own x u) := by
  constructor
  · intro h
    constructor
    · intro x hx
      obtain ⟨t, ht⟩ := List.mem_iff_getElem?.mp hx
      rw [List.getElem?_take] at ht
      split_ifs at ht with hmin
      have hlt : t < items.length := by omega
      exact ⟨items[t], List.getElem_mem hlt, (h t x ht).1 _ (List.getElem?_eq_getElem hlt)⟩
    · intro u hu
      obtain ⟨t, ht⟩ := List.mem_iff_getElem?.mp hu
      rw [List.getElem?_take] at ht
      split_ifs at ht with hmin
      have hlt : t < takers.length := by omega
      exact ⟨takers[t], List.getElem_mem hlt, (h t _ (List.getElem?_eq_getElem hlt)).1 u ht⟩
  · rintro ⟨hleft, hright⟩
    let R : ℕ → ℕ → Prop := fun t b => ∃ x u, takers[t]? = some x ∧ items[b]? = some u ∧ Own x u
    have hRmono : ∀ s t b c, s < t → R s b → R t c → b < c := by
      rintro s t b c hst ⟨x, u, hx, hu, hown⟩ ⟨y, v, hy, hv, hown'⟩
      exact hmono s t b c x y u v hst hx hy hu hv hown hown'
    have hRuniq : ∀ t b c, R t b → R t c → b = c := by
      rintro t b c ⟨x, u, hx, hu, hown⟩ ⟨y, v, hy, hv, hown'⟩
      obtain rfl := Option.some.inj (hx.symm.trans hy)
      exact huniq x (List.mem_of_getElem? hx) b c u v hu hv hown hown'
    have hself := related_self (m := min takers.length items.length) hRmono hRuniq
      (fun t ht => by
        have ht' : t < takers.length := by omega
        obtain ⟨u, hu, hown⟩ := hleft takers[t]
          (List.mem_of_getElem? (i := t) (by
            rw [List.getElem?_take_of_lt ht, List.getElem?_eq_getElem]))
        obtain ⟨b, hb⟩ := List.mem_iff_getElem?.mp hu
        exact ⟨b, _, u, List.getElem?_eq_getElem _, hb, hown⟩)
      (fun b hb => by
        have hb' : b < items.length := by omega
        obtain ⟨x, hx, hown⟩ := hright items[b]
          (List.mem_of_getElem? (i := b) (by
            rw [List.getElem?_take_of_lt hb, List.getElem?_eq_getElem]))
        obtain ⟨t, ht⟩ := List.mem_iff_getElem?.mp hx
        exact ⟨t, x, _, ht, List.getElem?_eq_getElem _, hown⟩)
    intro t x hx
    have ht := (List.getElem?_eq_some_iff.mp hx).1
    constructor
    · intro u hu
      have ht' := (List.getElem?_eq_some_iff.mp hu).1
      obtain ⟨y, v, hy, hv, hown⟩ := hself t (by omega)
      obtain rfl := Option.some.inj (hx.symm.trans hy)
      obtain rfl := Option.some.inj (hu.symm.trans hv)
      exact hown
    · intro hnone u hu hown
      rw [List.getElem?_eq_none_iff] at hnone
      obtain ⟨b, hb⟩ := List.mem_iff_getElem?.mp hu
      have hlt := (List.getElem?_eq_some_iff.mp hb).1
      have hself' := hself b (by omega)
      exact absurd (hRmono b t b b (by omega) hself' ⟨x, u, hx, hb, hown⟩) (Nat.lt_irrefl b)

end Own

end Csc512
