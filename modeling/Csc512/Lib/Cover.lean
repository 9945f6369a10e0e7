import Mathlib.Data.List.Sort
import Mathlib.Data.List.Nodup

/-!
# Keeping what is not covered yet

Everything in a list has places, and places lie within one another. A pass over the list drops what
has each of its places within a place of something kept before it. What is dropped can itself have
covered something, so it is not clear from the pass alone what is kept. It is: whatever has a place
that lies in no place of anything before it, kept or dropped, because "lies within" is transitive.

## Main results

* `mem_keepNew` — what a pass keeps, from what comes before
* `mem_keepNew_iff` — the same without the order, where later places never cover earlier ones
* `pairwise_insertionSort` — sorting is stable
-/

namespace Csc512

section KeepNew

variable {α β : Type*} (places : α → List β) (within : β → β → Prop) (eligible : α → α → Prop)

/-- Every place of `c` lies within a place of something in `ds` that is eligible to cover it. -/
def CoveredBy (ds : List α) (c : α) : Prop :=
  ∀ p ∈ places c, ∃ d ∈ ds, eligible d c ∧ ∃ q ∈ places d, within p q

open Classical in
/-- Keep what is not covered by anything kept before. -/
noncomputable def keepNew (kept : List α) : List α → List α
  | [] => []
  | c :: cs =>
    if CoveredBy places within eligible kept c then keepNew kept cs
    else c :: keepNew (kept ++ [c]) cs

variable {places within eligible}

theorem CoveredBy.mono {ds ds' : List α} (hsub : ds ⊆ ds') {c : α}
    (h : CoveredBy places within eligible ds c) : CoveredBy places within eligible ds' c := by
  intro p hp
  obtain ⟨d, hd, hcover⟩ := h p hp
  exact ⟨d, hsub hd, hcover⟩

theorem keepNew_sublist (kept l : List α) :
    (keepNew places within eligible kept l).Sublist l := by
  induction l generalizing kept with
  | nil => exact List.Sublist.refl _
  | cons c cs ih =>
    rw [keepNew]
    split
    · exact (ih kept).cons c
    · exact (ih (kept ++ [c])).cons_cons c

section Order

variable (withinRefl : ∀ p, within p p) (withinTrans : ∀ {p q r}, within p q → within q r →
  within p r) (eligibleRefl : ∀ c, eligible c c)
  (eligibleTrans : ∀ {b c d}, eligible b c → eligible c d → eligible b d)

include withinRefl withinTrans eligibleRefl eligibleTrans

/-- **What a pass keeps**: what is not covered by all that comes before it. Here `seen` is what the
pass has read already, and every place of it lies within one that was kept. -/
theorem mem_keepNew {kept seen : List α} (hsub : kept ⊆ seen)
    (hseen : ∀ d ∈ seen, ∀ q ∈ places d, ∃ k ∈ kept, eligible k d ∧ ∃ r ∈ places k, within q r)
    (l : List α) (c : α) :
    c ∈ keepNew places within eligible kept l ↔
      ∃ before after, l = before ++ c :: after ∧
        ¬ CoveredBy places within eligible (seen ++ before) c := by
  induction l generalizing kept seen with
  | nil => simp [keepNew]
  | cons a l ih =>
    -- what covers from among the things seen also covers from among those kept
    have hiff : CoveredBy places within eligible kept a ↔
        CoveredBy places within eligible seen a := by
      constructor
      · exact CoveredBy.mono hsub
      · intro h p hp
        obtain ⟨d, hd, heligible, q, hq, hwithin⟩ := h p hp
        obtain ⟨k, hk, hkd, r, hr, hqr⟩ := hseen d hd q hq
        exact ⟨k, hk, eligibleTrans hkd heligible, r, hr, withinTrans hwithin hqr⟩
    have hsplit : (∃ before after, a :: l = before ++ c :: after ∧
          ¬ CoveredBy places within eligible (seen ++ before) c) ↔
        (a = c ∧ ¬ CoveredBy places within eligible seen a) ∨
          ∃ before after, l = before ++ c :: after ∧
            ¬ CoveredBy places within eligible (seen ++ [a] ++ before) c := by
      constructor
      · rintro ⟨before, after, hl, hcover⟩
        cases before with
        | nil =>
          obtain ⟨rfl, -⟩ := List.cons.inj hl
          exact Or.inl ⟨rfl, by rwa [List.append_nil] at hcover⟩
        | cons b before =>
          obtain ⟨rfl, rfl⟩ := List.cons.inj hl
          exact Or.inr ⟨before, after, rfl, by rwa [List.append_assoc]⟩
      · rintro (⟨rfl, hcover⟩ | ⟨before, after, rfl, hcover⟩)
        · exact ⟨[], l, rfl, by rwa [List.append_nil]⟩
        · exact ⟨a :: before, after, rfl, by rwa [List.append_assoc] at hcover⟩
    rw [hsplit, keepNew]
    by_cases hcovered : CoveredBy places within eligible kept a
    · have hread : kept ⊆ seen ++ [a] := fun d hd => List.mem_append_left _ (hsub hd)
      have hcover : ∀ d ∈ seen ++ [a], ∀ q ∈ places d,
          ∃ k ∈ kept, eligible k d ∧ ∃ r ∈ places k, within q r := by
        intro d hd q hq
        rcases List.mem_append.mp hd with hd | hd
        · exact hseen d hd q hq
        · obtain rfl := List.mem_singleton.mp hd
          exact hcovered q hq
      rw [if_pos hcovered, ih hread hcover]
      simp [hiff.mp hcovered]
    · have hread : kept ++ [a] ⊆ seen ++ [a] := by
        intro d hd
        rcases List.mem_append.mp hd with hd | hd
        · exact List.mem_append_left _ (hsub hd)
        · exact List.mem_append_right _ hd
      have hcover : ∀ d ∈ seen ++ [a], ∀ q ∈ places d,
          ∃ k ∈ kept ++ [a], eligible k d ∧ ∃ r ∈ places k, within q r := by
        intro d hd q hq
        rcases List.mem_append.mp hd with hd | hd
        · obtain ⟨k, hk, hcover⟩ := hseen d hd q hq
          exact ⟨k, List.mem_append_left _ hk, hcover⟩
        · obtain rfl := List.mem_singleton.mp hd
          exact ⟨d, by simp, eligibleRefl d, q, hq, withinRefl q⟩
      rw [if_neg hcovered, List.mem_cons, ih hread hcover]
      simp [mt hiff.mpr hcovered, eq_comm]

/-- **What a pass keeps, without the order**, where nothing is covered by what comes later: what
has a place that lies in no place of anything else. -/
theorem mem_keepNew_iff {l : List α} (hplaces : ∀ c ∈ l, places c ≠ [])
    (hlater : l.Pairwise fun a b => eligible b a → ∀ p ∈ places a, ∀ q ∈ places b, ¬ within p q)
    (c : α) :
    c ∈ keepNew places within eligible [] l ↔
      c ∈ l ∧ ∃ p ∈ places c, ∀ d ∈ l, d ≠ c → eligible d c → ∀ q ∈ places d, ¬ within p q := by
  rw [mem_keepNew withinRefl withinTrans eligibleRefl eligibleTrans (List.Subset.refl [])
    (fun d hd => absurd hd List.not_mem_nil)]
  constructor
  · rintro ⟨before, after, rfl, hcover⟩
    refine ⟨by simp, ?_⟩
    simp only [CoveredBy, List.nil_append, not_forall, not_exists, not_and] at hcover
    obtain ⟨p, hp, hcover⟩ := hcover
    refine ⟨p, hp, fun d hd hne heligible q hq => ?_⟩
    rcases List.mem_append.mp hd with hd | hd
    · exact hcover d hd heligible q hq
    · rcases List.mem_cons.mp hd with rfl | hd
      · exact absurd rfl hne
      · have hafter := (List.pairwise_append.mp hlater).2.1
        exact (List.pairwise_cons.mp hafter).1 d hd heligible p hp q hq
  · rintro ⟨hc, p, hp, hout⟩
    obtain ⟨before, after, rfl⟩ := List.append_of_mem hc
    refine ⟨before, after, rfl, fun hcover => ?_⟩
    obtain ⟨d, hd, heligible, q, hq, hwithin⟩ := hcover p hp
    rw [List.nil_append] at hd
    by_cases hdc : d = c
    · -- nothing comes twice, as it would be covered by its later copy
      subst hdc
      have hcross := (List.pairwise_append.mp hlater).2.2 d hd d List.mem_cons_self
      exact hcross heligible p hp p hp (withinRefl p)
    · exact hout d (List.mem_append_left _ hd) hdc heligible q hq hwithin

end Order

end KeepNew

/-! ### Stability of sorting -/

/-- Sorting by a key, from the largest to the smallest, keeps the order of what has equal keys. -/
theorem pairwise_insertionSort {α : Type*} (key : α → ℕ) {before : α → α → Prop} {l : List α}
    (h : l.Pairwise before) :
    (l.insertionSort fun a b => key b ≤ key a).Pairwise fun a b =>
      key b < key a ∨ key b = key a ∧ before a b := by
  induction l with
  | nil => exact List.Pairwise.nil
  | cons a l ih =>
    obtain ⟨ha, hl⟩ := List.pairwise_cons.mp h
    have hall : ∀ b ∈ l.insertionSort fun a b => key b ≤ key a, before a b :=
      fun b hb => ha b ((List.mem_insertionSort _).mp hb)
    rw [List.insertionSort_cons]
    specialize ih hl
    revert hall ih
    generalize l.insertionSort (fun a b => key b ≤ key a) = sorted
    intro ih hall
    induction sorted with
    | nil => exact List.pairwise_singleton _ _
    | cons b sorted ih' =>
      obtain ⟨hb, hsorted⟩ := List.pairwise_cons.mp ih
      rw [List.orderedInsert_cons]
      split
      · rename_i hle
        refine List.pairwise_cons.mpr ⟨fun d hd => ?_, ih⟩
        have hda : key d ≤ key a := by
          rcases List.mem_cons.mp hd with rfl | hd
          · exact hle
          · rcases hb d hd with hlt | ⟨heq, -⟩ <;> omega
        rcases Nat.lt_or_eq_of_le hda with hlt | heq
        · exact Or.inl hlt
        · exact Or.inr ⟨heq, hall d hd⟩
      · rename_i hle
        refine List.pairwise_cons.mpr ⟨fun d hd => ?_,
          ih' hsorted fun d hd => hall d (List.mem_cons_of_mem _ hd)⟩
        rcases List.mem_cons.mp ((List.perm_orderedInsert _ _ _).mem_iff.mp hd) with rfl | hd
        · exact Or.inl (by omega)
        · exact hb d hd

end Csc512
