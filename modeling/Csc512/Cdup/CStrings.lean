import Csc512.Cdup.HeapBlocks
import Mathlib.Data.List.Perm.Subperm

/-!
# Strings in memory

A string in memory is the codes of its characters from some address on, and a zero behind them. The
interpreter has four walks over such strings: it reads them, counts their characters, copies them,
and compares them.

## Main results

* `readChars_apply`, `countChars_apply` — the string, and its length up to a bound
* `compareChars_apply` — the difference of the first two codes that differ
* `copyChars_apply` — a copy, and nothing else
-/

namespace Csc512

open Exec

/-- A string is in memory from an address on. -/
def StringAt (s : VmState) : ℕ → Text → Prop
  | a, [] => 0 < a ∧ (s.heap.get? a).map HeapCell.value = some (.int 0)
  | a, c :: t => 0 < a ∧ (s.heap.get? a).map HeapCell.value = some (.int c.toNat) ∧
      StringAt s (a + 1) t

/-- There is no zero in a string. -/
def NoNul (t : Text) : Prop := ∀ c ∈ t, c.toNat ≠ 0

theorem NoNul.tail {c : Char} {t : Text} (h : NoNul (c :: t)) : NoNul t :=
  fun d hd => h d (List.mem_cons_of_mem c hd)

theorem isZero_code {n : ℕ} : isZero (.int n) = decide (n = 0) := by
  simp [isZero, Value.number?, Double.value?]

section Read

variable (U : CharTable) {s : VmState} {a b : ℕ} {c : Char} {t u : Text}

theorem heapRead_value {v : Value} (hpos : 0 < a)
    (hv : (s.heap.get? a).map HeapCell.value = some v) : heapRead U (.int a) s = (.ok v, s) := by
  obtain ⟨cell, hcell, rfl⟩ := Option.map_eq_some_iff.mp hv
  exact heapRead_cell U hpos hcell

/-- The code that a walk over a string finds first. -/
def firstCode : Text → ℕ
  | [] => 0
  | c :: _ => c.toNat

theorem StringAt.heapRead_first (h : StringAt s a t) :
    heapRead U (.int a) s = (.ok (.int (firstCode t)), s) := by
  cases t with
  | nil => exact heapRead_value U h.1 h.2
  | cons c t => exact heapRead_value U h.1 h.2.1

theorem StringAt.pos (h : StringAt s a t) : 0 < a := by
  cases t <;> exact h.1

/-- Every cell of a string is one of the heap. -/
theorem StringAt.isSome (h : StringAt s a t) : ∀ i ≤ t.length, (s.heap.get? (a + i)).isSome := by
  induction t generalizing a with
  | nil =>
    intro i hi
    obtain rfl := Nat.le_zero.mp hi
    exact Option.isSome_map.symm.trans (by rw [Nat.add_zero, h.2]; rfl)
  | cons c t ih =>
    intro i hi
    cases i with
    | zero => exact Option.isSome_map.symm.trans (by rw [Nat.add_zero, h.2.1]; rfl)
    | succ i =>
      have hnext := ih h.2.2 i (by simpa using hi)
      rwa [show a + 1 + i = a + (i + 1) by omega] at hnext

/-- A string has no more cells than the heap. -/
theorem StringAt.length_lt (h : StringAt s a t) : t.length < s.heap.entries.length := by
  have hsub : List.range' a (t.length + 1) ⊆ s.heap.entries.map Prod.fst := by
    intro addr haddr
    obtain ⟨i, hi, rfl⟩ := List.mem_range'.mp haddr
    obtain ⟨cell, hcell⟩ := Option.isSome_iff_exists.mp (h.isSome i (by omega))
    rw [Nat.one_mul]
    exact List.mem_map_of_mem (f := Prod.fst) (Dict.get?_eq_some_iff.mp hcell)
  have hle := (List.Nodup.subperm (List.nodup_range' 1) hsub).length_le
  exact Nat.lt_of_succ_le (by simpa using hle)

theorem StringAt.lt_memorySize (h : StringAt s a t) :
    ∃ n, memorySize s = (.ok n, s) ∧ t.length < n :=
  ⟨_, rfl, by have := h.length_lt; omega⟩

/-- A string depends on its own cells only. -/
theorem StringAt.congr {s' : VmState} (h : StringAt s a t)
    (heq : ∀ i ≤ t.length, s'.heap.get? (a + i) = s.heap.get? (a + i)) : StringAt s' a t := by
  induction t generalizing a with
  | nil => exact ⟨h.1, by rw [← h.2, ← Nat.add_zero a, heq 0 (Nat.le_refl 0)]⟩
  | cons c t ih =>
    refine ⟨h.1, by rw [← h.2.1, ← Nat.add_zero a, heq 0 (Nat.zero_le _)], ih h.2.2 fun i hi => ?_⟩
    rw [show a + 1 + i = a + (i + 1) by omega]
    exact heq (i + 1) (by simpa using hi)

/-! ### Walks -/

theorem chr_code (c : Char) (s : VmState) : chr (.int c.toNat) s = (.ok c, s) := by
  have hlt : c.toNat < 0x110000 := by
    have hvalid : c.toNat.isValidChar := c.valid
    unfold Nat.isValidChar at hvalid
    omega
  have hcode : (0 : ℤ) ≤ (c.toNat : ℤ) ∧ (c.toNat : ℤ) < 0x110000 := by omega
  rw [chr, if_pos hcode, Int.toNat_natCast, Char.ofNat_toNat]
  rfl

/-- A string is read up to its zero. -/
theorem readChars_apply (h : StringAt s a t) (hnul : NoNul t) {n : ℕ} (hn : t.length ≤ n) :
    readChars U a n s = (.ok t, s) := by
  induction t generalizing a n with
  | nil =>
    cases n with
    | zero => rfl
    | succ n =>
      refine (bind_of_ok (h.heapRead_first U) _).trans ?_
      rfl
  | cons c t ih =>
    obtain ⟨n, rfl⟩ := Nat.exists_eq_succ_of_ne_zero (Nat.ne_of_gt (Nat.lt_of_lt_of_le
      (Nat.succ_pos t.length) hn))
    refine (bind_of_ok (h.heapRead_first U) _).trans ?_
    rw [firstCode, isZero_code, if_neg (by simpa using hnul c List.mem_cons_self)]
    rw [bind_of_ok (chr_code c s)]
    have hrest := ih h.2.2 hnul.tail (n := n) (by simpa using hn)
    rw [Nat.cast_add, Nat.cast_one] at hrest
    exact bind_of_ok hrest _

/-- The characters of a string are counted, `n` at most. -/
theorem countChars_apply {k : ℕ} (h : StringAt s (a + k) t) (hnul : NoNul t) (n : ℕ) :
    countChars U a k n s = (.ok (.int (k + min t.length n : ℕ)), s) := by
  induction t generalizing k n with
  | nil =>
    cases n with
    | zero => rfl
    | succ n =>
      have hread := h.heapRead_first U
      rw [Nat.cast_add] at hread
      refine (bind_of_ok hread _).trans ?_
      rfl
  | cons c t ih =>
    cases n with
    | zero => rfl
    | succ n =>
      have hread := h.heapRead_first U
      rw [Nat.cast_add] at hread
      refine (bind_of_ok hread _).trans ?_
      rw [firstCode, isZero_code, if_neg (by simpa using hnul c List.mem_cons_self)]
      refine (ih h.2.2 hnul.tail n).trans ?_
      rw [List.length_cons, show k + 1 + min t.length n = k + min (t.length + 1) (n + 1) by omega]

/-- The difference of the first two codes that differ, zero for equal strings. -/
def compareTexts : Text → Text → ℤ
  | c :: t, d :: u => if c = d then compareTexts t u else c.toNat - d.toNat
  | t, u => (firstCode t : ℤ) - firstCode u

theorem cmpEq_int (m n : ℤ) (s : VmState) :
    cmpEq (.int m) (.int n) s = (.ok (decide (m = n)), s) := by
  have hvalue : valueEq s.lists (s.lists.length + 2) (.int m) (.int n) = some (decide (m = n)) := by
    simp [valueEq, Value.number?, Double.eq, Double.value?]
  rw [cmpEq, bind_of_ok (get_apply s), hvalue]
  rfl

/-- Two strings are compared up to where they differ. -/
theorem compareChars_apply (ht : StringAt s a t) (hu : StringAt s b u) (hnul : NoNul t)
    (hnul' : NoNul u) {n : ℕ} (hn : t.length < n) :
    compareChars U a b n s = (.ok (.int (compareTexts t u)), s) := by
  induction t generalizing a b u n with
  | nil =>
    obtain ⟨n, rfl⟩ := Nat.exists_eq_succ_of_ne_zero (Nat.ne_of_gt hn)
    refine (bind_of_ok (ht.heapRead_first U) _).trans ((bind_of_ok (hu.heapRead_first U) _).trans ?_)
    refine (bind_of_ok (cmpEq_int _ _ s) _).trans ?_
    cases u with
    | nil => rfl
    | cons d u =>
      have hd : ((firstCode [] : ℕ) : ℤ) ≠ (firstCode (d :: u) : ℕ) := by
        have hne := hnul' d List.mem_cons_self
        simp only [firstCode]
        omega
      rw [decide_eq_false hd]
      rfl
  | cons c t ih =>
    obtain ⟨n, rfl⟩ := Nat.exists_eq_succ_of_ne_zero (Nat.ne_of_gt (Nat.lt_of_le_of_lt
      (Nat.zero_le _) hn))
    have hc := hnul c List.mem_cons_self
    refine (bind_of_ok (ht.heapRead_first U) _).trans ((bind_of_ok (hu.heapRead_first U) _).trans ?_)
    refine (bind_of_ok (cmpEq_int _ _ s) _).trans ?_
    cases u with
    | nil =>
      have hne : ((firstCode (c :: t) : ℕ) : ℤ) ≠ (firstCode [] : ℕ) := by
        simp only [firstCode]
        omega
      rw [decide_eq_false hne]
      rfl
    | cons d u =>
      by_cases hcd : c = d
      · subst hcd
        have hsame : ((firstCode (c :: t) : ℕ) : ℤ) = (firstCode (c :: u) : ℕ) := rfl
        rw [decide_eq_true hsame, firstCode, isZero_code, decide_eq_false hc, compareTexts,
          if_pos rfl]
        have hrest := ih ht.2.2 hu.2.2 hnul.tail hnul'.tail (n := n) (by simpa using hn)
        rw [Nat.cast_add, Nat.cast_add, Nat.cast_one] at hrest
        exact hrest
      · have hne : ((firstCode (c :: t) : ℕ) : ℤ) ≠ (firstCode (d :: u) : ℕ) := by
          intro h
          exact hcd (Char.toNat_inj.mp (Int.ofNat.inj h))
        rw [decide_eq_false hne, compareTexts, if_neg hcd]
        rfl

/-- The sign of the comparison is that of the lexicographic order. -/
theorem compareTexts_sign (t u : Text) (hnul : NoNul t) (hnul' : NoNul u) :
    (compareTexts t u < 0 ↔ t < u) ∧ (compareTexts t u = 0 ↔ t = u) := by
  induction t generalizing u with
  | nil =>
    cases u with
    | nil => exact ⟨⟨fun h => absurd h (by decide), fun h => absurd h (List.not_lt_nil _)⟩, by decide⟩
    | cons d u =>
      have hd := hnul' d List.mem_cons_self
      have hvalue : compareTexts [] (d :: u) = -(d.toNat : ℤ) := by
        simp [compareTexts, firstCode]
      rw [hvalue]
      refine ⟨iff_of_true (by omega) (List.nil_lt_cons d u), iff_of_false (by omega) nofun⟩
  | cons c t ih =>
    have hc := hnul c List.mem_cons_self
    cases u with
    | nil =>
      have hvalue : compareTexts (c :: t) [] = (c.toNat : ℤ) := by simp [compareTexts, firstCode]
      rw [hvalue]
      exact ⟨iff_of_false (by omega) (List.not_lt_nil _), iff_of_false (by omega) nofun⟩
    | cons d u =>
      rw [List.cons_lt_cons_iff, compareTexts, List.cons.injEq]
      by_cases hcd : c = d
      · subst hcd
        obtain ⟨hlt, heq⟩ := ih u hnul.tail hnul'.tail
        simp [hlt, heq]
      · have hne : c.toNat ≠ d.toNat := fun h => hcd (Char.toNat_inj.mp h)
        have hlt : c < d ↔ c.toNat < d.toNat := Iff.rfl
        rw [if_neg hcd, hlt]
        refine ⟨⟨fun h => .inl (by omega), fun h => ?_⟩, iff_of_false (by omega) fun h => hcd h.1⟩
        have hcode := h.resolve_right fun h => hcd h.1
        omega

/-! ### Copies -/

/-- A string is copied to cells that do not come behind its beginning, and nothing else changes. -/
theorem copyChars_apply {d : ℕ} (h : StringAt s a t) (hnul : NoNul t) (hpos : 0 < d)
    (hcells : ∀ i ≤ t.length, (s.heap.get? (d + i)).isSome)
    (happart : ¬ (a < d ∧ d ≤ a + t.length)) {n : ℕ} (hn : t.length < n) :
    ∃ heap, copyChars U d a n s = (.ok (), { s with heap }) ∧ StringAt { s with heap } d t ∧
      ∀ addr, addr < d ∨ d + t.length < addr → heap.get? addr = s.heap.get? addr := by
  induction t generalizing a d n s with
  | nil =>
    obtain ⟨n, rfl⟩ := Nat.exists_eq_succ_of_ne_zero (Nat.ne_of_gt hn)
    obtain ⟨cell, hcell⟩ := Option.isSome_iff_exists.mp (hcells 0 (Nat.le_refl 0))
    have hwrite := heapWrite_cell hpos hcell (.int 0)
    refine ⟨_, (bind_of_ok (h.heapRead_first U) _).trans (bind_of_ok hwrite _), ⟨hpos, ?_⟩, ?_⟩
    · simp
    · intro addr haddr
      exact Dict.get?_upsert_of_ne _ _ (by simp at haddr; omega)
  | cons c t ih =>
    obtain ⟨n, rfl⟩ := Nat.exists_eq_succ_of_ne_zero (Nat.ne_of_gt (Nat.lt_of_le_of_lt
      (Nat.zero_le _) hn))
    rw [List.length_cons] at hcells happart hn
    obtain ⟨cell, hcell⟩ := Option.isSome_iff_exists.mp (hcells 0 (Nat.zero_le _))
    have hwrite := heapWrite_cell hpos hcell (.int c.toNat)
    generalize hheap : s.heap.upsert d (fun _ => { cell with value := .int c.toNat }) = heap
      at hwrite
    have hother : ∀ addr, addr ≠ d → heap.get? addr = s.heap.get? addr := by
      intro addr haddr
      rw [← hheap, Dict.get?_upsert_of_ne _ _ haddr]
    -- the rest of the string lies behind the cell that was written, or before it
    have hrest : StringAt { s with heap } (a + 1) t :=
      h.2.2.congr fun i hi => hother _ (by omega)
    have hcells' : ∀ i ≤ t.length, (heap.get? (d + 1 + i)).isSome := by
      intro i hi
      have hnext := hcells (i + 1) (by omega)
      rwa [hother _ (by omega), show d + 1 + i = d + (i + 1) by omega]
    obtain ⟨heap', hcopy, hstring, hsame⟩ := ih (d := d + 1) (n := n) hrest hnul.tail
      (Nat.succ_pos d) hcells' (by omega) (by omega)
    have hfirst : heap'.get? d = heap.get? d := hsame d (.inl (Nat.lt_succ_self d))
    refine ⟨heap', ?_, ⟨hpos, ?_, hstring⟩, fun addr haddr => ?_⟩
    · rw [copyChars, bind_of_ok (h.heapRead_first U), firstCode, bind_of_ok hwrite, isZero_code,
        if_neg (by simpa using hnul c List.mem_cons_self)]
      rw [Nat.cast_add, Nat.cast_add, Nat.cast_one] at hcopy
      exact hcopy
    · show (heap'.get? d).map HeapCell.value = _
      rw [hfirst, ← hheap, Dict.get?_upsert_self]
      rfl
    · rw [List.length_cons] at haddr
      rw [hsame addr (by omega), hother addr (by omega)]

theorem heapWrite_other {d addr : ℕ} {v : Value} {s' : VmState}
    (h : heapWrite (.int d) v s = (.ok (), s')) (haddr : addr ≠ d) :
    s'.heap.get? addr = s.heap.get? addr := by
  rw [heapWrite_int] at h
  by_cases hzero : (d : ℤ) = 0
  · rw [if_pos hzero] at h
    exact absurd (congrArg Prod.fst h) nofun
  rw [if_neg hzero] at h
  cases hcell : s.cell? d with
  | some cell =>
    rw [hcell] at h
    rw [← show _ = s' from congrArg Prod.snd h]
    exact Dict.get?_upsert_of_ne _ _ haddr
  | none =>
    rw [hcell] at h
    cases hplace : s.place? d with
    | none =>
      rw [hplace] at h
      exact absurd (congrArg Prod.fst h) nofun
    | some place =>
      rw [hplace] at h
      obtain ⟨slot, t, hslot, hwrite⟩ := exists_of_bind_ok h
      obtain ⟨found, t', hfound, hset⟩ := exists_of_bind_ok hwrite
      have ht : t = s := (congrArg Prod.snd hslot).symm
      have ht' : t' = t := by rw [← (silent_orRaise slot .keyError [] t).1, hfound]
      rw [← show _ = s' from congrArg Prod.snd hset, ht', ht]
      rfl

/-- A copy changes no cell before the first one. -/
theorem copyChars_below {d a n : ℕ} {s s' : VmState} (h : copyChars U d a n s = (.ok (), s'))
    {addr : ℕ} (haddr : addr < d) : s'.heap.get? addr = s.heap.get? addr := by
  induction n generalizing d a s with
  | zero => exact absurd (congrArg Prod.fst h) nofun
  | succ n ih =>
    obtain ⟨v, s₁, hread, hrest⟩ := exists_of_bind_ok h
    have hs₁ : s₁ = s := by rw [← (silent_heapRead_int U a s).1, hread]
    obtain ⟨_, s₂, hwrite, hnext⟩ := exists_of_bind_ok hrest
    have hsame : s₂.heap.get? addr = s.heap.get? addr := by
      rw [heapWrite_other hwrite (Nat.ne_of_lt haddr), hs₁]
    by_cases hzero : isZero v
    · rw [if_pos hzero] at hnext
      rw [← hsame, show s₂ = s' from congrArg Prod.snd hnext]
    · rw [if_neg hzero, ← Nat.cast_one, ← Nat.cast_add, ← Nat.cast_add] at hnext
      rw [← hsame]
      exact ih hnext (by omega)

/-- A string that a copy leaves is the one that was copied. -/
theorem eq_of_copyChars {d n : ℕ} {s' : VmState} (h : StringAt s a t) (hnul : NoNul t)
    (happart : ¬ (a < d ∧ d ≤ a + t.length)) (hu : StringAt s' d u) (hnul' : NoNul u)
    (hcells : ∀ i ≤ u.length, (s.heap.get? (d + i)).isSome)
    (hcopy : copyChars U d a n s = (.ok (), s')) : t = u := by
  induction t generalizing a d u n s with
  | nil =>
    cases n with
    | zero => exact absurd (congrArg Prod.fst hcopy) nofun
    | succ n =>
      obtain ⟨cell, hcell⟩ := Option.isSome_iff_exists.mp (hcells 0 (Nat.zero_le _))
      rw [Nat.add_zero] at hcell
      have hwrite := heapWrite_cell hu.pos hcell (.int (0 : ℕ))
      rw [copyChars, bind_of_ok (h.heapRead_first U), firstCode, bind_of_ok hwrite] at hcopy
      have hvalue : (s'.heap.get? d).map HeapCell.value = some (.int (0 : ℕ)) := by
        rw [← show _ = s' from congrArg Prod.snd hcopy, isZero_code, if_pos (by decide)]
        simp
      cases u with
      | nil => rfl
      | cons c u =>
        rw [hu.2.1] at hvalue
        exact absurd (by simpa using hvalue) (hnul' c List.mem_cons_self)
  | cons c t ih =>
    cases n with
    | zero => exact absurd (congrArg Prod.fst hcopy) nofun
    | succ n =>
      rw [List.length_cons] at happart
      obtain ⟨cell, hcell⟩ := Option.isSome_iff_exists.mp (hcells 0 (Nat.zero_le _))
      rw [Nat.add_zero] at hcell
      have hwrite := heapWrite_cell hu.pos hcell (.int c.toNat)
      generalize hheap : s.heap.upsert d (fun _ => { cell with value := .int c.toNat }) = heap
        at hwrite
      rw [copyChars, bind_of_ok (h.heapRead_first U), firstCode, bind_of_ok hwrite, isZero_code,
        if_neg (by simpa using hnul c List.mem_cons_self), ← Nat.cast_one, ← Nat.cast_add,
        ← Nat.cast_add] at hcopy
      have hother : ∀ addr, addr ≠ d → heap.get? addr = s.heap.get? addr := by
        intro addr haddr
        rw [← hheap, Dict.get?_upsert_of_ne _ _ haddr]
      have hfirst : s'.heap.get? d = heap.get? d := copyChars_below U hcopy (Nat.lt_succ_self d)
      have hvalue : (s'.heap.get? d).map HeapCell.value = some (.int c.toNat) := by
        rw [hfirst, ← hheap, Dict.get?_upsert_self]
        rfl
      cases u with
      | nil =>
        rw [hu.2] at hvalue
        exact absurd (by simpa using hvalue.symm) (hnul c List.mem_cons_self)
      | cons c' u =>
        obtain rfl : c' = c := by
          rw [hu.2.1] at hvalue
          exact Char.toNat_inj.mp (by simpa using hvalue)
        rw [ih (s := { s with heap }) (h.2.2.congr fun i hi => hother _ (by omega)) hnul.tail (by omega) hu.2.2 hnul'.tail
          (fun i hi => ?_) hcopy]
        show (heap.get? _).isSome
        rw [hother _ (by omega), show d + 1 + i = d + (i + 1) by omega]
        exact hcells (i + 1) (by simpa using hi)

end Read

end Csc512
