import Csc512.Cdup.CloneClasses

/-!
# Places in the flat list

In a representation whose segments have different ids, the flat list holds the statements of every
segment in a row. A range of flat positions without separators is then a range of statements of one
segment, and what the detector asks about statement ranges (does one lie in another, do they
overlap, which normal forms do they have) is a question about flat positions.

## Main results

* `exists_laid` — the flat list holds the segments in a row
* `FlatRange.flatRangeToOccurrence_eq` — the occurrence of a range
* `within_occAt`, `overlaps_occAt` — occurrences compare like their ranges
* `norm1Tuple_occAt` — the Type I normal forms of an occurrence
-/

namespace Csc512

/-- The statement at a flat position. -/
def entryAt (flat : List (Option FlatEntry)) (p : ℕ) : Option FlatEntry := flat[p]?.join

/-- The flat list holds the statements of every segment in a row from position `base` on, and
nothing right behind them. -/
structure Laid (segments : List Segment) (flat : List (Option FlatEntry)) (base : ℕ → ℕ) :
    Prop where
  place : ∀ p entry, entryAt flat p = some entry → ∃ seg ∈ segments,
    seg.id = entry.segId ∧ entry.stmtIdx < seg.stmts.length ∧ p = base seg.id + entry.stmtIdx
  entry : ∀ seg ∈ segments, ∀ k < seg.stmts.length, ∃ entry,
    entryAt flat (base seg.id + k) = some entry ∧ entry.segId = seg.id ∧ entry.stmtIdx = k
  behind : ∀ seg ∈ segments, entryAt flat (base seg.id + seg.stmts.length) = none

variable {U : CharTable} {type2Norm : Bool} {segments : List Segment}
  {flat : List (Option FlatEntry)} {base : ℕ → ℕ}

theorem normAt_eq (p : ℕ) : normAt flat p = (entryAt flat p).map FlatEntry.norm := rfl

/-- **The flat list holds the segments in a row**, if their ids are different. -/
theorem exists_laid {segHashes : Dict ℕ ℕ} {segs : List Segment}
    (hnodup : (segs.map Segment.id).Nodup)
    (h : flatSegments U type2Norm segHashes segments segs = some flat) :
    ∃ base, Laid segs flat base := by
  induction segs generalizing flat with
  | nil =>
    obtain rfl : [] = flat := by simpa [flatSegments] using h
    refine ⟨fun _ => 0, ⟨fun p entry hp => ?_, by simp, by simp⟩⟩
    simp [entryAt] at hp
  | cons seg segs ih =>
    simp only [flatSegments, Option.bind_eq_bind, Option.bind_eq_some_iff] at h
    obtain ⟨entries, hentries, rest, hrest, heq⟩ := h
    obtain rfl := Option.some.inj heq
    obtain ⟨hlen, hplace⟩ := of_flatStmts hentries
    obtain ⟨hnew, hnodup⟩ := List.nodup_cons.mp hnodup
    obtain ⟨base, hlaid⟩ := ih hnodup hrest
    have hother : ∀ seg' ∈ segs, seg'.id ≠ seg.id :=
      fun seg' hseg' heq => hnew (heq ▸ List.mem_map_of_mem hseg')
    have hfirst : ∀ k, k < entries.length →
        entryAt (entries.map some ++ none :: rest) k = entries[k]? := by
      intro k hk
      rw [entryAt, List.getElem?_append_left (by simpa using hk), List.getElem?_map,
        List.getElem?_eq_getElem hk, Option.map_some, Option.join_some]
    have hsep : entryAt (entries.map some ++ none :: rest) entries.length = none := by
      simp [entryAt]
    have hlater : ∀ k, entryAt (entries.map some ++ none :: rest) (entries.length + 1 + k)
        = entryAt rest k := by
      intro k
      rw [entryAt, List.getElem?_append_right (by simp; omega), List.length_map,
        show entries.length + 1 + k - entries.length = k + 1 by omega, List.getElem?_cons_succ]
      rfl
    refine ⟨fun id => if id = seg.id then 0 else entries.length + 1 + base id, ?_, ?_, ?_⟩
    · intro p entry hp
      rcases Nat.lt_trichotomy p entries.length with hlt | rfl | hgt
      · rw [hfirst p hlt] at hp
        obtain ⟨hseg, hidx⟩ := hplace p entry hp
        refine ⟨seg, List.mem_cons_self, hseg.symm, by omega, ?_⟩
        rw [if_pos rfl]
        omega
      · rw [hsep] at hp
        cases hp
      · obtain ⟨k, rfl⟩ : ∃ k, p = entries.length + 1 + k := ⟨p - (entries.length + 1), by omega⟩
        rw [hlater] at hp
        obtain ⟨seg', hseg', hid, hidx, rfl⟩ := hlaid.place k entry hp
        refine ⟨seg', List.mem_cons_of_mem _ hseg', hid, hidx, ?_⟩
        rw [if_neg (hother seg' hseg')]
        omega
    · intro seg' hseg' k hk
      rcases List.mem_cons.mp hseg' with rfl | hseg'
      · rw [if_pos rfl, Nat.zero_add, hfirst k (hlen ▸ hk)]
        have hk' : k < entries.length := hlen ▸ hk
        obtain ⟨hseg, hidx⟩ := hplace k _ (List.getElem?_eq_getElem hk')
        exact ⟨_, List.getElem?_eq_getElem hk', hseg, by omega⟩
      · rw [if_neg (hother seg' hseg'), Nat.add_assoc, hlater]
        exact hlaid.entry seg' hseg' k hk
    · intro seg' hseg'
      rcases List.mem_cons.mp hseg' with rfl | hseg'
      · rw [if_pos rfl, Nat.zero_add, ← hlen, hsep]
      · rw [if_neg (hother seg' hseg'), Nat.add_assoc, hlater]
        exact hlaid.behind seg' hseg'

/-! ### Ranges -/

/-- `n` positions from `p` on, all of which hold statements. -/
structure FlatRange (flat : List (Option FlatEntry)) (p n : ℕ) : Prop where
  pos : 0 < n
  holds : ∀ k < n, ∃ entry, entryAt flat (p + k) = some entry

/-- The occurrence of a range. -/
def occAt (flat : List (Option FlatEntry)) (p n : ℕ) : Occurrence :=
  (flatRangeToOccurrence flat p n).getD ⟨0, 0, 0⟩

/-- The texts `form` at `n` positions from `p` on. -/
def formsAt (form : FlatEntry → Text) (flat : List (Option FlatEntry)) (p n : ℕ) : List Text :=
  ((flat.drop p).take n).filterMap fun e => e.map form

theorem contentTuple_eq (p n : ℕ) : contentTuple flat p n = formsAt FlatEntry.norm flat p n := rfl

namespace FlatRange

variable {p q n m : ℕ}

/-- The entries of a range. -/
theorem exists_entries (h : FlatRange flat p n) :
    ∃ entries : List FlatEntry, (flat.drop p).take n = entries.map some ∧ entries.length = n := by
  obtain ⟨-, h⟩ := h
  induction n with
  | zero => exact ⟨[], rfl, rfl⟩
  | succ n ih =>
    obtain ⟨entries, htake, hlen⟩ := ih fun k hk => h k (by omega)
    obtain ⟨entry, hentry⟩ := h n (by omega)
    refine ⟨entries ++ [entry], ?_, by simp [hlen]⟩
    rw [List.take_add_one, htake, List.getElem?_drop, Option.join_eq_some_iff.mp hentry]
    simp

theorem formsAt_length (h : FlatRange flat p n) (form : FlatEntry → Text) :
    (formsAt form flat p n).length = n := by
  obtain ⟨entries, htake, hlen⟩ := h.exists_entries
  simp [formsAt, htake, List.filterMap_map, hlen]

/-- The texts of a range, one by one. -/
theorem getElem?_formsAt (h : FlatRange flat p n) (form : FlatEntry → Text) {k : ℕ} (hk : k < n) :
    (formsAt form flat p n)[k]? = (entryAt flat (p + k)).map form := by
  obtain ⟨entries, htake, hlen⟩ := h.exists_entries
  have hget : ((flat.drop p).take n)[k]? = flat[p + k]? := by
    rw [List.getElem?_take_of_lt hk, List.getElem?_drop]
  rw [htake, List.getElem?_map] at hget
  rw [formsAt, htake, List.filterMap_map]
  simp only [Function.comp_def, Option.map_some, List.filterMap_eq_map', List.getElem?_map]
  rw [entryAt, ← hget, List.getElem?_eq_getElem (by omega)]
  rfl

/-- Two ranges of the same length have the same texts if they have them one by one. -/
theorem formsAt_eq_iff (h : FlatRange flat p n) (h' : FlatRange flat q n)
    (form : FlatEntry → Text) :
    formsAt form flat p n = formsAt form flat q n ↔
      ∀ k < n, (entryAt flat (p + k)).map form = (entryAt flat (q + k)).map form := by
  constructor
  · intro heq k hk
    rw [← h.getElem?_formsAt form hk, ← h'.getElem?_formsAt form hk, heq]
  · intro hall
    refine List.ext_getElem? fun k => ?_
    by_cases hk : k < n
    · rw [h.getElem?_formsAt form hk, h'.getElem?_formsAt form hk, hall k hk]
    · rw [List.getElem?_eq_none (by rw [h.formsAt_length]; omega),
        List.getElem?_eq_none (by rw [h'.formsAt_length]; omega)]

section Laid

variable (hlaid : Laid segments flat base)

include hlaid

/-- **A range lies in one segment.** -/
theorem exists_segment (h : FlatRange flat p n) :
    ∃ seg ∈ segments, ∃ i, p = base seg.id + i ∧ i + n ≤ seg.stmts.length := by
  obtain ⟨hpos, h⟩ := h
  induction n with
  | zero => omega
  | succ n ih =>
    obtain ⟨entry, hentry⟩ := h n (by omega)
    rcases Nat.eq_zero_or_pos n with rfl | hn
    · obtain ⟨seg, hseg, -, hidx, hp⟩ := hlaid.place _ entry hentry
      exact ⟨seg, hseg, entry.stmtIdx, by omega, by omega⟩
    · obtain ⟨seg, hseg, i, rfl, hle⟩ := ih hn fun k hk => h k (by omega)
      refine ⟨seg, hseg, i, rfl, ?_⟩
      -- the next position is not the one right behind the segment
      by_contra hlt
      have hend := hlaid.behind seg hseg
      rw [show seg.stmts.length = i + n by omega, ← Nat.add_assoc, hentry] at hend
      cases hend

theorem flatRangeToOccurrence_segment {seg : Segment} (hseg : seg ∈ segments) {i : ℕ}
    (hn : 0 < n) (hle : i + n ≤ seg.stmts.length) :
    flatRangeToOccurrence flat (base seg.id + i) n = some ⟨seg.id, i, i + n - 1⟩ := by
  obtain ⟨first, hfirst, hsegFirst, hidxFirst⟩ := hlaid.entry seg hseg i (by omega)
  obtain ⟨last, hlast, -, hidxLast⟩ := hlaid.entry seg hseg (i + n - 1) (by omega)
  rw [entryAt] at hfirst hlast
  rw [flatRangeToOccurrence, hfirst, show base seg.id + i + n - 1 = base seg.id + (i + n - 1) by
    omega, hlast]
  simp [hsegFirst, hidxFirst, hidxLast]

/-- **The occurrence of a range.** -/
theorem flatRangeToOccurrence_eq (h : FlatRange flat p n) :
    flatRangeToOccurrence flat p n = some (occAt flat p n) := by
  obtain ⟨seg, hseg, i, rfl, hle⟩ := h.exists_segment hlaid
  rw [occAt, flatRangeToOccurrence_segment hlaid hseg h.pos hle, Option.getD_some]

end Laid

end FlatRange

theorem occAt_segment (hlaid : Laid segments flat base) {seg : Segment} (hseg : seg ∈ segments)
    {i n : ℕ} (hn : 0 < n) (hle : i + n ≤ seg.stmts.length) :
    occAt flat (base seg.id + i) n = ⟨seg.id, i, i + n - 1⟩ := by
  rw [occAt, FlatRange.flatRangeToOccurrence_segment hlaid hseg hn hle, Option.getD_some]

/-! ### Comparing ranges -/

/-- The two ranges lie in one segment and share a statement. -/
def Occurrence.overlaps (o p : Occurrence) : Prop := o.segId = p.segId ∧ o.rangesOverlap p

instance : DecidableRel Occurrence.overlaps := fun _ _ => inferInstanceAs (Decidable (_ ∧ _))

theorem Occurrence.within_refl (o : Occurrence) : o.within o := ⟨rfl, le_rfl, le_rfl⟩

theorem Occurrence.within_trans {o p q : Occurrence} (h : o.within p) (h' : p.within q) :
    o.within q :=
  ⟨h.1.trans h'.1, h'.2.1.trans h.2.1, h.2.2.trans h'.2.2⟩

section Compare

variable (hlaid : Laid segments flat base) {p q n m : ℕ}

include hlaid

/-- Two segments whose statements share a position are the same segment. -/
theorem Laid.id_eq {seg seg' : Segment} (hseg : seg ∈ segments) (hseg' : seg' ∈ segments)
    (i i' : ℕ) (hi : i < seg.stmts.length) (hi' : i' < seg'.stmts.length)
    (heq : base seg.id + i = base seg'.id + i') : seg.id = seg'.id := by
  obtain ⟨entry, hentry, hid, -⟩ := hlaid.entry seg hseg i hi
  obtain ⟨entry', hentry', hid', -⟩ := hlaid.entry seg' hseg' i' hi'
  rw [heq, hentry'] at hentry
  obtain rfl := Option.some.inj hentry
  exact hid.symm.trans hid'

/-- Ranges that share a position lie in one segment. -/
theorem segId_occAt_eq (hp : FlatRange flat p n) (hq : FlatRange flat q m) (hlt : p < q + m)
    (hlt' : q < p + n) : (occAt flat p n).segId = (occAt flat q m).segId := by
  obtain ⟨seg, hseg, i, rfl, hle⟩ := hp.exists_segment hlaid
  obtain ⟨seg', hseg', i', rfl, hle'⟩ := hq.exists_segment hlaid
  rw [occAt_segment hlaid hseg hp.pos hle, occAt_segment hlaid hseg' hq.pos hle']
  rcases Nat.le_total (base seg.id + i) (base seg'.id + i') with h | h
  · obtain ⟨k, hk⟩ := Nat.exists_eq_add_of_le h
    exact hlaid.id_eq hseg hseg' (i + k) i' (by omega) (by have := hq.pos; omega)
      (by omega)
  · obtain ⟨k, hk⟩ := Nat.exists_eq_add_of_le h
    exact hlaid.id_eq hseg hseg' i (i' + k) (by have := hp.pos; omega) (by omega)
      (by omega)

/-- **An occurrence lies in another** when its range does. -/
theorem within_occAt (hp : FlatRange flat p n) (hq : FlatRange flat q m) :
    (occAt flat p n).within (occAt flat q m) ↔ q ≤ p ∧ p + n ≤ q + m := by
  have hn := hp.pos
  have hm := hq.pos
  have hshare := segId_occAt_eq hlaid hp hq
  obtain ⟨seg, hseg, i, rfl, hle⟩ := hp.exists_segment hlaid
  obtain ⟨seg', hseg', i', rfl, hle'⟩ := hq.exists_segment hlaid
  rw [occAt_segment hlaid hseg hn hle, occAt_segment hlaid hseg' hm hle'] at hshare ⊢
  constructor
  · rintro ⟨hid, hstart, hstop⟩
    simp only at hid hstart hstop
    rw [hid]
    omega
  · rintro ⟨hstart, hstop⟩
    have hid : seg.id = seg'.id := hshare (by omega) (by omega)
    rw [hid] at hstart hstop
    exact ⟨hid, by simp only; omega, by simp only; omega⟩

/-- **Occurrences overlap** when their ranges do. -/
theorem overlaps_occAt (hp : FlatRange flat p n) (hq : FlatRange flat q m) :
    (occAt flat p n).overlaps (occAt flat q m) ↔ p < q + m ∧ q < p + n := by
  have hn := hp.pos
  have hm := hq.pos
  have hshare := segId_occAt_eq hlaid hp hq
  obtain ⟨seg, hseg, i, rfl, hle⟩ := hp.exists_segment hlaid
  obtain ⟨seg', hseg', i', rfl, hle'⟩ := hq.exists_segment hlaid
  rw [occAt_segment hlaid hseg hn hle, occAt_segment hlaid hseg' hm hle'] at hshare ⊢
  constructor
  · rintro ⟨hid, hstart, hstop⟩
    simp only at hid hstart hstop
    rw [hid]
    omega
  · rintro ⟨hstart, hstop⟩
    have hid : seg.id = seg'.id := hshare hstart hstop
    rw [hid] at hstart hstop
    exact ⟨hid, by simp only; omega, by simp only; omega⟩

/-- Different ranges have different occurrences. -/
theorem occAt_inj (hp : FlatRange flat p n) (hq : FlatRange flat q m) :
    occAt flat p n = occAt flat q m ↔ p = q ∧ n = m := by
  constructor
  · intro h
    have hwithin := (within_occAt hlaid hp hq).mp (h ▸ Occurrence.within_refl _)
    have hwithin' := (within_occAt hlaid hq hp).mp (h ▸ Occurrence.within_refl _)
    omega
  · rintro ⟨rfl, rfl⟩
    rfl

omit hlaid in
theorem lt_of_getElem?_take {α : Type*} {l : List α} {x : α} (h : (l.take n)[q]? = some x) :
    q < n ∧ l[q]? = some x := by
  rw [List.getElem?_take] at h
  split at h
  · exact ⟨‹q < n›, h⟩
  · cases h

/-- **The Type I normal forms of an occurrence** are those at the positions of its range. -/
theorem norm1Tuple_occAt (hp : FlatRange flat p n) :
    norm1Tuple flat (occAt flat p n) = formsAt FlatEntry.norm1 flat p n := by
  have hn := hp.pos
  obtain ⟨seg, hseg, i, hbase, hle⟩ := hp.exists_segment hlaid
  have hocc : occAt flat p n = ⟨seg.id, i, i + n - 1⟩ :=
    hbase ▸ occAt_segment hlaid hseg hn hle
  -- what an entry at position `q` contributes
  have hmem : ∀ q entry, entryAt flat q = some entry →
      ((entry.segId = seg.id ∧ i ≤ entry.stmtIdx ∧ entry.stmtIdx ≤ i + n - 1) ↔
        p ≤ q ∧ q < p + n) := by
    intro q entry hq
    obtain ⟨seg', hseg', hid, hidx, rfl⟩ := hlaid.place q entry hq
    constructor
    · rintro ⟨hsame, hfrom, hto⟩
      rw [← hid] at hsame
      rw [hsame, hbase]
      omega
    · rintro ⟨hfrom, hto⟩
      obtain ⟨k, hk⟩ := Nat.exists_eq_add_of_le hfrom
      have hsame : seg'.id = seg.id :=
        hlaid.id_eq hseg' hseg _ (i + k) hidx (by omega) (by omega)
      rw [hsame, hbase] at hfrom hto
      exact ⟨hid ▸ hsame, by omega, by omega⟩
  let contribution : Option FlatEntry → Option Text := fun e => e.bind fun entry =>
    if entry.segId = seg.id ∧ i ≤ entry.stmtIdx ∧ entry.stmtIdx ≤ i + n - 1 then
      some entry.norm1
    else none
  have hall : norm1Tuple flat (occAt flat p n) = flat.filterMap contribution := by
    rw [norm1Tuple, hocc, List.filterMap_filterMap]
    rfl
  have hcontribution : ∀ q e, flat[q]? = some e →
      contribution e = if p ≤ q ∧ q < p + n then e.map FlatEntry.norm1 else none := by
    intro q e hq
    cases e with
    | none => simp [contribution]
    | some entry =>
      have hiff := hmem q entry (by rw [entryAt, hq, Option.join_some])
      by_cases hin : p ≤ q ∧ q < p + n
      · simp [contribution, hiff.mpr hin, hin]
      · rw [if_neg hin]
        simp only [contribution, Option.bind_some, if_neg (mt hiff.mp hin)]
  have hsplit : flat = flat.take p ++ ((flat.drop p).take n ++ flat.drop (p + n)) := by
    rw [← List.drop_drop, List.take_append_drop, List.take_append_drop]
  have hbefore : (flat.take p).filterMap contribution = [] := by
    rw [List.filterMap_eq_nil_iff]
    intro e he
    obtain ⟨q, hq⟩ := List.mem_iff_getElem?.mp he
    obtain ⟨hlt, hq⟩ := lt_of_getElem?_take hq
    rw [hcontribution q e hq, if_neg (by omega)]
  have hbehind : (flat.drop (p + n)).filterMap contribution = [] := by
    rw [List.filterMap_eq_nil_iff]
    intro e he
    obtain ⟨q, hq⟩ := List.mem_iff_getElem?.mp he
    rw [List.getElem?_drop] at hq
    rw [hcontribution _ e hq, if_neg (by omega)]
  have hinside : ((flat.drop p).take n).filterMap contribution
      = ((flat.drop p).take n).filterMap fun e => e.map FlatEntry.norm1 := by
    refine List.filterMap_congr fun e he => ?_
    obtain ⟨q, hq⟩ := List.mem_iff_getElem?.mp he
    obtain ⟨hlt, hq⟩ := lt_of_getElem?_take hq
    rw [List.getElem?_drop] at hq
    rw [hcontribution _ e hq, if_pos (by omega)]
  rw [hall, hsplit, List.filterMap_append, List.filterMap_append, hbefore, hbehind, hinside,
    List.nil_append, List.append_nil, ← hsplit]
  rfl

end Compare

end Csc512
