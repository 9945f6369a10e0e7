import Csc512.Cdup.CloneFilters

/-!
# Duplication that the filters hide

Two disjoint statement ranges with the same normal forms are duplicated code. The filters of the
clone detector can hide them. The maximal filter drops a class when each of its occurrences lies in
one of a longer class, but these may be different classes that do not pair the ranges with each
other; and the overlap filter may drop a class afterwards that has made the maximal filter drop
others.

## Main results

* `shows_duplicates_iff` — when every duplication is overlapped by a reported class
* `not_showsDuplicates_repeated` — four equal statements in a row, of which nothing is reported
-/

namespace Csc512

/-- The number of the statements of a range. -/
def Occurrence.size (o : Occurrence) : ℕ := o.endStmt + 1 - o.startStmt

/-- A range of statements inside one segment. -/
def RangeIn (segments : List Segment) (o : Occurrence) : Prop :=
  o.startStmt ≤ o.endStmt ∧ ∃ seg ∈ segments, seg.id = o.segId ∧ o.endStmt < seg.stmts.length

/-- The normal form of a statement, by its segment and its number there. -/
def normOf (flat : List (Option FlatEntry)) (segId idx : ℕ) : Option Text :=
  ((flat.filterMap id).find? fun entry => entry.segId = segId ∧ entry.stmtIdx = idx).map
    FlatEntry.norm

/-- Two disjoint ranges of statements, each inside one segment, with equal normal forms statement by
statement. -/
structure Duplicate (segments : List Segment) (flat : List (Option FlatEntry))
    (o p : Occurrence) : Prop where
  left : RangeIn segments o
  right : RangeIn segments p
  disjoint : ¬ o.overlaps p
  size : o.size = p.size
  same : ∀ k < o.size, normOf flat o.segId (o.startStmt + k) = normOf flat p.segId (p.startStmt + k)

/-- Every duplication of at least the minimal length is overlapped by two occurrences of a reported
class, one for each range. -/
def ShowsDuplicates (segments : List Segment) (flat : List (Option FlatEntry)) (minLength : ℤ)
    (result : List CloneClass) : Prop :=
  ∀ o p, Duplicate segments flat o p → minLength ≤ o.size →
    ∃ clone ∈ result, ∃ o' ∈ clone.occurrences, ∃ p' ∈ clone.occurrences,
      o' ≠ p' ∧ o'.overlaps o ∧ p'.overlaps p

/-- Every duplication of exactly the minimal length is overlapped by two places of a class that is
not covered by others and does not overlap itself. -/
def HitByUnfiltered (segments : List Segment) (flat : List (Option FlatEntry)) (type2Norm : Bool)
    (minLength maxFreq : ℤ) : Prop :=
  ∀ o p, Duplicate segments flat o p → (o.size : ℤ) = minLength →
    ∃ t u a b, Place minLength maxFreq flat type2Norm t u a ∧
      Place minLength maxFreq flat type2Norm t u b ∧ a ≠ b ∧
      Uncovered minLength maxFreq flat type2Norm t u ∧
      ¬ SelfOverlapping minLength maxFreq flat type2Norm t u ∧
      (occAt flat a u.length).overlaps o ∧ (occAt flat b u.length).overlaps p

theorem Occurrence.overlaps_mono {o p p' : Occurrence} (hseg : p.segId = p'.segId)
    (hstart : p'.startStmt ≤ p.startStmt) (hend : p.endStmt ≤ p'.endStmt) (h : o.overlaps p) :
    o.overlaps p' :=
  ⟨h.1.trans hseg, h.2.1.trans hend, hstart.trans h.2.2⟩

/-- The first `n` statements of a range. -/
def Occurrence.first (o : Occurrence) (n : ℕ) : Occurrence :=
  { o with endStmt := o.startStmt + n - 1 }

variable {segments : List Segment} {flat : List (Option FlatEntry)}

theorem Occurrence.size_first (o : Occurrence) {n : ℕ} (hn : 0 < n) : (o.first n).size = n := by
  show o.startStmt + n - 1 + 1 - o.startStmt = n
  omega

theorem RangeIn.first {o : Occurrence} (h : RangeIn segments o) {n : ℕ} (hn : 0 < n)
    (hle : n ≤ o.size) : RangeIn segments (o.first n) ∧ (o.first n).endStmt ≤ o.endStmt := by
  obtain ⟨hord, seg, hseg, hid, hend⟩ := h
  have hsize : o.size = o.endStmt + 1 - o.startStmt := rfl
  have hinside : o.startStmt + n - 1 ≤ o.endStmt := by omega
  refine ⟨⟨?_, seg, hseg, hid, lt_of_le_of_lt hinside hend⟩, hinside⟩
  show o.startStmt ≤ o.startStmt + n - 1
  omega

/-- The first statements of duplicated ranges are duplicated. -/
theorem Duplicate.first {o p : Occurrence} (h : Duplicate segments flat o p) {n : ℕ} (hn : 0 < n)
    (hle : n ≤ o.size) : Duplicate segments flat (o.first n) (p.first n) := by
  obtain ⟨hleft, hlend⟩ := h.left.first hn hle
  obtain ⟨hright, hrend⟩ := h.right.first hn (h.size ▸ hle)
  refine ⟨hleft, hright, fun hover => h.disjoint ?_, ?_, fun k hk => ?_⟩
  · exact ⟨hover.1, hover.2.1.trans hrend, hover.2.2.trans hlend⟩
  · rw [Occurrence.size_first o hn, Occurrence.size_first p hn]
  · rw [Occurrence.size_first o hn] at hk
    exact h.same k (by omega)

variable (U : CharTable) (sha256 : Text → Text) (order : SetOrder Occurrence)

/-- **When nothing is hidden.** With its two filters, the detector shows every duplication of at
least the minimal length exactly if every duplication of exactly the minimal length is overlapped by
two places of a class that the filters leave alone. -/
theorem shows_duplicates_iff (segments : List Segment) (hnodup : (segments.map Segment.id).Nodup)
    (hacyclic : Acyclic segments) (type2Norm : Bool) (minLength : ℤ) (hmin : 1 ≤ minLength) :
    ∃ flat result, flatten U sha256 type2Norm segments = some flat ∧
      detectClones U sha256 order segments type2Norm true minLength 0 true = some result ∧
      (ShowsDuplicates segments flat minLength result ↔
        HitByUnfiltered segments flat type2Norm minLength 0) := by
  obtain ⟨flat, base, result, hflat, hlaid, hresult, hreports⟩ :=
    reports_detectClones U sha256 order hnodup hacyclic type2Norm true minLength 0 true
  refine ⟨flat, result, hflat, hresult, fun h o p hdup hsize => ?_, fun h o p hdup hsize => ?_⟩
  · obtain ⟨clone, hclone, o', ho', p', hp', hne, hover, hover'⟩ := h o p hdup hsize.ge
    obtain ⟨u, hshow, hreported⟩ := hreports.shows clone hclone
    obtain ⟨a, ha, rfl⟩ := (hshow.mem o').mp ho'
    obtain ⟨b, hb, rfl⟩ := (hshow.mem p').mp hp'
    exact ⟨clone.cloneType, u, a, b, ha, hb, fun hab => hne (by rw [hab]),
      hreported.uncovered rfl, hreported.notOverlapping rfl, hover, hover'⟩
  · -- the first statements of the two ranges, as many as the minimal length
    obtain ⟨n, rfl⟩ : ∃ n : ℕ, minLength = n := ⟨minLength.toNat, by omega⟩
    have hn : 0 < n := by omega
    have hle : n ≤ o.size := by omega
    have hle' : n ≤ p.size := hdup.size ▸ hle
    obtain ⟨t, u, a, b, ha, hb, hne, huncovered, hself, hover, hover'⟩ :=
      h (o.first n) (p.first n) (hdup.first hn hle) (by rw [o.size_first hn])
    obtain ⟨clone, hclone, rfl, hshow⟩ :=
      hreports.complete t u ⟨⟨a, ha⟩, fun _ => huncovered, fun _ => hself⟩
    refine ⟨clone, hclone, _, (hshow.mem _).mpr ⟨a, ha, rfl⟩, _, (hshow.mem _).mpr ⟨b, hb, rfl⟩,
      fun heq => ?_, ?_, ?_⟩
    · exact hne ((occAt_inj hlaid (ha.flatRange) (hb.flatRange)).mp heq).1
    · exact Occurrence.overlaps_mono (p := o.first n) rfl le_rfl (hdup.left.first hn hle).2 hover
    · exact Occurrence.overlaps_mono (p := p.first n) rfl le_rfl (hdup.right.first hn hle').2 hover'

theorem acyclic_twinFunctions : Acyclic twinFunctions := by
  refine ⟨fun id => 1 - id, ?_⟩
  decide +kernel

theorem shows_duplicates_iff_twinFunctions :
    ∃ flat result, flatten .ascii id false twinFunctions = some flat ∧
      detectClones .ascii id (.inserted _) twinFunctions false true 2 0 true = some result ∧
      (ShowsDuplicates twinFunctions flat 2 result ↔
        HitByUnfiltered twinFunctions flat false 2 0) :=
  shows_duplicates_iff .ascii id (.inserted _) twinFunctions (by decide +kernel)
    acyclic_twinFunctions false 2 (by decide)

/-- A function with the same statement four times in a row. -/
def repeatedStatement : List Segment :=
  let stmt := fun s : String => ({ raw := lit s, kind := .expr } : Statement)
  [{ id := 0, parent := 0, type := .root, name := lit "root", scopePath := lit "root", head := none,
     stmts := [stmt "void f() {}"] },
   { id := 1, parent := 0, type := .function, name := lit "f", scopePath := lit "root.f",
     head := some (lit "void f() {}"),
     stmts := [stmt "x = 1;", stmt "x = 1;", stmt "x = 1;", stmt "x = 1;"] }]

theorem acyclic_repeatedStatement : Acyclic repeatedStatement := by
  refine ⟨fun id => 1 - id, ?_⟩
  decide +kernel

theorem detectClones_repeatedStatement :
    detectClones .ascii id (.inserted _) repeatedStatement false true 2 0 true = some [] := by
  decide +kernel

/-- **Duplication that the filters hide.** The first two and the last two of four equal statements
are dropped because they lie in the first three and the last three, and these are dropped because
they overlap. -/
theorem not_showsDuplicates_repeated :
    ¬ ∀ (segments : List Segment) (minLength : ℤ), (segments.map Segment.id).Nodup →
      Acyclic segments → 1 ≤ minLength → ∀ flat result,
      flatten .ascii id false segments = some flat →
      detectClones .ascii id (.inserted _) segments false true minLength 0 true = some result →
      ShowsDuplicates segments flat minLength result := by
  intro h
  have hflat : flatten .ascii id false repeatedStatement
      = some ((flatten .ascii id false repeatedStatement).getD []) := by decide +kernel
  have hshows := h repeatedStatement 2 (by decide +kernel) acyclic_repeatedStatement (by decide) _ _
    hflat detectClones_repeatedStatement
  have hdup : Duplicate repeatedStatement ((flatten .ascii id false repeatedStatement).getD [])
      ⟨1, 0, 1⟩ ⟨1, 2, 3⟩ := by
    refine ⟨⟨by decide, ?_⟩, ⟨by decide, ?_⟩, by decide, by decide, by decide +kernel⟩
    · exact ⟨_, List.mem_cons_of_mem _ List.mem_cons_self, rfl, by decide⟩
    · exact ⟨_, List.mem_cons_of_mem _ List.mem_cons_self, rfl, by decide⟩
  obtain ⟨clone, hclone, -⟩ := hshows _ _ hdup (by decide)
  cases hclone

end Csc512
