import Csc512.Cdup.CloneReport
import Mathlib.Data.List.Pairwise

/-!
# The filters of the clone detector

Which classes the maximal filter and the overlap filter let through, as a property of the places of
the classes. The maximal filter compares with what it has kept so far, from the longest class to
the shortest; in effect it keeps the classes with a place that lies in no longer place of any class,
kept or not.

## Main results

* `dropsSubsumed_iff` — when the maximal filter drops subsumed classes only
* `mem_maximalClasses` — what the maximal filter keeps
* `overlapping_iff` — what the overlap filter drops
* `reports_detectClones` — the detector reports exactly the classes that `Reported` describes
-/

namespace Csc512

/-! ### The maximal filter -/

/-- May an occurrence of `d` cover one of `c`? -/
def Eligible (d c : CloneClass) : Prop := d.cloneType = c.cloneType ∨ d.cloneType = .I

theorem Eligible.refl (c : CloneClass) : Eligible c c := Or.inl rfl

theorem Eligible.trans {b c d : CloneClass} (h : Eligible b c) (h' : Eligible c d) :
    Eligible b d := by
  rcases h with h | h
  · rcases h' with h' | h'
    · exact Or.inl (h.trans h')
    · exact Or.inr (h.trans h')
  · exact Or.inr h

/-- The maximal filter keeps what is not covered yet. -/
theorem keepUncovered_eq {kept : List CloneClass} {coveredI coveredII : List Occurrence}
    (hI : ∀ o, o ∈ coveredI ↔ ∃ k ∈ kept, k.cloneType = .I ∧ o ∈ k.occurrences)
    (hII : ∀ o, o ∈ coveredII ↔ ∃ k ∈ kept, k.cloneType = .II ∧ o ∈ k.occurrences)
    (clones : List CloneClass) :
    keepUncovered coveredI coveredII clones
      = keepNew CloneClass.occurrences Occurrence.within Eligible kept clones := by
  induction clones generalizing kept coveredI coveredII with
  | nil => rfl
  | cons clone clones ih =>
    rw [keepUncovered, keepNew]
    cases htype : clone.cloneType with
    | I =>
      have hcovered : (∀ o ∈ clone.occurrences, ∃ p ∈ coveredI, o.within p) ↔
          CoveredBy CloneClass.occurrences Occurrence.within Eligible kept clone := by
        refine forall₂_congr fun o _ => ?_
        simp only [hI, Eligible, htype, or_self]
        constructor
        · rintro ⟨p, ⟨k, hk, hkt, hp⟩, hwithin⟩
          exact ⟨k, hk, hkt, p, hp, hwithin⟩
        · rintro ⟨k, hk, hkt, p, hp, hwithin⟩
          exact ⟨p, ⟨k, hk, hkt, hp⟩, hwithin⟩
      by_cases hin : CoveredBy CloneClass.occurrences Occurrence.within Eligible kept clone
      · refine Eq.trans (if_pos (hcovered.mpr hin)) (Eq.trans ?_ (if_pos hin).symm)
        exact ih hI hII
      · refine Eq.trans (if_neg (mt hcovered.mp hin)) (Eq.trans ?_ (if_neg hin).symm)
        refine congrArg (clone :: ·) (ih (fun o => ?_) fun o => ?_)
        · simp [hI, htype, or_and_right, exists_or]
        · simp [hII, htype, or_and_right, exists_or]
    | II =>
      have hcovered : (∀ o ∈ clone.occurrences, ∃ p ∈ coveredI ++ coveredII, o.within p) ↔
          CoveredBy CloneClass.occurrences Occurrence.within Eligible kept clone := by
        refine forall₂_congr fun o _ => ?_
        simp only [List.mem_append, hI, hII, Eligible, htype]
        constructor
        · rintro ⟨p, ⟨k, hk, hkt, hp⟩ | ⟨k, hk, hkt, hp⟩, hwithin⟩
          · exact ⟨k, hk, Or.inr hkt, p, hp, hwithin⟩
          · exact ⟨k, hk, Or.inl hkt, p, hp, hwithin⟩
        · rintro ⟨k, hk, hkt | hkt, p, hp, hwithin⟩
          · exact ⟨p, Or.inr ⟨k, hk, hkt, hp⟩, hwithin⟩
          · exact ⟨p, Or.inl ⟨k, hk, hkt, hp⟩, hwithin⟩
      by_cases hin : CoveredBy CloneClass.occurrences Occurrence.within Eligible kept clone
      · refine Eq.trans (if_pos (hcovered.mpr hin)) (Eq.trans ?_ (if_pos hin).symm)
        exact ih hI hII
      · refine Eq.trans (if_neg (mt hcovered.mp hin)) (Eq.trans ?_ (if_neg hin).symm)
        refine congrArg (clone :: ·) (ih (fun o => ?_) fun o => ?_)
        · simp [hI, htype, or_and_right, exists_or]
        · simp [hII, htype, or_and_right, exists_or]

theorem nothing_covered (t : CloneType) (o : Occurrence) : o ∈ ([] : List Occurrence) ↔
    ∃ k ∈ ([] : List CloneClass), k.cloneType = t ∧ o ∈ k.occurrences := by
  simp

/-- The class has each of its occurrences in one of an eligible class that comes before it in the
order of length. -/
def Pieced (clones : List CloneClass) (c : CloneClass) : Prop :=
  ∀ before after, clones.insertionSort (fun a b => b.length ≤ a.length) = before ++ c :: after →
    CoveredBy CloneClass.occurrences Occurrence.within Eligible before c

/-- **What the maximal filter drops**: the classes that are covered by the classes before them,
kept or not. -/
theorem mem_maximalClasses_iff_not_pieced (clones : List CloneClass) (c : CloneClass) :
    c ∈ maximalClasses clones ↔ ¬ Pieced clones c := by
  rw [maximalClasses, keepUncovered_eq (nothing_covered .I) (nothing_covered .II),
    mem_keepNew Occurrence.within_refl Occurrence.within_trans Eligible.refl Eligible.trans
      (List.Subset.refl []) (fun d hd => absurd hd List.not_mem_nil)]
  simp only [Pieced, not_forall, List.nil_append, exists_prop]

/-- The occurrences of the class lie in those of one longer class. -/
def SubsumedBy (d c : CloneClass) : Prop :=
  Eligible d c ∧ c.length ≤ d.length ∧ ∀ o ∈ c.occurrences, ∃ p ∈ d.occurrences, o.within p

instance (d c : CloneClass) : Decidable (Eligible d c) := inferInstanceAs (Decidable (_ ∨ _))

instance (d c : CloneClass) : Decidable (SubsumedBy d c) :=
  inferInstanceAs (Decidable (_ ∧ _ ∧ _))

/-- Every class that the maximal filter drops is subsumed by one class that it keeps. A copy of a
class that is kept is subsumed by that class. -/
def DropsSubsumed (clones : List CloneClass) : Prop :=
  ∀ c ∈ clones, c ∉ maximalClasses clones → ∃ d ∈ maximalClasses clones, SubsumedBy d c

theorem maximalClasses_subset {clones : List CloneClass} : maximalClasses clones ⊆ clones := by
  rw [maximalClasses, keepUncovered_eq (nothing_covered .I) (nothing_covered .II)]
  exact fun d hd => (List.mem_insertionSort _).mp ((keepNew_sublist [] _).mem hd)

/-- **The maximal filter drops subsumed classes only** where every class that is covered by the
classes before it has its occurrences in one class that is not. -/
theorem dropsSubsumed_iff (clones : List CloneClass) : DropsSubsumed clones ↔
    ∀ c ∈ clones, Pieced clones c → ∃ d ∈ clones, ¬ Pieced clones d ∧ SubsumedBy d c := by
  constructor
  · intro h c hc hpieced
    obtain ⟨d, hd, hsub⟩ := h c hc fun hkept =>
      (mem_maximalClasses_iff_not_pieced clones c).mp hkept hpieced
    exact ⟨d, maximalClasses_subset hd, (mem_maximalClasses_iff_not_pieced clones d).mp hd, hsub⟩
  · intro h c hc hdropped
    have hpieced : Pieced clones c := by
      by_contra hpieced
      exact hdropped ((mem_maximalClasses_iff_not_pieced clones c).mpr hpieced)
    obtain ⟨d, -, hd, hsub⟩ := h c hc hpieced
    exact ⟨d, (mem_maximalClasses_iff_not_pieced clones d).mpr hd, hsub⟩

/-- Two classes of three statements, and one of two statements with an occurrence in each. -/
def piecedClasses : List CloneClass :=
  let clone (length : ℕ) (occurrences : List Occurrence) : CloneClass :=
    { id := 0, cloneType := .I, length, statements := [], occurrences, normalized := none }
  [clone 3 [⟨1, 0, 2⟩, ⟨2, 0, 2⟩], clone 3 [⟨3, 0, 2⟩, ⟨4, 0, 2⟩],
    clone 2 [⟨1, 0, 1⟩, ⟨3, 0, 1⟩]]

/-- The class of two statements is dropped, and neither of the others has both its occurrences. -/
theorem not_dropsSubsumed : ¬ ∀ clones : List CloneClass, DropsSubsumed clones := by
  intro h
  have hdrop := h piecedClasses
  unfold DropsSubsumed at hdrop
  revert hdrop
  decide

section Filters

instance : Std.Symm Apart := ⟨fun _ _ h htype o ho ho' => h htype.symm o ho' ho⟩

variable {minLength maxFreq : ℤ} {flat : List (Option FlatEntry)} {type2Norm : Bool}
  {segments : List Segment} {base : ℕ → ℕ} (hlaid : Laid segments flat base)
  {clones : List CloneClass}
  (hlisted : Listed minLength maxFreq flat type2Norm clones)

include hlaid hlisted

omit hlaid in
theorem Listed.occurrences_ne {clone : CloneClass} (hclone : clone ∈ clones) :
    clone.occurrences ≠ [] := by
  obtain ⟨u, hshow⟩ := hlisted.shows clone hclone
  obtain ⟨p, hp⟩ := hshow.nonempty
  exact List.ne_nil_of_mem ((hshow.mem _).mpr ⟨p, hp, rfl⟩)

omit hlaid in
/-- Records of one type that share an occurrence are the same. -/
theorem Listed.eq_of_mem {c d : CloneClass} (hc : c ∈ clones) (hd : d ∈ clones)
    (htype : c.cloneType = d.cloneType) {o : Occurrence} (ho : o ∈ c.occurrences)
    (ho' : o ∈ d.occurrences) : c = d := by
  by_contra hne
  exact hlisted.apart.forall hc hd hne htype o ho ho'

/-- The occurrence of a longer class does not lie in one of a shorter class, and of two classes of
the same length the one of Type I comes first: nothing is covered by what comes later. -/
theorem not_within_later :
    (clones.insertionSort fun a b => b.length ≤ a.length).Pairwise fun a b =>
      Eligible b a → ∀ p ∈ a.occurrences, ∀ q ∈ b.occurrences, ¬ p.within q := by
  have hpair : clones.Pairwise fun a b =>
      Apart a b ∧ (a.cloneType = .II → b.cloneType = .II) :=
    hlisted.apart.and hlisted.typed
  have hsorted := pairwise_insertionSort CloneClass.length hpair
  refine hsorted.imp_of_mem fun {a b} ha hb hab heligible o ho q hq hwithin => ?_
  obtain ⟨u, hu⟩ := hlisted.shows a ((List.mem_insertionSort _).mp ha)
  obtain ⟨v, hv⟩ := hlisted.shows b ((List.mem_insertionSort _).mp hb)
  obtain ⟨p, hp, rfl⟩ := (hu.mem o).mp ho
  obtain ⟨p', hp', rfl⟩ := (hv.mem q).mp hq
  have hinside := (within_occAt hlaid (hp.flatRange) (hp'.flatRange)).mp hwithin
  rw [hu.length, hv.length] at hab
  rcases hab with hlt | ⟨hlen, hapart, htyped⟩
  · omega
  · -- the two ranges are the same
    have hstart : p = p' := by omega
    subst hstart
    rcases heligible with htype | htype
    · refine hapart htype.symm _ ho ?_
      rwa [hlen] at hq
    · cases ha' : a.cloneType with
      | I =>
        refine hapart (ha'.trans htype.symm) _ ho ?_
        rwa [hlen] at hq
      | II =>
        rw [htyped ha'] at htype
        cases htype

/-- **What the maximal filter keeps**: the classes with an occurrence that lies in no occurrence of
any other eligible class. -/
theorem mem_maximalClasses {clone : CloneClass} :
    clone ∈ maximalClasses clones ↔ clone ∈ clones ∧ ∃ o ∈ clone.occurrences,
      ∀ d ∈ clones, d ≠ clone → Eligible d clone → ∀ q ∈ d.occurrences, ¬ o.within q := by
  rw [maximalClasses, keepUncovered_eq (nothing_covered .I) (nothing_covered .II),
    mem_keepNew_iff Occurrence.within_refl Occurrence.within_trans Eligible.refl Eligible.trans
      (fun c hc => hlisted.occurrences_ne ((List.mem_insertionSort _).mp hc))
      (not_within_later hlaid hlisted)]
  simp only [List.mem_insertionSort]

omit hlaid hlisted in
variable (minLength maxFreq flat type2Norm) in
/-- The class has a place that lies in no place of any other class that may cover it. -/
def Uncovered (t : CloneType) (u : List Text) : Prop :=
  ∃ p, Place minLength maxFreq flat type2Norm t u p ∧
    ∀ t' v q, t' = t ∨ t' = .I → Place minLength maxFreq flat type2Norm t' v q → q ≤ p →
      p + u.length ≤ q + v.length → t' = t ∧ v = u

/-- The maximal filter keeps the uncovered classes. -/
theorem mem_maximalClasses_iff {clone : CloneClass} (hclone : clone ∈ clones) {u : List Text}
    (hshow : Shows minLength maxFreq flat type2Norm clone u) :
    clone ∈ maximalClasses clones ↔
      Uncovered minLength maxFreq flat type2Norm clone.cloneType u := by
  rw [mem_maximalClasses hlaid hlisted]
  constructor
  · rintro ⟨-, o, ho, hout⟩
    obtain ⟨p, hp, rfl⟩ := (hshow.mem o).mp ho
    refine ⟨p, hp, fun t' v q ht hq hle hle' => ?_⟩
    obtain ⟨d, hd, rfl, hd'⟩ := hlisted.complete t' v q hq
    have hwithin := (within_occAt hlaid (hp.flatRange) (hq.flatRange)).mpr ⟨hle, hle'⟩
    by_cases hdc : d = clone
    · subst hdc
      have hlen : v.length = u.length := hd'.length.symm.trans hshow.length
      obtain rfl : q = p := by omega
      exact ⟨rfl, hq.content_eq hp hlen⟩
    · exact absurd hwithin (hout d hd hdc ht _ ((hd'.mem _).mpr ⟨q, hq, rfl⟩))
  · rintro ⟨p, hp, hout⟩
    refine ⟨hclone, _, (hshow.mem _).mpr ⟨p, hp, rfl⟩, fun d hd hne heligible o ho hwithin => ?_⟩
    obtain ⟨v, hv⟩ := hlisted.shows d hd
    obtain ⟨q, hq, rfl⟩ := (hv.mem o).mp ho
    obtain ⟨hle, hle'⟩ := (within_occAt hlaid (hp.flatRange) (hq.flatRange)).mp hwithin
    obtain ⟨htype, rfl⟩ := hout d.cloneType v q heligible hq hle hle'
    -- the two records share an occurrence
    refine hne (hlisted.eq_of_mem hd hclone htype ho ((hshow.mem _).mpr ⟨q, ?_, rfl⟩))
    rwa [htype] at hq

/-! ### The overlap filter -/

omit hlaid hlisted in
theorem hasOverlap_iff {occs : List Occurrence} (hnodup : occs.Nodup) :
    hasOverlap occs = true ↔ ∃ o ∈ occs, ∃ p ∈ occs, o ≠ p ∧ o.rangesOverlap p := by
  induction occs with
  | nil => simp [hasOverlap]
  | cons o occs ih =>
    obtain ⟨hnew, hnodup⟩ := List.nodup_cons.mp hnodup
    have hne : ∀ p ∈ occs, o ≠ p := fun p hp heq => hnew (heq ▸ hp)
    rw [hasOverlap, Bool.or_eq_true, ih hnodup, List.any_eq_true]
    constructor
    · rintro (⟨p, hp, hover⟩ | ⟨p, hp, q, hq, hpq, hover⟩)
      · exact ⟨o, List.mem_cons_self, p, List.mem_cons_of_mem _ hp, hne p hp,
          of_decide_eq_true hover⟩
      · exact ⟨p, List.mem_cons_of_mem _ hp, q, List.mem_cons_of_mem _ hq, hpq, hover⟩
    · rintro ⟨p, hp, q, hq, hpq, hover⟩
      rcases List.mem_cons.mp hp with rfl | hp'
      · rcases List.mem_cons.mp hq with rfl | hq'
        · exact absurd rfl hpq
        · exact Or.inl ⟨q, hq', decide_eq_true hover⟩
      · rcases List.mem_cons.mp hq with rfl | hq'
        · exact Or.inl ⟨p, hp', decide_eq_true hover.symm⟩
        · exact Or.inr ⟨p, hp', q, hq', hpq, hover⟩

omit hlaid hlisted in
/-- The occurrences have one segment id between them if they all have the same. -/
theorem dedup_length_eq_one_iff {occs : List Occurrence} (hne : occs ≠ []) :
    ((occs.map Occurrence.segId).dedup.length == 1) = true ↔
      ∀ o ∈ occs, ∀ p ∈ occs, o.segId = p.segId := by
  rw [beq_iff_eq, List.length_eq_one_iff]
  constructor
  · rintro ⟨id, hid⟩ o ho p hp
    have hall : ∀ o ∈ occs, o.segId = id := by
      intro o ho
      have hmem := List.mem_dedup.mpr (List.mem_map_of_mem (f := Occurrence.segId) ho)
      rw [hid] at hmem
      exact List.mem_singleton.mp hmem
    rw [hall o ho, hall p hp]
  · intro hall
    obtain ⟨o, ho⟩ := List.exists_mem_of_ne_nil occs hne
    refine ⟨o.segId, List.perm_singleton.mp ?_⟩
    refine (List.perm_ext_iff_of_nodup (List.nodup_dedup _) (List.nodup_singleton _)).mpr ?_
    intro id
    rw [List.mem_dedup, List.mem_map, List.mem_singleton]
    constructor
    · rintro ⟨p, hp, rfl⟩
      exact hall p hp o ho
    · rintro rfl
      exact ⟨o, ho, rfl⟩

omit hlaid hlisted in
variable (minLength maxFreq flat type2Norm) in
/-- The places of the class lie in one segment, and two of them overlap. -/
def SelfOverlapping (t : CloneType) (u : List Text) : Prop :=
  (∀ p q, Place minLength maxFreq flat type2Norm t u p →
    Place minLength maxFreq flat type2Norm t u q →
    (occAt flat p u.length).segId = (occAt flat q u.length).segId) ∧
  ∃ p q, Place minLength maxFreq flat type2Norm t u p ∧
    Place minLength maxFreq flat type2Norm t u q ∧ p < q ∧ q < p + u.length

omit hlisted in
/-- **The overlap filter** drops the classes that overlap themselves. -/
theorem overlapping_iff {clone : CloneClass} {u : List Text}
    (hshow : Shows minLength maxFreq flat type2Norm clone u) :
    overlapping clone = true ↔
      SelfOverlapping minLength maxFreq flat type2Norm clone.cloneType u := by
  obtain ⟨p₀, hp₀⟩ := hshow.nonempty
  have hne : clone.occurrences ≠ [] := List.ne_nil_of_mem ((hshow.mem _).mpr ⟨p₀, hp₀, rfl⟩)
  rw [overlapping, Bool.and_eq_true, dedup_length_eq_one_iff hne, hasOverlap_iff hshow.nodup]
  constructor
  · rintro ⟨hsame, o, ho, o', ho', hne, hover⟩
    refine ⟨fun p q hp hq => hsame _ ((hshow.mem _).mpr ⟨p, hp, rfl⟩) _
      ((hshow.mem _).mpr ⟨q, hq, rfl⟩), ?_⟩
    have hid := hsame o ho o' ho'
    obtain ⟨p, hp, rfl⟩ := (hshow.mem o).mp ho
    obtain ⟨q, hq, rfl⟩ := (hshow.mem o').mp ho'
    have hshare := (overlaps_occAt hlaid (hp.flatRange) (hq.flatRange)).mp ⟨hid, hover⟩
    rcases Nat.lt_trichotomy p q with hlt | rfl | hgt
    · exact ⟨p, q, hp, hq, hlt, hshare.2⟩
    · exact absurd rfl hne
    · exact ⟨q, p, hq, hp, hgt, hshare.1⟩
  · rintro ⟨hsame, p, q, hp, hq, hlt, hlt'⟩
    have hrange := hp.flatRange
    have hrange' := hq.flatRange
    have hover := (overlaps_occAt hlaid hrange hrange').mpr ⟨by omega, hlt'⟩
    refine ⟨fun o ho o' ho' => ?_, _, (hshow.mem _).mpr ⟨p, hp, rfl⟩, _,
      (hshow.mem _).mpr ⟨q, hq, rfl⟩, fun heq => ?_, hover.2⟩
    · obtain ⟨r, hr, rfl⟩ := (hshow.mem o).mp ho
      obtain ⟨r', hr', rfl⟩ := (hshow.mem o').mp ho'
      exact hsame r r' hr hr'
    · exact hlt.ne ((occAt_inj hlaid hrange hrange').mp heq).1

/-! ### The output -/

omit hlaid hlisted in
/-- Numbering changes nothing about pairs of classes but their numbers. -/
theorem pairwise_renumber {R : CloneClass → CloneClass → Prop}
    (hR : ∀ a b : CloneClass, ∀ i j, R a b → R { a with id := i } { b with id := j })
    {clones : List CloneClass} (h : clones.Pairwise R) : (renumber clones).Pairwise R := by
  have hpair : ((clones.zipIdx 1).map Prod.fst).Pairwise R := by
    rwa [List.zipIdx_map_fst]
  have hpair : (clones.zipIdx 1).Pairwise fun e e' => R e.1 e'.1 := List.pairwise_map.mp hpair
  exact List.pairwise_map.mpr (hpair.imp fun hR' => hR _ _ _ _ hR')

omit hlaid hlisted in
theorem pairwise_of_renumber {R : CloneClass → CloneClass → Prop}
    (hR : ∀ a b : CloneClass, ∀ i j, R { a with id := i } { b with id := j } → R a b)
    {clones : List CloneClass} (h : (renumber clones).Pairwise R) : clones.Pairwise R := by
  have hpair : (clones.zipIdx 1).Pairwise fun e e' => R e.1 e'.1 :=
    (List.pairwise_map.mp h).imp fun hR' => hR _ _ _ _ hR'
  rw [← List.zipIdx_map_fst 1 clones]
  exact List.pairwise_map.mpr hpair

omit hlaid hlisted in
variable (minLength maxFreq flat type2Norm) in
/-- Does the detector report the class of the type `t` with the content `u`? -/
structure Reported (maximal filterOverlaps : Bool) (t : CloneType) (u : List Text) : Prop where
  nonempty : ∃ p, Place minLength maxFreq flat type2Norm t u p
  uncovered : maximal → Uncovered minLength maxFreq flat type2Norm t u
  notOverlapping : filterOverlaps → ¬ SelfOverlapping minLength maxFreq flat type2Norm t u

omit hlaid hlisted in
variable (minLength maxFreq flat type2Norm) in
/-- The output shows the reported classes, each once. -/
structure Reports (maximal filterOverlaps : Bool) (result : List CloneClass) : Prop where
  shows : ∀ clone ∈ result, ∃ u, Shows minLength maxFreq flat type2Norm clone u ∧
    Reported minLength maxFreq flat type2Norm maximal filterOverlaps clone.cloneType u
  complete : ∀ t u, Reported minLength maxFreq flat type2Norm maximal filterOverlaps t u →
    ∃ clone ∈ result, clone.cloneType = t ∧ Shows minLength maxFreq flat type2Norm clone u
  apart : result.Pairwise Apart

omit hlaid hlisted in
/-- The numbers of the classes do not matter. -/
theorem Reports.renumber {maximal filterOverlaps : Bool} {result : List CloneClass}
    (h : Reports minLength maxFreq flat type2Norm maximal filterOverlaps result) :
    Reports minLength maxFreq flat type2Norm maximal filterOverlaps (renumber result) := by
  have hmem : ∀ clone, clone ∈ Csc512.renumber result ↔
      ∃ e ∈ result.zipIdx 1, { e.1 with id := e.2 } = clone := by
    intro clone
    rw [Csc512.renumber, List.mem_map]
  refine ⟨fun clone hclone => ?_, fun t u hreported => ?_, ?_⟩
  · obtain ⟨e, he, rfl⟩ := (hmem clone).mp hclone
    obtain ⟨u, hshow, hreported⟩ := h.shows e.1 (List.fst_mem_of_mem_zipIdx he)
    exact ⟨u, ⟨hshow.length, hshow.mem, hshow.nodup, hshow.nonempty⟩, hreported⟩
  · obtain ⟨clone, hclone, htype, hshow⟩ := h.complete t u hreported
    rw [← List.zipIdx_map_fst 1 result] at hclone
    obtain ⟨e, he, rfl⟩ := List.mem_map.mp hclone
    exact ⟨_, (hmem _).mpr ⟨e, he, rfl⟩, htype,
      hshow.length, hshow.mem, hshow.nodup, hshow.nonempty⟩
  · exact pairwise_renumber (fun a b i j hab => hab) h.apart

omit hlaid in
/-- The list of the classes is the output without filters. -/
theorem Listed.reports : Reports minLength maxFreq flat type2Norm false false clones where
  shows clone hclone := by
    obtain ⟨u, hshow⟩ := hlisted.shows clone hclone
    exact ⟨u, hshow, hshow.nonempty, by simp, by simp⟩
  complete t u hreported := by
    obtain ⟨p, hp⟩ := hreported.nonempty
    exact hlisted.complete t u p hp
  apart := hlisted.apart

/-- The output of the maximal filter. -/
theorem reports_maximalClasses :
    Reports minLength maxFreq flat type2Norm true false (maximalClasses clones) where
  shows clone hclone := by
    have hin := ((mem_maximalClasses hlaid hlisted).mp hclone).1
    obtain ⟨u, hshow⟩ := hlisted.shows clone hin
    exact ⟨u, hshow, hshow.nonempty,
      fun _ => (mem_maximalClasses_iff hlaid hlisted hin hshow).mp hclone, by simp⟩
  complete t u hreported := by
    obtain ⟨p, hp⟩ := hreported.nonempty
    obtain ⟨clone, hclone, rfl, hshow⟩ := hlisted.complete t u p hp
    exact ⟨clone, (mem_maximalClasses_iff hlaid hlisted hclone hshow).mpr
      (hreported.uncovered rfl), rfl, hshow⟩
  apart := by
    have hsorted : (clones.insertionSort fun a b => b.length ≤ a.length).Pairwise Apart :=
      (List.perm_insertionSort _ clones).symm.pairwise hlisted.apart fun h => symm h
    rw [maximalClasses, keepUncovered_eq (nothing_covered .I) (nothing_covered .II)]
    exact hsorted.sublist (keepNew_sublist [] _)

omit hlisted in
/-- The overlap filter on the output of the maximal filter. -/
theorem Reports.filter {maximal : Bool} {result : List CloneClass}
    (h : Reports minLength maxFreq flat type2Norm maximal false result) :
    Reports minLength maxFreq flat type2Norm maximal true
      (result.filter fun clone => ¬ overlapping clone) where
  shows clone hclone := by
    obtain ⟨hin, hover⟩ := List.mem_filter.mp hclone
    obtain ⟨u, hshow, hreported⟩ := h.shows clone hin
    refine ⟨u, hshow, hreported.nonempty, hreported.uncovered, fun _ hself => ?_⟩
    simp [(overlapping_iff hlaid hshow).mpr hself] at hover
  complete t u hreported := by
    obtain ⟨clone, hclone, rfl, hshow⟩ :=
      h.complete t u ⟨hreported.nonempty, hreported.uncovered, by simp⟩
    refine ⟨clone, List.mem_filter.mpr ⟨hclone, ?_⟩, rfl, hshow⟩
    have hover : ¬ overlapping clone = true :=
      fun hover => hreported.notOverlapping rfl ((overlapping_iff hlaid hshow).mp hover)
    simpa using hover
  apart := h.apart.filter _

end Filters

/-- **The detector reports exactly the reported classes**, for every representation without cycles
whose segments have different ids. -/
theorem reports_detectClones (U : CharTable) (sha256 : Text → Text) (order : SetOrder Occurrence)
    {segments : List Segment} (hnodup : (segments.map Segment.id).Nodup)
    (hacyclic : Acyclic segments) (type2Norm maximal : Bool) (minLength maxFreq : ℤ)
    (filterOverlaps : Bool) :
    ∃ flat base result, flatten U sha256 type2Norm segments = some flat ∧
      Laid segments flat base ∧
      detectClones U sha256 order segments type2Norm maximal minLength maxFreq filterOverlaps
        = some result ∧
      Reports minLength maxFreq flat type2Norm maximal filterOverlaps result := by
  obtain ⟨T, htypes, -, hhashes⟩ := blockTypesFrom_isSome U sha256 type2Norm
    (List.Subset.refl segments) hacyclic BlockTypes.empty
  obtain ⟨flat, hflat⟩ := Option.isSome_iff_exists.mp
    (flatSegments_isSome U type2Norm hhashes segments)
  obtain ⟨base, hlaid⟩ := exists_laid hnodup hflat
  obtain ⟨clones, hclones, hlisted⟩ :=
    listed_unfilteredClasses maxFreq hlaid order hnodup htypes hhashes hflat
  have hresult : detectClones U sha256 order segments type2Norm maximal minLength maxFreq
      filterOverlaps = some (if filterOverlaps then
        renumber ((if maximal then renumber (maximalClasses clones) else clones).filter
          fun clone => ¬ overlapping clone)
        else if maximal then renumber (maximalClasses clones) else clones) := by
    rw [detectClones, hclones]
    rfl
  refine ⟨flat, base, _, by simp [flatten, blockTypes, htypes, hflat], hlaid, hresult, ?_⟩
  have hmaximal : Reports minLength maxFreq flat type2Norm maximal false
      (if maximal then renumber (maximalClasses clones) else clones) := by
    cases maximal with
    | false => exact hlisted.reports
    | true => exact (reports_maximalClasses hlaid hlisted).renumber
  cases filterOverlaps with
  | false => exact hmaximal
  | true => exact (hmaximal.filter hlaid).renumber

end Csc512
