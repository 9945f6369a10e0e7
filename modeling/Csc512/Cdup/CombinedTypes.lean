import Csc512.Cdup.HiddenDuplication

/-!
# The combined output of both modes

For the types 1 and 2 the command runs the detector twice. The Type II run has Type I classes of its
own, made from the places of its Type II classes, and the filters of one run do not see the classes
of the other; the command only drops a class of the Type II run that has the same occurrences as a
class of the Type I run. So the combined output has nothing redundant exactly if Type I classes of
the two runs that lie in one another are the same.

## Main results

* `Reports.pairwise_incomparable` — within one run no class lies in another of its type
* `incomparable_cmdDetect_iff` — when the combined output has nothing redundant
* `not_incomparable_shiftedCalls` — three calls of which the two runs see different pairs
-/

namespace Csc512

/-- Every occurrence of `a` lies in one of `b`. -/
def LiesIn (a b : CloneClass) : Prop := ∀ o ∈ a.occurrences, ∃ p ∈ b.occurrences, o.within p

/-- Two classes of one type do not lie in one another, and have different sets of occurrences. -/
def Incomparable (a b : CloneClass) : Prop :=
  a.cloneType = b.cloneType → ¬ LiesIn a b ∧ ¬ LiesIn b a ∧ fingerprint a ≠ fingerprint b

instance : Std.Symm Incomparable :=
  ⟨fun _ _ h htype => ⟨(h htype.symm).2.1, (h htype.symm).1, (h htype.symm).2.2.symm⟩⟩

instance : DecidableRel LiesIn :=
  fun a b => inferInstanceAs (Decidable (∀ o ∈ a.occurrences, ∃ p ∈ b.occurrences, o.within p))

instance : DecidableRel Incomparable := fun _ _ => inferInstanceAs (Decidable (_ → _))

theorem fingerprint_eq_iff {a b : CloneClass} :
    fingerprint a = fingerprint b ↔ ∀ o, o ∈ a.occurrences ↔ o ∈ b.occurrences := by
  simp [fingerprint, Finset.ext_iff]

theorem liesIn_of_fingerprint_eq {a b : CloneClass} (h : fingerprint a = fingerprint b) :
    LiesIn a b :=
  fun o ho => ⟨o, (fingerprint_eq_iff.mp h o).mp ho, o.within_refl⟩

theorem incomparable_iff {a b : CloneClass} :
    Incomparable a b ↔ (a.cloneType = b.cloneType → ¬ LiesIn a b ∧ ¬ LiesIn b a) :=
  forall_congr' fun _ => ⟨fun h => ⟨h.1, h.2.1⟩, fun h => ⟨h.1, h.2,
    fun heq => h.1 (liesIn_of_fingerprint_eq heq)⟩⟩

section Runs

variable {minLength maxFreq : ℤ} {flat : List (Option FlatEntry)} {type2Norm : Bool}
  {segments : List Segment} {base : ℕ → ℕ}

/-- **Within one run** no class lies in another class of its type. -/
theorem Reports.pairwise_incomparable (hlaid : Laid segments flat base)
    {filterOverlaps : Bool} {result : List CloneClass}
    (h : Reports minLength maxFreq flat type2Norm true filterOverlaps result) :
    result.Pairwise Incomparable := by
  have hnot : ∀ a ∈ result, ∀ b ∈ result, Apart a b → a.cloneType = b.cloneType →
      ¬ LiesIn a b := by
    intro a ha b hb hapart htype hlies
    obtain ⟨u, hu, hreported⟩ := h.shows a ha
    obtain ⟨v, hv, -⟩ := h.shows b hb
    obtain ⟨p, hp, hout⟩ := hreported.uncovered rfl
    have hmem := (hu.mem _).mpr ⟨p, hp, rfl⟩
    obtain ⟨o, ho, hwithin⟩ := hlies _ hmem
    obtain ⟨q, hq, rfl⟩ := (hv.mem o).mp ho
    obtain ⟨hle, hle'⟩ := (within_occAt hlaid (hp.flatRange) (hq.flatRange)).mp hwithin
    obtain ⟨-, rfl⟩ := hout b.cloneType v q (Or.inl htype.symm) hq hle hle'
    -- both classes have the place `p`
    refine hapart htype _ hmem ((hv.mem _).mpr ⟨p, ?_, rfl⟩)
    rwa [htype] at hp
  refine h.apart.imp_of_mem fun {a b} ha hb hab => incomparable_iff.mpr fun htype => ?_
  exact ⟨hnot a ha b hb hab htype, hnot b hb a ha (symm hab) htype.symm⟩

/-- The Type I run has classes of Type I only. -/
theorem Reports.cloneType_eq {maximal filterOverlaps : Bool} {result : List CloneClass}
    (h : Reports minLength maxFreq flat false maximal filterOverlaps result) {clone : CloneClass}
    (hclone : clone ∈ result) : clone.cloneType = .I := by
  obtain ⟨u, hshow, -⟩ := h.shows clone hclone
  obtain ⟨p, hp⟩ := hshow.nonempty
  cases htype : clone.cloneType with
  | I => rfl
  | II =>
    rw [htype] at hp
    exact absurd hp.1 Bool.false_ne_true

end Runs

/-! ### Both runs -/

/-- The occurrences of the Type I class with the content `u` in one of the two runs. -/
def occurrencesOf (minLength maxFreq : ℤ) (type2Norm : Bool) (flat : List (Option FlatEntry))
    (u : List Text) : Set Occurrence :=
  {o | ∃ p, Place minLength maxFreq flat type2Norm .I u p ∧ o = occAt flat p u.length}

/-- Type I classes of the two runs that the filters leave alone are the same if one of them lies in
the other. -/
def RunsAgree (minLength maxFreq : ℤ) (flat₁ flat₂ : List (Option FlatEntry))
    (filterOverlaps : Bool) : Prop :=
  ∀ u v, Reported minLength maxFreq flat₁ false true filterOverlaps .I u →
    Reported minLength maxFreq flat₂ true true filterOverlaps .I v →
    (∀ o ∈ occurrencesOf minLength maxFreq false flat₁ u,
        ∃ p ∈ occurrencesOf minLength maxFreq true flat₂ v, o.within p) ∨
      (∀ p ∈ occurrencesOf minLength maxFreq true flat₂ v,
        ∃ o ∈ occurrencesOf minLength maxFreq false flat₁ u, p.within o) →
    occurrencesOf minLength maxFreq false flat₁ u = occurrencesOf minLength maxFreq true flat₂ v

theorem combineResults_eq (results : ℕ → List CloneClass) :
    combineResults [1, 2] results
      = renumber (results 1 ++
        (results 2).filter fun clone => fingerprint clone ∉ (results 1).map fingerprint) := by
  have hsorted : [1, 2].insertionSort (· ≤ ·) = [1, 2] := by decide
  simp [combineResults, hsorted]

theorem Shows.mem_occurrencesOf {minLength maxFreq : ℤ} {flat : List (Option FlatEntry)}
    {type2Norm : Bool} {clone : CloneClass} {u : List Text}
    (h : Shows minLength maxFreq flat type2Norm clone u) (htype : clone.cloneType = .I)
    (o : Occurrence) :
    o ∈ occurrencesOf minLength maxFreq type2Norm flat u ↔ o ∈ clone.occurrences := by
  rw [h.mem, htype]
  rfl

variable (U : CharTable) (sha256 : Text → Text) (order : SetOrder Occurrence)

/-- **When the combined output has nothing redundant.** No class of the output lies in another one
of its type, and no two of one type have the same occurrences, exactly if Type I classes of the two
runs that lie in one another are the same. -/
theorem incomparable_cmdDetect_iff (segments : List Segment)
    (hnodup : (segments.map Segment.id).Nodup) (hacyclic : Acyclic segments)
    (minLength maxFreq : ℤ) (filterOverlaps : Bool) :
    ∃ flat₁ flat₂ result, flatten U sha256 false segments = some flat₁ ∧
      flatten U sha256 true segments = some flat₂ ∧
      cmdDetect U sha256 order segments true minLength maxFreq filterOverlaps = some result ∧
      (result.Pairwise Incomparable ↔ RunsAgree minLength maxFreq flat₁ flat₂ filterOverlaps) := by
  obtain ⟨flat₁, base₁, result₁, hflat₁, hlaid₁, hresult₁, hreports₁⟩ :=
    reports_detectClones U sha256 order hnodup hacyclic false true minLength maxFreq filterOverlaps
  obtain ⟨flat₂, base₂, result₂, hflat₂, hlaid₂, hresult₂, hreports₂⟩ :=
    reports_detectClones U sha256 order hnodup hacyclic true true minLength maxFreq filterOverlaps
  refine ⟨flat₁, flat₂, _, hflat₁, hflat₂, by
    rw [cmdDetect, hresult₁, hresult₂]
    rfl, ?_⟩
  rw [combineResults_eq]
  simp only [if_true, show ¬ (2 : ℕ) = 1 by decide, if_false]
  have hid : ∀ a b : CloneClass, ∀ i j,
      Incomparable { a with id := i } { b with id := j } ↔ Incomparable a b :=
    fun _ _ _ _ => Iff.rfl
  constructor
  · intro hpair u v hu hv hlies
    replace hpair := pairwise_of_renumber (fun a b i j => (hid a b i j).mp) hpair
    obtain ⟨hpair₁, -, hcross⟩ := List.pairwise_append.mp hpair
    obtain ⟨a, ha, hta, hshowa⟩ := hreports₁.complete .I u hu
    obtain ⟨b, hb, htb, hshowb⟩ := hreports₂.complete .I v hv
    have hmema := hshowa.mem_occurrencesOf hta
    have hmemb := hshowb.mem_occurrencesOf htb
    have hlies : LiesIn a b ∨ LiesIn b a := by
      simpa only [LiesIn, hmema, hmemb] using hlies
    by_cases hdropped : fingerprint b ∈ result₁.map fingerprint
    · obtain ⟨a', ha', heq⟩ := List.mem_map.mp hdropped
      have hsame := fingerprint_eq_iff.mp heq
      by_cases haa : a = a'
      · ext o
        rw [hmema, hmemb, haa, hsame]
      · have htype : a.cloneType = a'.cloneType := hta.trans (hreports₁.cloneType_eq ha').symm
        have hnot := hpair₁.forall ha ha' haa htype
        simp only [LiesIn, ← hsame] at hlies hnot
        rcases hlies with hlies | hlies
        · exact absurd hlies hnot.1
        · exact absurd hlies hnot.2.1
    · have hin : b ∈ result₂.filter fun clone => fingerprint clone ∉ result₁.map fingerprint :=
        List.mem_filter.mpr ⟨hb, decide_eq_true hdropped⟩
      have hnot := hcross a ha b hin (hta.trans htb.symm)
      rcases hlies with hlies | hlies
      · exact absurd hlies hnot.1
      · exact absurd hlies hnot.2.1
  · intro hagree
    refine pairwise_renumber (fun a b i j => (hid a b i j).mpr) ?_
    refine List.pairwise_append.mpr ⟨hreports₁.pairwise_incomparable hlaid₁,
      (hreports₂.pairwise_incomparable hlaid₂).filter _, fun a ha b hb => ?_⟩
    obtain ⟨hb, hkept⟩ := List.mem_filter.mp hb
    refine incomparable_iff.mpr fun htype => ?_
    have hta := hreports₁.cloneType_eq ha
    have htb : b.cloneType = .I := htype.symm.trans hta
    obtain ⟨u, hshowa, hu⟩ := hreports₁.shows a ha
    obtain ⟨v, hshowb, hv⟩ := hreports₂.shows b hb
    rw [hta] at hu
    rw [htb] at hv
    have hmema := hshowa.mem_occurrencesOf hta
    have hmemb := hshowb.mem_occurrencesOf htb
    have hsame := hagree u v hu hv
    simp only [hmema, hmemb] at hsame
    have hnot : ¬ (LiesIn a b ∨ LiesIn b a) := by
      intro hlies
      have hset := hsame hlies
      have hfingerprint : fingerprint b = fingerprint a := by
        refine fingerprint_eq_iff.mpr fun o => ?_
        rw [← hmema, ← hmemb, hset]
      exact of_decide_eq_true hkept (hfingerprint ▸ List.mem_map_of_mem ha)
    exact ⟨fun h => hnot (Or.inl h), fun h => hnot (Or.inr h)⟩

theorem incomparable_cmdDetect_iff_twinFunctions :
    ∃ flat₁ flat₂ result, flatten .ascii id false twinFunctions = some flat₁ ∧
      flatten .ascii id true twinFunctions = some flat₂ ∧
      cmdDetect .ascii id (.inserted _) twinFunctions true 2 0 true = some result ∧
      (result.Pairwise Incomparable ↔ RunsAgree 2 0 flat₁ flat₂ true) :=
  incomparable_cmdDetect_iff .ascii id (.inserted _) twinFunctions (by decide +kernel)
    acyclic_twinFunctions 2 0 true

/-- Three functions with the same call. The second one also agrees with the first one in the
statement behind it and with the third one in the statement before it, up to the names. -/
def shiftedCalls : List Segment :=
  let function := fun (id : ℕ) (name : String) (stmts : List String) =>
    ({ id, parent := 0, type := .function, name := lit name, scopePath := lit "root." ++ lit name,
       head := some (lit "void " ++ lit name ++ lit "() {}"),
       stmts := stmts.map fun s => { raw := lit s, kind := .expr } } : Segment)
  [{ id := 0, parent := 0, type := .root, name := lit "root", scopePath := lit "root", head := none },
   function 1 "f" ["run(0);", "a = 1;"], function 2 "g" ["y = 2;", "run(0);", "b = 1;"],
   function 3 "h" ["z = 2;", "run(0);"]]

theorem acyclic_shiftedCalls : Acyclic shiftedCalls := by
  refine ⟨fun id => 1 - id, ?_⟩
  decide +kernel

/-- **A class that lies in another one.** The Type I run finds all three calls. In the Type II run
the second call is part of two longer matches, and the first and the third call are a Type I class
of their own. -/
theorem not_incomparable_shiftedCalls :
    ¬ ∀ (segments : List Segment) (minLength : ℤ), (segments.map Segment.id).Nodup →
      Acyclic segments → 1 ≤ minLength → ∀ result,
      cmdDetect .ascii id (.inserted _) segments true minLength 0 true = some result →
      result.Pairwise Incomparable := by
  intro h
  have hresult : cmdDetect .ascii id (.inserted _) shiftedCalls true 1 0 true
      = some ((cmdDetect .ascii id (.inserted _) shiftedCalls true 1 0 true).getD []) := by
    decide +kernel
  have hpair := h shiftedCalls 1 (by decide +kernel) acyclic_shiftedCalls (by decide) _ hresult
  exact absurd hpair (by decide +kernel)

end Csc512
