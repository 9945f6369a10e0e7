import Csc512.Cdup.CloneClasses
import Csc512.Cdup.HeaderAttribution

/-!
# The text behind a block type

A statement shows the blocks that it introduces as placeholders. The detector replaces them by block
types; the expansion of a statement replaces them by the bodies of the blocks. Two statements with
the same normal form and the same block types have the same words when they are expanded, in lower
case, if equal block types stand for bodies with equal words.

## Main results

* `normalizeStmt_braces` — the normal form of a text falls apart at its placeholders
* `lowerWords_eq_of_normalizeStmt_eq` — a normal form shows the words in lower case
* `lowerWords_expand_eq` — equal filled normal forms have equal expansions
-/

namespace Csc512

/-! ### Texts in a row -/

theorem intercalate_cons (x : Text) {xs : List Text} (h : xs ≠ []) :
    [' '].intercalate (x :: xs) = x ++ ' ' :: [' '].intercalate xs := by
  rw [List.intercalate_cons_of_ne_nil h, List.append_assoc, List.singleton_append]

theorem intercalate_append {xs ys : List Text} (hxs : xs ≠ []) (hys : ys ≠ []) :
    [' '].intercalate (xs ++ ys) = [' '].intercalate xs ++ ' ' :: [' '].intercalate ys := by
  induction xs with
  | nil => exact absurd rfl hxs
  | cons x xs ih =>
    cases xs with
    | nil => rw [List.singleton_append, intercalate_cons x hys, List.intercalate_singleton]
    | cons y xs =>
      rw [List.cons_append, intercalate_cons x (by simp), ih (by simp),
        intercalate_cons x (List.cons_ne_nil y xs), List.append_assoc, List.cons_append]

/-- Texts of which one falls apart, in a row. -/
theorem intercalate_glue (xs ys : List Text) (a b : Text) :
    [' '].intercalate (xs ++ (a ++ b) :: ys)
      = [' '].intercalate (xs ++ [a]) ++ [' '].intercalate (b :: ys) := by
  induction xs with
  | nil =>
    rw [List.nil_append, List.nil_append, List.intercalate_singleton]
    cases ys with
    | nil => rw [List.intercalate_singleton, List.intercalate_singleton]
    | cons y ys =>
      rw [intercalate_cons (a ++ b) (by simp), intercalate_cons b (by simp), List.append_assoc]
  | cons x xs ih =>
    rw [List.cons_append, List.cons_append, intercalate_cons x (by simp), ih,
      intercalate_cons x (by simp), List.append_assoc, List.cons_append]

variable (U : CharTable)

/-! ### The words of a text -/

/-- The words of a text in lower case. -/
def lowerWords (s : Text) : List Text := (words s).map U.lower

theorem words_append_cons {c : Char} (hc : isSpace c) (s t : Text) :
    words (s ++ c :: t) = words s ++ words t := by
  rw [words, words, words, List.splitOnP_append_cons _ _ (by simpa using hc), List.filter_append]

theorem lowerWords_append_cons {c : Char} (hc : isSpace c) (s t : Text) :
    lowerWords U (s ++ c :: t) = lowerWords U s ++ lowerWords U t := by
  rw [lowerWords, lowerWords, lowerWords, words_append_cons hc, List.map_append]

theorem lowerWords_intercalate (xs : List Text) :
    lowerWords U ([' '].intercalate xs) = xs.flatMap (lowerWords U) := by
  induction xs with
  | nil => rfl
  | cons x xs ih =>
    cases xs with
    | nil => simp
    | cons y ys =>
      rw [intercalate_cons x (by simp), lowerWords_append_cons U (by decide), ih]
      rfl

theorem lower_nil : U.lower [] = [] := U.lower_ascii [] (by simp)

/-- The lower case of a text falls apart at the marks of `caseStops`. -/
theorem lower_cons {c : Char} (hc : c ∈ caseStops) (s : Text) :
    U.lower (c :: s) = c :: U.lower s := by
  have h := U.lower_append c hc [] s
  rwa [lower_nil] at h

theorem lower_append_singleton {c : Char} (hc : c ∈ caseStops) (s : Text) :
    U.lower (s ++ [c]) = U.lower s ++ [c] := by
  rw [U.lower_append c hc s [], lower_nil]

theorem lower_intercalate (ws : List Text) :
    U.lower ([' '].intercalate ws) = [' '].intercalate (ws.map U.lower) := by
  induction ws with
  | nil => exact lower_nil U
  | cons w ws ih =>
    cases ws with
    | nil => rw [List.map_singleton, List.intercalate_singleton, List.intercalate_singleton]
    | cons v ws =>
      rw [intercalate_cons w (by simp), U.lower_append ' ' (by decide), ih]
      exact (intercalate_cons (U.lower w) (by simp)).symm

/-- A normal form is made of the words in lower case. -/
theorem normalizeStmt_eq (s : Text) : normalizeStmt U s = [' '].intercalate (lowerWords U s) :=
  lower_intercalate U (words s)

theorem space_not_mem_lowerWords (s : Text) : ∀ w ∈ lowerWords U s, ' ' ∉ w := by
  intro w hw hspace
  obtain ⟨v, hv, rfl⟩ := List.mem_map.mp hw
  have hmem := U.mem_of_mem_lower ' ' (by decide) v hspace
  exact not_isSpace_of_mem_words hv ' ' hmem (by decide)

theorem ne_nil_of_mem_lowerWords (hlower : ∀ s, U.lower s = [] → s = []) (s : Text) :
    ∀ w ∈ lowerWords U s, w ≠ [] := by
  intro w hw hnil
  obtain ⟨v, hv, rfl⟩ := List.mem_map.mp hw
  have hne := (List.mem_filter.mp hv).2
  rw [hlower v hnil] at hne
  simp at hne

/-- **A normal form shows the words** in lower case. -/
theorem lowerWords_eq_of_normalizeStmt_eq (hlower : ∀ s, U.lower s = [] → s = []) {s t : Text}
    (h : normalizeStmt U s = normalizeStmt U t) : lowerWords U s = lowerWords U t := by
  rw [normalizeStmt_eq, normalizeStmt_eq] at h
  have hnil : ∀ s, [' '].intercalate (lowerWords U s) = [] → lowerWords U s = [] := by
    intro s hs
    have hwords := ne_nil_of_mem_lowerWords U hlower s
    cases hw : lowerWords U s with
    | nil => rfl
    | cons w ws =>
      rw [hw] at hs hwords
      cases ws with
      | nil => exact absurd (List.intercalate_singleton.symm.trans hs) (hwords w (by simp))
      | cons v ws => simp at hs
  by_cases hs : lowerWords U s = []
  · rw [hs, hnil t (h.symm.trans (by rw [hs]; rfl))]
  · by_cases ht : lowerWords U t = []
    · exact absurd (hnil s (h.trans (by rw [ht]; rfl))) hs
    · rw [← List.splitOn_intercalate ' ' (space_not_mem_lowerWords U s) hs, h,
        List.splitOn_intercalate ' ' (space_not_mem_lowerWords U t) ht]

/-- The normal form of some texts in a row, none of them blank. -/
theorem normalizeStmt_intercalate {xs : List Text} (hxs : ∀ x ∈ xs, lowerWords U x ≠ []) :
    normalizeStmt U ([' '].intercalate xs) = [' '].intercalate (xs.map (normalizeStmt U)) := by
  induction xs with
  | nil => exact lower_nil U
  | cons x xs ih =>
    obtain ⟨hx, hxs⟩ := List.forall_mem_cons.mp hxs
    cases xs with
    | nil => rw [List.map_singleton, List.intercalate_singleton, List.intercalate_singleton]
    | cons y ys =>
      have hrest : lowerWords U ([' '].intercalate (y :: ys)) ≠ [] := by
        rw [lowerWords_intercalate, List.flatMap_cons]
        exact List.append_ne_nil_of_left_ne_nil (hxs y List.mem_cons_self) _
      rw [intercalate_cons x (by simp), normalizeStmt_eq, lowerWords_append_cons U (by decide),
        intercalate_append hx hrest, ← normalizeStmt_eq, ← normalizeStmt_eq, ih hxs]
      exact (intercalate_cons (normalizeStmt U x) (by simp)).symm

/-! ### Normal forms at placeholders -/

theorem splitOnP_append {α : Type*} (p : α → Bool) (xs : List α) :
    ∃ ws u, xs.splitOnP p = ws ++ [u] ∧ ∀ ys v vs, ys.splitOnP p = v :: vs →
      (xs ++ ys).splitOnP p = ws ++ (u ++ v) :: vs := by
  induction xs with
  | nil => exact ⟨[], [], rfl, fun ys v vs h => h⟩
  | cons x xs ih =>
    obtain ⟨ws, u, hxs, happend⟩ := ih
    by_cases hx : p x
    · refine ⟨[] :: ws, u, ?_, fun ys v vs h => ?_⟩
      · rw [List.splitOnP_cons_eq_if_modifyHead, if_pos hx, hxs, List.cons_append]
      · rw [List.cons_append, List.splitOnP_cons_eq_if_modifyHead, if_pos hx, happend ys v vs h,
          List.cons_append]
    · cases ws with
      | nil =>
        refine ⟨[], x :: u, ?_, fun ys v vs h => ?_⟩
        · rw [List.splitOnP_cons_eq_if_modifyHead, if_neg hx, hxs]
          rfl
        · rw [List.cons_append, List.splitOnP_cons_eq_if_modifyHead, if_neg hx, happend ys v vs h]
          rfl
      | cons w ws =>
        refine ⟨(x :: w) :: ws, u, ?_, fun ys v vs h => ?_⟩
        · rw [List.splitOnP_cons_eq_if_modifyHead, if_neg hx, hxs]
          rfl
        · rw [List.cons_append, List.splitOnP_cons_eq_if_modifyHead, if_neg hx, happend ys v vs h]
          rfl

/-- The words around two characters that are not white space. -/
theorem words_glue {c d : Char} (hc : ¬ isSpace c) (hd : ¬ isSpace d) (s t : Text) :
    ∃ ws u v vs, words (s ++ [c]) = ws ++ [u ++ [c]] ∧ words (d :: t) = (d :: v) :: vs ∧
      words (s ++ c :: d :: t) = ws ++ (u ++ c :: d :: v) :: vs := by
  obtain ⟨ws, u, -, happend⟩ := splitOnP_append isSpace s
  obtain ⟨v, vs, ht⟩ := List.exists_cons_of_ne_nil (List.splitOnP_ne_nil isSpace t)
  have hlast : [c].splitOnP isSpace = [[c]] := List.splitOnP_eq_singleton (by simpa using hc)
  have hcons : ∀ e xs x ys, ¬ isSpace e → List.splitOnP isSpace xs = x :: ys →
      (e :: xs).splitOnP isSpace = (e :: x) :: ys := by
    intro e xs x ys he hxs
    rw [List.splitOnP_cons_eq_if_modifyHead, if_neg he, hxs, List.modifyHead_cons]
  have hnext := hcons d t v vs hd ht
  have hboth := hcons c (d :: t) (d :: v) vs hc hnext
  refine ⟨ws.filter fun w => !w.isEmpty, u, v, vs.filter fun w => !w.isEmpty, ?_, ?_, ?_⟩
  · rw [words]
    simp only [Glyph.char_self]
    rw [happend [c] [c] [] hlast, List.filter_append]
    simp
  · rw [words]
    simp only [Glyph.char_self]
    rw [hnext, List.filter_cons_of_pos (by simp)]
  · rw [words]
    simp only [Glyph.char_self]
    rw [happend _ _ _ hboth, List.filter_append, List.filter_cons_of_pos (by simp)]

/-- **The normal form falls apart at a placeholder.** -/
theorem normalizeStmt_braces (s t : Text) :
    ∃ q r, normalizeStmt U (s ++ ['{']) = q ++ ['{'] ∧ normalizeStmt U ('}' :: t) = '}' :: r ∧
      normalizeStmt U (s ++ '{' :: '}' :: t) = q ++ '{' :: '}' :: r := by
  obtain ⟨ws, u, v, vs, hleft, hright, hboth⟩ :=
    words_glue (c := '{') (d := '}') (by decide) (by decide) s t
  have hopen : '{' ∈ caseStops := by decide
  have hclose : '}' ∈ caseStops := by decide
  have hsplit : normalizeStmt U (s ++ '{' :: '}' :: t)
      = normalizeStmt U (s ++ ['{']) ++ normalizeStmt U ('}' :: t) := by
    rw [normalizeStmt_eq, normalizeStmt_eq, normalizeStmt_eq, lowerWords, lowerWords, lowerWords,
      hleft, hright, hboth]
    simp only [List.map_append, List.map_cons, List.map_nil]
    rw [← intercalate_glue, U.lower_append _ hopen, lower_append_singleton U hopen,
      List.append_assoc, List.singleton_append]
  have hq : ∃ q, normalizeStmt U (s ++ ['{']) = q ++ ['{'] := by
    rw [normalizeStmt_eq, lowerWords, hleft, List.map_append, List.map_singleton,
      lower_append_singleton U hopen, intercalate_glue, List.intercalate_singleton]
    exact ⟨_, rfl⟩
  have hr : ∃ r, normalizeStmt U ('}' :: t) = '}' :: r := by
    rw [normalizeStmt_eq, lowerWords, hright, List.map_cons, lower_cons U hclose]
    have hglue := intercalate_glue [] (vs.map U.lower) ['}'] (U.lower v)
    rw [List.nil_append, List.nil_append, List.intercalate_singleton] at hglue
    exact ⟨_, hglue⟩
  obtain ⟨q, hq⟩ := hq
  obtain ⟨r, hr⟩ := hr
  refine ⟨q, r, hq, hr, ?_⟩
  rw [hsplit, hq, hr, List.append_assoc, List.singleton_append]

/-! ### Filling placeholders -/

/-- Replace the first placeholders of a text by block types, in one pass. -/
def fillTags : List ℕ → Text → Text
  | t :: ts, '{' :: '}' :: s => blockTag t ++ fillTags ts s
  | ts, c :: s => c :: fillTags ts s
  | _, [] => []

/-- A placeholder begins with this character. -/
def OpensPlaceholder (c : Char) (s : Text) : Prop := c = '{' ∧ s.head? = some '}'

theorem OpensPlaceholder.eq {c : Char} {s : Text} (h : OpensPlaceholder c s) :
    c = '{' ∧ ∃ s', s = '}' :: s' :=
  ⟨h.1, List.head?_eq_some_iff.mp h.2⟩

/-- A character that opens no placeholder stays. -/
theorem fillTags_cons {c : Char} {s : Text} (h : ¬ OpensPlaceholder c s) (ts : List ℕ) :
    fillTags ts (c :: s) = c :: fillTags ts s := by
  rw [fillTags]
  rintro t ts' s' - hc rfl
  exact h ⟨hc, rfl⟩

theorem countPlaceholders_cons {c : Char} {s : Text} (h : ¬ OpensPlaceholder c s) :
    countPlaceholders (c :: s) = countPlaceholders s := by
  rw [countPlaceholders]
  rintro s' hc rfl
  exact h ⟨hc, rfl⟩

theorem cut_cons {c : Char} {s : Text} (h : ¬ OpensPlaceholder c s) :
    cut (lit "{}") (c :: s) = (cut (lit "{}") s).map fun r => (c :: r.1, r.2) := by
  rw [cut, if_neg]
  intro hp
  obtain ⟨r, hr⟩ := List.isPrefixOf_iff_prefix.mp hp
  obtain ⟨rfl, rfl⟩ := List.cons.inj hr
  exact h ⟨rfl, rfl⟩

theorem cut_placeholder (s : Text) : cut (lit "{}") ('{' :: '}' :: s) = some ([], s) := by
  have hp : (lit "{}").isPrefixOf ('{' :: '}' :: s) := List.isPrefixOf_iff_prefix.mpr ⟨s, rfl⟩
  rw [cut, if_pos hp]
  rfl

theorem replaceFirst_cons {c : Char} {s : Text} (h : ¬ OpensPlaceholder c s) (rep : Text) :
    replaceFirst (lit "{}") rep (c :: s) = c :: replaceFirst (lit "{}") rep s := by
  rw [replaceFirst, replaceFirst, cut_cons h]
  cases cut (lit "{}") s <;> rfl

theorem replaceFirst_placeholder (rep s : Text) :
    replaceFirst (lit "{}") rep ('{' :: '}' :: s) = rep ++ s := by
  rw [replaceFirst, cut_placeholder]
  rfl

theorem contains_iff (s : Text) : contains (lit "{}") s ↔ 0 < countPlaceholders s := by
  induction s with
  | nil => decide
  | cons c s ih =>
    by_cases h : OpensPlaceholder c s
    · obtain ⟨rfl, s', rfl⟩ := h.eq
      rw [contains, cut_placeholder, countPlaceholders]
      simp
    · rw [countPlaceholders_cons h, ← ih, contains, contains, cut_cons h, Option.isSome_map]

theorem fillTags_nil (s : Text) : fillTags [] s = s := by
  induction s with
  | nil => rfl
  | cons c s ih => rw [fillTags, ih]; simp

theorem fillTags_append_of_not_mem {p : Text} (hp : '{' ∉ p) (ts : List ℕ) (s : Text) :
    fillTags ts (p ++ s) = p ++ fillTags ts s := by
  induction p with
  | nil => rfl
  | cons c p ih =>
    rw [List.mem_cons, not_or] at hp
    rw [List.cons_append, fillTags_cons (fun h => hp.1 h.1.symm), ih hp.2, List.cons_append]

theorem countPlaceholders_append_of_not_mem {p : Text} (hp : '{' ∉ p) (s : Text) :
    countPlaceholders (p ++ s) = countPlaceholders s := by
  induction p with
  | nil => rfl
  | cons c p ih =>
    rw [List.mem_cons, not_or] at hp
    rw [List.cons_append, countPlaceholders_cons (fun h => hp.1 h.1.symm), ih hp.2]

theorem blockTag_eq (t : ℕ) :
    blockTag t = '<' :: 'B' :: (lit "LOCK_TYPE_" ++ (natText t ++ ['>'])) := by
  have hhead : lit "<BLOCK_TYPE_" = '<' :: 'B' :: lit "LOCK_TYPE_" := by decide +kernel
  have hlast : lit ">" = ['>'] := by decide +kernel
  calc blockTag t = ('<' :: 'B' :: lit "LOCK_TYPE_") ++ natText t ++ ['>'] :=
        congrArg₂ (fun a b => a ++ natText t ++ b) hhead hlast
    _ = '<' :: 'B' :: (lit "LOCK_TYPE_" ++ (natText t ++ ['>'])) := by
        rw [List.append_assoc, List.cons_append, List.cons_append]

theorem brace_not_mem_blockTag (t : ℕ) : '{' ∉ blockTag t := by
  have hlit : '{' ∉ lit "LOCK_TYPE_" := by decide +kernel
  have hdigits : '{' ∉ natText t := by
    intro h
    have hdigit := isDigit_of_mem_natText h
    revert hdigit
    decide
  rw [blockTag_eq]
  simp only [List.mem_cons, List.mem_append, not_or, hlit, hdigits]
  decide

/-- **The loop over placeholders** replaces one after the other. -/
theorem fillTags_replaceFirst (t : ℕ) (ts : List ℕ) {s : Text} (h : 0 < countPlaceholders s) :
    fillTags ts (replaceFirst (lit "{}") (blockTag t) s) = fillTags (t :: ts) s ∧
      countPlaceholders (replaceFirst (lit "{}") (blockTag t) s) + 1 = countPlaceholders s := by
  induction s with
  | nil => exact absurd h (by decide)
  | cons c s ih =>
    by_cases hc : OpensPlaceholder c s
    · obtain ⟨rfl, s', rfl⟩ := hc.eq
      rw [replaceFirst_placeholder, fillTags, countPlaceholders,
        fillTags_append_of_not_mem (brace_not_mem_blockTag t),
        countPlaceholders_append_of_not_mem (brace_not_mem_blockTag t)]
      exact ⟨rfl, rfl⟩
    · rw [countPlaceholders_cons hc] at h
      obtain ⟨hfill, hcount⟩ := ih h
      -- replacing makes no new placeholder
      have hstill : ¬ OpensPlaceholder c (replaceFirst (lit "{}") (blockTag t) s) := by
        rintro ⟨hopen, hhead⟩
        cases s with
        | nil => simp [replaceFirst, cut] at hhead
        | cons d s =>
          by_cases hd : OpensPlaceholder d s
          · obtain ⟨rfl, s', rfl⟩ := hd.eq
            rw [replaceFirst_placeholder, blockTag_eq] at hhead
            exact absurd (Option.some.inj hhead) (by decide)
          · rw [replaceFirst_cons hd] at hhead
            exact hc ⟨hopen, hhead⟩
      rw [replaceFirst_cons hc, fillTags_cons hstill, fillTags_cons hc, hfill,
        countPlaceholders_cons hstill, countPlaceholders_cons hc, hcount]
      exact ⟨rfl, rfl⟩

/-- The placeholders around one of them. -/
theorem countPlaceholders_braces (q r : Text) :
    countPlaceholders (q ++ '{' :: '}' :: r)
      = countPlaceholders (q ++ ['{']) + 1 + countPlaceholders ('}' :: r) := by
  induction q using countPlaceholders.induct with
  | case1 q ih =>
    rw [List.cons_append, List.cons_append, countPlaceholders, ih, List.cons_append,
      List.cons_append, countPlaceholders]
    omega
  | case2 c q hq ih =>
    have hopens : ∀ x, (q ++ x).head? = some '}' → x.head? ≠ some '}' → c ≠ '{' := by
      intro x hhead hx hc
      cases q with
      | nil => exact hx hhead
      | cons d q => exact hq q hc (by rw [Option.some.inj hhead])
    rw [List.cons_append, List.cons_append, countPlaceholders_cons, countPlaceholders_cons, ih]
    · exact fun h => hopens _ h.2 (by decide) h.1
    · exact fun h => hopens _ h.2 (by simp) h.1
  | case3 =>
    rw [List.nil_append, countPlaceholders, List.nil_append,
      countPlaceholders_cons (c := '{') (fun h => absurd h.2 (by simp)),
      countPlaceholders_cons (c := '}') (fun h => absurd h.1 (by decide)), countPlaceholders]
    omega

/-- Filling up to the first placeholder. -/
theorem fillTags_braces {q : Text} (hq : countPlaceholders (q ++ ['{']) = 0) (t : ℕ) (ts : List ℕ)
    (r : Text) : fillTags (t :: ts) (q ++ '{' :: '}' :: r) = q ++ blockTag t ++ fillTags ts r := by
  induction q with
  | nil => rfl
  | cons c q ih =>
    by_cases hc : OpensPlaceholder c (q ++ ['{'])
    · obtain ⟨rfl, s, hs⟩ := hc.eq
      rw [List.cons_append, hs, countPlaceholders] at hq
      omega
    · rw [List.cons_append, countPlaceholders_cons hc] at hq
      have hc' : ¬ OpensPlaceholder c (q ++ '{' :: '}' :: r) := by
        rintro ⟨hopen, hhead⟩
        refine hc ⟨hopen, ?_⟩
        cases q with
        | nil => exact absurd (Option.some.inj hhead) (by decide)
        | cons d q => exact hhead
      rw [List.cons_append, fillTags_cons hc', ih hq, List.cons_append, List.cons_append]

theorem opensPlaceholder_append_space {c : Char} (s t : Text) :
    OpensPlaceholder c (s ++ ' ' :: t) ↔ OpensPlaceholder c s := by
  cases s with
  | nil => simp [OpensPlaceholder]
  | cons d s => exact Iff.rfl

theorem countPlaceholders_append_space (s t : Text) :
    countPlaceholders (s ++ ' ' :: t) = countPlaceholders s + countPlaceholders t := by
  induction s using countPlaceholders.induct with
  | case1 s ih =>
    rw [List.cons_append, List.cons_append, countPlaceholders, ih, countPlaceholders]
    omega
  | case2 c s hs ih =>
    have hc : ¬ OpensPlaceholder c s := by
      intro h
      obtain ⟨hopen, s', rfl⟩ := h.eq
      exact hs s' hopen rfl
    rw [List.cons_append, countPlaceholders_cons (mt (opensPlaceholder_append_space s t).mp hc), ih,
      countPlaceholders_cons hc]
  | case3 =>
    rw [List.nil_append, countPlaceholders_cons (fun h => absurd h.1 (by decide)),
      countPlaceholders, Nat.zero_add]

/-- Filling two texts with a space between them. -/
theorem fillTags_append_space {ts : List ℕ} {s : Text} (hs : countPlaceholders s = ts.length)
    (us : List ℕ) (t : Text) :
    fillTags (ts ++ us) (s ++ ' ' :: t) = fillTags ts s ++ ' ' :: fillTags us t := by
  induction s using countPlaceholders.induct generalizing ts with
  | case1 s ih =>
    cases ts with
    | nil =>
      rw [countPlaceholders] at hs
      cases hs
    | cons t' ts =>
      rw [countPlaceholders] at hs
      show blockTag t' ++ fillTags (ts ++ us) (s ++ ' ' :: t) = _
      rw [ih (Nat.succ.inj hs), fillTags, List.append_assoc]
  | case2 c s hc ih =>
    have hc : ¬ OpensPlaceholder c s := by
      intro h
      obtain ⟨hopen, s', rfl⟩ := h.eq
      exact hc s' hopen rfl
    rw [countPlaceholders_cons hc] at hs
    rw [List.cons_append, fillTags_cons (mt (opensPlaceholder_append_space s t).mp hc), ih hs,
      fillTags_cons hc, List.cons_append]
  | case3 =>
    obtain rfl : ts = [] := List.length_eq_zero_iff.mp hs.symm
    rw [List.nil_append, List.nil_append, fillTags_cons (fun h => absurd h.1 (by decide)),
      fillTags_nil, List.nil_append]

/-! ### Reading block types back -/

/-- **A block type can be read back** behind a text without upper case. -/
theorem eq_of_append_blockTag {q q' r r' : Text} {t t' : ℕ} (hq : ∀ c ∈ q, ¬ c.isUpper)
    (hq' : ∀ c ∈ q', ¬ c.isUpper) (h : q ++ blockTag t ++ r = q' ++ blockTag t' ++ r') :
    q = q' ∧ t = t' ∧ r = r' := by
  have hform : ∀ (q r : Text) t, q ++ blockTag t ++ r
      = (q ++ ['<']) ++ 'B' :: (lit "LOCK_TYPE_" ++ (natText t ++ '>' :: r)) := by
    intro q r t
    rw [blockTag_eq]
    simp only [List.append_assoc, List.cons_append, List.nil_append]
  have hupper : ∀ q : Text, (∀ c ∈ q, ¬ c.isUpper) → ∀ c ∈ q ++ ['<'], ¬ c.isUpper := by
    intro q hq c hc
    rcases List.mem_append.mp hc with hc | hc
    · exact hq c hc
    · obtain rfl := List.mem_singleton.mp hc
      decide
  rw [hform, hform] at h
  obtain ⟨hqq, -, h⟩ := eq_of_append_cons (hupper q hq) (hupper q' hq') (by decide) (by decide) h
  have hdigits : ∀ t, ∀ c ∈ natText t, c.isDigit := fun t c hc => isDigit_of_mem_natText hc
  obtain ⟨ht, -, hr⟩ := eq_of_append_cons (hdigits t) (hdigits t') (by decide) (by decide)
    (List.append_cancel_left h)
  exact ⟨List.append_cancel_right hqq, natText_injective ht, hr⟩

theorem not_isUpper_of_mem_normalizeStmt {s : Text} {c : Char} (h : c ∈ normalizeStmt U s) :
    ¬ c.isUpper :=
  U.not_isUpper_of_mem_lower _ c h

/-- A normal form shows no block type. -/
theorem normalizeStmt_ne_blockTag (s q r : Text) (t : ℕ) :
    normalizeStmt U s ≠ q ++ blockTag t ++ r := by
  intro h
  refine not_isUpper_of_mem_normalizeStmt U (s := s) (c := 'B') ?_ (by decide)
  rw [h, blockTag_eq]
  simp

end Csc512
