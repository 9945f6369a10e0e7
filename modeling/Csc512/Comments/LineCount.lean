import Csc512.Comments.Extractor
import Mathlib.Data.Finset.Card
import Mathlib.Data.List.Chain

/-!
# Lines of comments

The report counts the line breaks in the texts of the comments, but the texts have no line breaks
any more when they are counted: the white space in them is normalized. So every comment counts as
one line, also if it has many lines or was merged from several; and a comment without text counts as
none. The lines that the coverage is computed from are the first lines of the comments.

## Main results

* `countsLines_iff` — the files for which count and coverage lines are right
* `not_countsLines` — a block comment of two lines
-/

namespace Csc512

namespace Extractor

/-! ### Normalized comments -/

theorem newline_notMem_normalize (c : Comment) : '\n' ∉ c.normalize.text := by
  have hwords : ∀ ws : List Text, (∀ w ∈ ws, '\n' ∉ w) → '\n' ∉ [' '].intercalate ws := by
    intro ws hws
    induction ws with
    | nil => simp
    | cons w ws ih =>
      obtain ⟨hw, hws⟩ := List.forall_mem_cons.mp hws
      cases ws with
      | nil => rwa [List.intercalate_singleton]
      | cons v ws =>
        rw [List.intercalate_cons_of_ne_nil (List.cons_ne_nil v ws), List.mem_append,
          List.mem_append, List.mem_singleton]
        exact fun h => h.elim (fun h => h.elim hw (by decide)) (ih hws)
  exact hwords _ fun w hw hmem => not_isSpace_of_mem_words hw _ hmem (by decide)

theorem normalize_eq_nil_iff (c : Comment) : c.normalize.text = [] ↔ words c.text = [] := by
  show [' '].intercalate (words c.text) = [] ↔ _
  have hne : ∀ w ∈ words c.text, w ≠ [] := fun w hw hnil => by
    have h := (List.mem_filter.mp hw).2
    rw [hnil] at h
    cases h
  cases hws : words c.text with
  | nil => simp
  | cons w ws =>
    rw [hws] at hne
    have hw := hne w List.mem_cons_self
    cases ws with
    | nil => simpa using hw
    | cons v ws => simp [List.intercalate_cons_of_ne_nil]

/-- **A normalized comment counts as one line**, or as none. -/
theorem commentLines_map_normalize (cs : List Comment) :
    commentLines (cs.map Comment.normalize) = cs.countP fun c => words c.text ≠ [] := by
  induction cs with
  | nil => rfl
  | cons c cs ih =>
    have hcount := List.count_eq_zero.mpr (newline_notMem_normalize c)
    rw [commentLines, List.map_cons, List.map_cons, List.sum_cons, hcount, List.countP_cons, ← ih,
      commentLines, Nat.add_comm]
    by_cases h : words c.text = []
    · simp [h, (normalize_eq_nil_iff c).mpr h]
    · simp [h, mt (normalize_eq_nil_iff c).mp h]

/-- The coverage lines are the lines that normalized comments begin on. -/
theorem commentLineNums_map_normalize (cs : List Comment) :
    commentLineNums (cs.map Comment.normalize) = cs.map Comment.line := by
  induction cs with
  | nil => rfl
  | cons c cs ih =>
    have hcount := List.count_eq_zero.mpr (newline_notMem_normalize c)
    rw [commentLineNums, List.map_cons, List.flatMap_cons, hcount]
    show List.range' c.line (if _ then 1 else 1) ++ commentLineNums _ = _
    rw [ite_self, ih]
    rfl

/-! ### Merged comments -/

theorem length_mergeFrom_le (last : Comment) (cs : List Comment) :
    (mergeFrom last cs).length ≤ cs.length + 1 := by
  induction cs generalizing last with
  | nil => rfl
  | cons c cs ih =>
    rw [mergeFrom]
    split
    · exact (ih _).trans (Nat.le_succ _)
    · exact Nat.succ_le_succ (ih c)

/-- Nothing is merged if no line comment is right below another one. -/
theorem mergeFrom_of_isChain {last : Comment} {cs : List Comment}
    (h : (last :: cs).IsChain fun a b => ¬ a.Below b) : mergeFrom last cs = last :: cs := by
  induction cs generalizing last with
  | nil => rfl
  | cons c cs ih =>
    obtain ⟨hc, hcs⟩ := List.isChain_cons_cons.mp h
    rw [mergeFrom, if_neg hc, ih hcs]

theorem isChain_of_length_mergeFrom {last : Comment} {cs : List Comment}
    (h : (mergeFrom last cs).length = cs.length + 1) :
    (last :: cs).IsChain fun a b => ¬ a.Below b := by
  induction cs generalizing last with
  | nil => exact .singleton _
  | cons c cs ih =>
    rw [mergeFrom] at h
    split at h
    · have hle := length_mergeFrom_le { last with text := last.text ++ '\n' :: c.text } cs
      rw [h, List.length_cons] at hle
      omega
    · rename_i hbelow
      exact List.isChain_cons_cons.mpr ⟨hbelow, ih (Nat.succ_inj.mp h)⟩

theorem length_mergeComments_le (cs : List Comment) : (mergeComments cs).length ≤ cs.length := by
  cases cs with
  | nil => rfl
  | cons c cs => exact length_mergeFrom_le c cs

theorem mergeComments_of_isChain {cs : List Comment} (h : cs.IsChain fun a b => ¬ a.Below b) :
    mergeComments cs = cs := by
  cases cs with
  | nil => rfl
  | cons c cs => exact mergeFrom_of_isChain h

theorem length_mergeComments_iff {cs : List Comment} :
    (mergeComments cs).length = cs.length ↔ cs.IsChain fun a b => ¬ a.Below b := by
  cases cs with
  | nil => simp [mergeComments]
  | cons c cs =>
    exact ⟨isChain_of_length_mergeFrom, fun h => congrArg List.length (mergeComments_of_isChain h)⟩

/-! ### Lines -/

theorem sum_map_succ {α : Type} (g : α → ℕ) (l : List α) :
    (l.map fun a => g a + 1).sum = (l.map g).sum + l.length := by
  induction l with
  | nil => rfl
  | cons a l ih =>
    rw [List.map_cons, List.map_cons, List.sum_cons, List.sum_cons, ih, List.length_cons]
    omega

theorem sum_map_eq_zero_iff {α : Type} {g : α → ℕ} {l : List α} :
    (l.map g).sum = 0 ↔ ∀ a ∈ l, g a = 0 := by
  rw [List.sum_eq_zero_iff_forall_eq_nat, List.forall_mem_map]

/-- The lines that a comment covers. -/
def Found.lines (f : Found) : List ℕ := List.range' f.comment.line (f.source.count '\n' + 1)

/-- The lines that comments cover. -/
def coveredLines (fs : List Found) : Finset ℕ := (fs.flatMap Found.lines).toFinset

/-- The count and the lines of a file are those that its comments cover. -/
def CountsLines (suffix src : Text) : Prop :=
  commentLines (extractComments suffix src) = (coveredLines (findComments suffix src)).card ∧
    (commentLineNums (extractComments suffix src)).toFinset
      = coveredLines (findComments suffix src)

/-- The comments are on one line each, all of them have text, and no line comment is right below
another one. -/
structure OneLiners (fs : List Found) : Prop where
  oneLine : ∀ f ∈ fs, '\n' ∉ f.source
  hasText : ∀ f ∈ fs, words f.comment.text ≠ []
  apart : fs.IsChain fun f g => ¬ f.comment.Below g.comment

/-- **Lines of comments.** For a program file in which no line has two comments, count and coverage
lines are right if and only if the comments are on one line each, have text, and no line comment is
right below another one. -/
theorem countsLines_iff {suffix src : Text} (hcode : suffix ∉ [lit ".md", lit ".markdown"])
    (hlines : ((findComments suffix src).flatMap Found.lines).Nodup) :
    CountsLines suffix src ↔ OneLiners (findComments suffix src) := by
  generalize hfs : findComments suffix src = fs at hlines
  have hextract : extractComments suffix src
      = (mergeComments (fs.map Found.comment)).map Comment.normalize := by
    rw [extractComments, if_neg hcode, hfs]
  have hcard : (coveredLines fs).card = (fs.map fun f => f.source.count '\n').sum + fs.length := by
    rw [coveredLines, List.toFinset_card_of_nodup hlines, List.length_flatMap]
    simp [Found.lines, sum_map_succ]
  rw [CountsLines, hextract, hfs, commentLines_map_normalize, commentLineNums_map_normalize, hcard]
  constructor
  · rintro ⟨hcount, -⟩
    -- every step from the text to the count can only lose lines, so none does
    have hle := length_mergeComments_le (fs.map Found.comment)
    have hle' := List.countP_le_length (p := fun c : Comment => words c.text ≠ [])
      (l := mergeComments (fs.map Found.comment))
    rw [List.length_map] at hle
    have hbreaks : (fs.map fun f => f.source.count '\n').sum = 0 := by omega
    have hmerge : (mergeComments (fs.map Found.comment)).length = (fs.map Found.comment).length := by
      rw [List.length_map]
      omega
    have hchain := length_mergeComments_iff.mp hmerge
    rw [mergeComments_of_isChain hchain] at hcount
    refine ⟨fun f hf => ?_, fun f hf => ?_, List.isChain_map _ |>.mp hchain⟩
    · exact List.count_eq_zero.mp (sum_map_eq_zero_iff.mp hbreaks f hf)
    · rw [hbreaks, Nat.zero_add, ← List.length_map Found.comment] at hcount
      have hall := List.countP_eq_length.mp hcount
      simpa using hall f.comment (List.mem_map_of_mem hf)
  · rintro ⟨honeLine, hasText, hapart⟩
    have hbreaks : ∀ f ∈ fs, f.source.count '\n' = 0 := fun f hf =>
      List.count_eq_zero.mpr (honeLine f hf)
    rw [mergeComments_of_isChain ((List.isChain_map _).mpr hapart)]
    constructor
    · have hall : ∀ c ∈ fs.map Found.comment, decide (words c.text ≠ []) = true := by
        intro c hc
        obtain ⟨f, hf, rfl⟩ := List.mem_map.mp hc
        exact decide_eq_true (hasText f hf)
      have hsum : (fs.map fun f => f.source.count '\n').sum = 0 :=
        sum_map_eq_zero_iff.mpr hbreaks
      rw [List.countP_eq_length.mpr hall, hsum, List.length_map, Nat.zero_add]
    · have hcover : fs.flatMap Found.lines = (fs.map Found.comment).map Comment.line := by
        rw [List.map_map, List.map_eq_flatMap]
        refine List.flatMap_congr fun f hf => ?_
        rw [Found.lines, hbreaks f hf]
        rfl
      rw [coveredLines, hcover]

/-- A file with two comments of one line. -/
theorem countsLines_iff_sample :
    CountsLines (lit ".c") (lit "int a; // one\nint b; /* two */\n") := by
  refine (countsLines_iff (by decide) (by decide +kernel)).mpr ⟨?_, ?_, ?_⟩
  · decide +kernel
  · decide +kernel
  · decide +kernel

/-- **A block comment of two lines counts as one.** -/
theorem not_countsLines :
    ((findComments (lit ".c") (lit "/* one\ntwo */\nint a;\n")).flatMap Found.lines).Nodup ∧
    ¬ CountsLines (lit ".c") (lit "/* one\ntwo */\nint a;\n") := by
  refine ⟨by decide +kernel, fun h => ?_⟩
  have hone : commentLines (extractComments (lit ".c") (lit "/* one\ntwo */\nint a;\n")) = 1 := by
    decide +kernel
  have htwo : (coveredLines (findComments (lit ".c") (lit "/* one\ntwo */\nint a;\n"))).card = 2 := by
    decide +kernel
  have hcount := h.1
  rw [hone, htwo] at hcount
  cases hcount

end Extractor

end Csc512
