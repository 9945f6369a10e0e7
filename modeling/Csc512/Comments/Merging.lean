import Csc512.Comments.Extractor
import Mathlib.Data.List.SplitBy

/-!
# Runs of line comments

Line comments that are right below each other make up a run. The merging step compares each comment
with the last merged one, which keeps the line of its first comment. So the third comment of a run
is not right below what the first two were merged into, and begins a merged comment of its own: a
run falls apart into pairs.

## Main results

* `mergeComments_eq_flatMap_pairs` — what becomes of the runs of a list in source order
* `mergesRuns_iff` — every run becomes one comment only if no run has three comments
-/

namespace Csc512

namespace Extractor

/-- Is a comment in front of another one in the source? -/
def Comment.Before (a b : Comment) : Prop :=
  a.line < b.line ∨ a.line = b.line ∧ a.column < b.column

instance (a b : Comment) : Decidable (a.Before b) := by
  unfold Comment.Before
  infer_instance

/-- Are comments in the order of the source? -/
def InSourceOrder (cs : List Comment) : Prop := cs.Pairwise Comment.Before

instance (cs : List Comment) : Decidable (InSourceOrder cs) := by
  unfold InSourceOrder
  infer_instance

/-- The maximal runs of comments that are right below each other. A comment that is in no such run
is a run of its own. -/
def runs (cs : List Comment) : List (List Comment) := cs.splitBy fun a b => a.Below b

/-- A run as one comment, with the place of the first one and the texts of all of them. -/
def mergeRun : List Comment → List Comment
  | [] => []
  | c :: cs => [{ c with text := ['\n'].intercalate (c.text :: cs.map Comment.text) }]

/-- Every run becomes one comment. -/
def MergesRuns (cs : List Comment) : Prop := mergeComments cs = (runs cs).flatMap mergeRun

/-- A run as pairs, and a last comment if their number is odd. -/
def pairs : List Comment → List Comment
  | [] => []
  | [c] => [c]
  | c :: d :: cs => { c with text := c.text ++ '\n' :: d.text } :: pairs cs

/-- A merged comment is merged with no comment behind the second one. -/
theorem not_below_of_before {c d e : Comment} (hcd : c.Below d) (hde : d.Before e) :
    ¬ c.Below e := by
  rintro ⟨-, -, hline, hcolumn⟩
  obtain ⟨-, -, hline', hcolumn'⟩ := hcd
  rcases hde with hlt | ⟨-, hlt⟩ <;> omega

/-- **What becomes of a run** at the beginning of a list. -/
theorem mergeComments_append {r s : List Comment} (hrun : r.IsChain Comment.Below)
    (horder : InSourceOrder (r ++ s))
    (hend : ∀ c ∈ r.getLast?, ∀ e ∈ s.head?, ¬ c.Below e) :
    mergeComments (r ++ s) = pairs r ++ mergeComments s := by
  induction r using pairs.induct with
  | case1 => rfl
  | case2 c =>
    cases s with
    | nil => rfl
    | cons e s =>
      show mergeFrom c (e :: s) = _
      rw [mergeFrom, if_neg (hend c rfl e rfl)]
      rfl
  | case3 c d cs ih =>
    obtain ⟨hcd, hrun⟩ := List.isChain_cons_cons.mp hrun
    rw [List.cons_append, List.cons_append] at horder
    obtain ⟨-, horder⟩ := List.pairwise_cons.mp horder
    obtain ⟨hd, horder⟩ := List.pairwise_cons.mp horder
    have hmerged : mergeComments (c :: d :: cs ++ s)
        = { c with text := c.text ++ '\n' :: d.text } :: mergeComments (cs ++ s) := by
      show mergeFrom c (d :: (cs ++ s)) = _
      rw [mergeFrom, if_pos hcd]
      cases hnext : cs ++ s with
      | nil => rfl
      | cons e rest =>
        have hde : d.Before e := hd e (by rw [hnext]; exact List.mem_cons_self)
        have hnot : ¬ Comment.Below { c with text := c.text ++ '\n' :: d.text } e :=
          not_below_of_before hcd hde
        rw [mergeFrom, if_neg hnot]
        rfl
    have hend' : ∀ c ∈ cs.getLast?, ∀ e ∈ s.head?, ¬ c.Below e := by
      intro x hx
      refine hend x ?_
      cases cs with
      | nil => cases hx
      | cons e cs => exact hx
    rw [hmerged, ih hrun.tail horder hend']
    rfl

/-- **The merging step makes pairs** of the comments of every run. -/
theorem mergeComments_eq_flatMap_pairs {cs : List Comment} (horder : InSourceOrder cs) :
    mergeComments cs = (runs cs).flatMap pairs := by
  have hruns : ∀ rs : List (List Comment), [] ∉ rs → (∀ r ∈ rs, r.IsChain Comment.Below) →
      rs.IsChain (fun r s => ∃ (hr : r ≠ []) (hs : s ≠ []),
        decide ((r.getLast hr).Below (s.head hs)) = false) →
      InSourceOrder rs.flatten → mergeComments rs.flatten = rs.flatMap pairs := by
    intro rs
    induction rs with
    | nil => exact fun _ _ _ _ => rfl
    | cons r rs ih =>
      intro hnil hchain hapart horder
      obtain ⟨-, hnil⟩ := List.ne_and_not_mem_of_not_mem_cons hnil
      obtain ⟨hr, hchain⟩ := List.forall_mem_cons.mp hchain
      rw [List.flatten_cons] at horder ⊢
      have hend : ∀ c ∈ r.getLast?, ∀ e ∈ rs.flatten.head?, ¬ c.Below e := by
        cases rs with
        | nil => exact fun _ _ _ he => nomatch he
        | cons s rs =>
          obtain ⟨⟨hne, hne', hnot⟩, -⟩ := List.isChain_cons_cons.mp hapart
          intro c hc e he
          obtain rfl : r.getLast hne = c := by
            simpa [List.getLast?_eq_some_getLast hne] using hc
          obtain rfl : s.head hne' = e := by
            simpa [List.head?_append, List.head?_eq_some_head hne'] using he
          exact of_decide_eq_false hnot
      rw [mergeComments_append hr horder hend, List.flatMap_cons,
        ih hnil hchain hapart.tail (List.pairwise_append.mp horder).2.1]
  have hchain : ∀ r ∈ runs cs, r.IsChain Comment.Below := fun r hr =>
    (List.isChain_of_mem_splitBy hr).imp fun _ _ h => of_decide_eq_true h
  have hflatten : (runs cs).flatten = cs := List.flatten_splitBy _ _
  have h := hruns (runs cs) (List.nil_notMem_splitBy _ _) hchain
    (List.isChain_getLast_head_splitBy (fun a b : Comment => a.Below b) cs) (hflatten.symm ▸ horder)
  rwa [hflatten] at h

theorem length_mergeRun {r : List Comment} (hr : r ≠ []) : (mergeRun r).length = 1 := by
  cases r with
  | nil => exact absurd rfl hr
  | cons c cs => rfl

theorem one_le_length_pairs {r : List Comment} (hr : r ≠ []) : 1 ≤ (pairs r).length := by
  match r with
  | [_] => exact le_rfl
  | _ :: _ :: _ => exact Nat.succ_le_succ (Nat.zero_le _)

/-- A run of one or two comments becomes one comment. -/
theorem pairs_eq_mergeRun_iff {r : List Comment} (hr : r ≠ []) :
    pairs r = mergeRun r ↔ r.length ≤ 2 := by
  match r with
  | [c] => simp [pairs, mergeRun]
  | [c, d] => simp [pairs, mergeRun, List.intercalate]
  | c :: d :: e :: cs =>
    refine iff_of_false (fun h => ?_) (by simp)
    have hlen := congrArg List.length h
    have hpos := one_le_length_pairs (List.cons_ne_nil e cs)
    rw [length_mergeRun (List.cons_ne_nil c _), pairs, List.length_cons] at hlen
    omega

/-- **Runs of comments.** In a list of comments in source order, the merging step turns every run
into one comment if and only if no run has more than two comments. -/
theorem mergesRuns_iff {cs : List Comment} (horder : InSourceOrder cs) :
    MergesRuns cs ↔ ∀ r ∈ runs cs, r.length ≤ 2 := by
  have hnil : ∀ r ∈ runs cs, r ≠ [] := fun r hr => List.ne_nil_of_mem_splitBy hr
  rw [MergesRuns, mergeComments_eq_flatMap_pairs horder]
  generalize runs cs = rs at hnil
  constructor
  · intro h
    -- no run becomes fewer comments than one, so none becomes more
    have hle : ∀ rs : List (List Comment), (∀ r ∈ rs, r ≠ []) →
        (rs.flatMap mergeRun).length ≤ (rs.flatMap pairs).length := by
      intro rs
      induction rs with
      | nil => exact fun _ => le_rfl
      | cons r rs ih =>
        intro hnil
        obtain ⟨hr, hnil⟩ := List.forall_mem_cons.mp hnil
        rw [List.flatMap_cons, List.flatMap_cons, List.length_append, List.length_append,
          length_mergeRun hr]
        exact Nat.add_le_add (one_le_length_pairs hr) (ih hnil)
    induction rs with
    | nil => exact fun _ hr => absurd hr List.not_mem_nil
    | cons r rs ih =>
      obtain ⟨hr, hnil⟩ := List.forall_mem_cons.mp hnil
      rw [List.flatMap_cons, List.flatMap_cons] at h
      have hlen := congrArg List.length h
      rw [List.length_append, List.length_append, length_mergeRun hr] at hlen
      have hrest := hle rs hnil
      have hone := one_le_length_pairs hr
      obtain ⟨hhead, htail⟩ := List.append_inj h (by rw [length_mergeRun hr]; omega)
      exact List.forall_mem_cons.mpr ⟨(pairs_eq_mergeRun_iff hr).mp hhead, ih hnil htail⟩
  · intro h
    exact List.flatMap_congr fun r hr => (pairs_eq_mergeRun_iff (hnil r hr)).mpr (h r hr)

/-- Line comments on consecutive lines. -/
def commentLinesFrom (texts : List String) : List Comment :=
  texts.zipIdx.map fun t => ⟨lit t.1, t.2 + 1, 0, .line⟩

/-- Two comments become one. -/
theorem mergesRuns_iff_two : MergesRuns (commentLinesFrom ["one", "two"]) :=
  (mergesRuns_iff (by decide)).mpr (by decide)

/-- **The third comment of a run** begins a new one. -/
theorem not_mergesRuns : InSourceOrder (commentLinesFrom ["one", "two", "three"]) ∧
    ¬ MergesRuns (commentLinesFrom ["one", "two", "three"]) := by
  refine ⟨by decide, ?_⟩
  rw [MergesRuns]
  decide

end Extractor

end Csc512
