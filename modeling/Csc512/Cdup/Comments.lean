import Csc512.Cdup.ParseFile
import Csc512.Cdup.StatementCuts
import Csc512.Lib.OpenBlocks

/-!
# Comments in a source

A comment that is inserted at a cut of a source leaves the segments alone: the braces and the
parentheses stay what they are, the comment goes into one segment, and the splitter ends there a
statement that ends there anyway.

## Main results

* `segmentStmts_comment` — one comment at a cut
* `sameUpToSpace_of_commented` — comments at cuts leave the parsed file alone
-/

namespace Csc512

/-! ### The scanner of braces -/

namespace BraceScan

/-- The brackets of a text with the character `next` behind it, and the state at its end. -/
def runTo (S : BraceScan) : Text → Option Char → List (Option Bracket) × BraceScan
  | [], _ => ([], S)
  | c :: s, next =>
    let r := S.step c (s.head?.or next)
    let r' := runTo r.1 s next
    (r.2 :: r'.1, r'.2)

theorem run_append (S : BraceScan) (s t : Text) :
    S.run (s ++ t) = (S.runTo s t.head?).1 ++ (S.runTo s t.head?).2.run t := by
  induction s generalizing S with
  | nil => rfl
  | cons c s ih =>
    have hhead : (s ++ t).head? = s.head?.or t.head? := List.head?_append
    rw [List.cons_append, run, hhead, ih]
    rfl

theorem runTo_append (S : BraceScan) (s t : Text) (next : Option Char) :
    S.runTo (s ++ t) next
      = ((S.runTo s (t.head?.or next)).1 ++ ((S.runTo s (t.head?.or next)).2.runTo t next).1,
          ((S.runTo s (t.head?.or next)).2.runTo t next).2) := by
  induction s generalizing S with
  | nil => rfl
  | cons c s ih =>
    have hhead : (s ++ t).head?.or next = s.head?.or (t.head?.or next) := by
      rw [List.head?_append, Option.or_assoc]
    rw [List.cons_append, runTo, hhead, ih]
    rfl

theorem length_runTo (S : BraceScan) (s : Text) (next : Option Char) :
    (S.runTo s next).1.length = s.length := by
  induction s generalizing S with
  | nil => rfl
  | cons c s ih => exact congrArg (· + 1) (ih _)

/-- The state behind a character is code only where no mark of two characters begins. -/
theorem step_before_slash (S : BraceScan) (c : Char)
    (h : (S.step c (some '/')).1.mode = .code) (next : Option Char) :
    S.step c next = S.step c (some '/') := by
  have hmode : ∀ r : BraceScan × Option Bracket,
      (if c ∈ [' ', '\t', '\n', '\r'] then r
        else ({ r.1 with lastVisible := some c }, r.2)).1.mode = r.1.mode := by
    intro r
    split_ifs <;> rfl
  obtain ⟨mode, depth, last⟩ := S
  cases mode with
  | code =>
    have hslash : c ≠ '/' := by
      rintro rfl
      cases h
    have hstep : ∀ next, (⟨.code, depth, last⟩ : BraceScan).stepCode c next
        = (⟨.code, depth, last⟩ : BraceScan).stepCode c (some '/') := by
      intro next
      rw [stepCode, stepCode]
      simp only [hslash, false_and, if_false]
    rw [step, step]
    dsimp only
    rw [hstep]
  | blockComment =>
    have hstar : c ≠ '*' := by
      rintro rfl
      cases h
    rw [step, step]
    simp only [hstar, false_and, if_false]
  | _ => rfl

/-- What stands behind a place in code does not matter to the text before. -/
theorem runTo_before_slash (S : BraceScan) (s : Text)
    (h : (S.runTo s (some '/')).2.mode = .code) (next : Option Char) :
    S.runTo s next = S.runTo s (some '/') := by
  induction s generalizing S with
  | nil => rfl
  | cons c s ih =>
    cases s with
    | nil =>
      have hstep := step_before_slash S c h next
      show ([(S.step c next).2], (S.step c next).1) = ([(S.step c (some '/')).2], _)
      rw [hstep]
      rfl
    | cons d s =>
      have hrest := ih (S.step c (some d)).1 h
      show ((S.step c (some d)).2 :: ((S.step c (some d)).1.runTo (d :: s) next).1,
        ((S.step c (some d)).1.runTo (d :: s) next).2) = _
      rw [hrest]
      rfl

/-! ### Reading a comment -/

/-- The characters that are passed over in the search for the last visible one. -/
def isBlank (c : Char) : Bool := c ∈ [' ', '\t', '\n', '\r']

/-- The last visible character behind a text. -/
def lastVisibleOf (last : Option Char) (s : Text) : Option Char :=
  s.foldl (fun last c => if isBlank c then last else some c) last

theorem runTo_lineComment (depth : ℕ) (last : Option Char) {s : Text} (hs : ∀ c ∈ s, c ≠ '\n')
    (next : Option Char) :
    (⟨.lineComment, depth, last⟩ : BraceScan).runTo s next
      = (List.replicate s.length none, ⟨.lineComment, depth, lastVisibleOf last s⟩) := by
  induction s generalizing last with
  | nil => rfl
  | cons c s ih =>
    obtain ⟨hc, hs⟩ := List.forall_mem_cons.mp hs
    have hstep : (⟨.lineComment, depth, last⟩ : BraceScan).step c (s.head?.or next)
        = (⟨.lineComment, depth, if isBlank c then last else some c⟩, none) := by
      rw [step]
      simp only [hc, if_false, isBlank, decide_eq_true_eq]
      split_ifs <;> rfl
    rw [runTo, hstep]
    dsimp only
    rw [ih _ hs]
    rfl

theorem runTo_blockComment (depth : ℕ) (last : Option Char) {s : Text} {next : Char}
    (hs : ¬ ['*', '/'] <:+: s ++ [next]) :
    (⟨.blockComment, depth, last⟩ : BraceScan).runTo s (some next)
      = (List.replicate s.length none, ⟨.blockComment, depth, lastVisibleOf last s⟩) := by
  induction s generalizing last with
  | nil => rfl
  | cons c s ih =>
    have htail : ¬ ['*', '/'] <:+: s ++ [next] := fun h => hs (h.trans (List.suffix_cons c _).isInfix)
    have hnot : ¬ (c = '*' ∧ s.head?.or (some next) = some '/') := by
      rintro ⟨rfl, hnext⟩
      refine hs ?_
      cases s with
      | nil =>
        obtain rfl : next = '/' := Option.some.inj hnext
        exact List.infix_rfl
      | cons d s =>
        obtain rfl : d = '/' := Option.some.inj hnext
        exact ⟨[], s ++ [next], rfl⟩
    have hstep : (⟨.blockComment, depth, last⟩ : BraceScan).step c (s.head?.or (some next))
        = (⟨.blockComment, depth, if isBlank c then last else some c⟩, none) := by
      rw [step]
      simp only [hnot, if_false, isBlank, decide_eq_true_eq]
      split_ifs <;> rfl
    rw [runTo, hstep]
    dsimp only
    rw [ih _ htail]
    rfl

/-- A comment shows no bracket. -/
theorem runTo_comment (depth : ℕ) (last : Option Char) {k : Text} (hk : IsComment k)
    (next : Option Char) :
    (⟨.code, depth, last⟩ : BraceScan).runTo k next
      = (List.replicate k.length none, ⟨.code, depth, lastVisibleOf last k⟩) := by
  cases hk with
  | block body h =>
    have hbody := runTo_blockComment depth (some '*') h
    have hrest : (⟨.blockComment, depth, some '*'⟩ : BraceScan).runTo (body ++ ['*', '/']) next
        = (List.replicate (body.length + 2) none, ⟨.code, depth, some '/'⟩) := by
      rw [runTo_append]
      show (((⟨.blockComment, depth, some '*'⟩ : BraceScan).runTo body (some '*')).1 ++ _, _) = _
      rw [show (['*', '/'].head?.or next) = some '*' from rfl, hbody, List.replicate_add]
      rfl
    have hlast : lastVisibleOf last (blockComment body) = some '/' := by
      simp [lastVisibleOf, blockComment, isBlank]
    have hlength : (blockComment body).length = body.length + 2 + 2 := by simp [blockComment]
    rw [hlast, hlength]
    show (none :: none :: ((⟨.blockComment, depth, some '*'⟩ : BraceScan).runTo
        (body ++ ['*', '/']) next).1,
      ((⟨.blockComment, depth, some '*'⟩ : BraceScan).runTo (body ++ ['*', '/']) next).2) = _
    rw [hrest]
    rfl
  | line body h =>
    have hbody := runTo_lineComment depth (some '/') h (some '\n')
    have hrest : (⟨.lineComment, depth, some '/'⟩ : BraceScan).runTo (body ++ ['\n']) next
        = (List.replicate (body.length + 1) none,
            ⟨.code, depth, lastVisibleOf (some '/') body⟩) := by
      rw [runTo_append]
      show (((⟨.lineComment, depth, some '/'⟩ : BraceScan).runTo body (some '\n')).1 ++ _, _) = _
      rw [show (['\n'].head?.or next) = some '\n' from rfl, hbody, List.replicate_add]
      rfl
    have hlast : lastVisibleOf last (lineComment body) = lastVisibleOf (some '/') body := by
      simp [lastVisibleOf, lineComment, isBlank]
    have hlength : (lineComment body).length = body.length + 1 + 2 := by simp [lineComment]
    rw [hlast, hlength]
    show (none :: none :: ((⟨.lineComment, depth, some '/'⟩ : BraceScan).runTo
        (body ++ ['\n']) next).1,
      ((⟨.lineComment, depth, some '/'⟩ : BraceScan).runTo (body ++ ['\n']) next).2) = _
    rw [hrest]
    rfl

/-- The first visible character of a text. -/
def firstVisible (s : Text) : Option Char := (s.dropWhile isBlank).head?

/-- The last visible character before a text matters only if the text begins with an opening
brace. -/
theorem run_lastVisible (depth : ℕ) {last last' : Option Char} {s : Text}
    (h : firstVisible s = some '{' → (last = some '=' ↔ last' = some '=')) :
    (⟨.code, depth, last⟩ : BraceScan).run s = (⟨.code, depth, last'⟩ : BraceScan).run s := by
  induction s with
  | nil => rfl
  | cons c s ih =>
    by_cases hblank : isBlank c
    · have hstep : ∀ last next, (⟨.code, depth, last⟩ : BraceScan).step c next
          = (⟨.code, depth, last⟩, none) := by
        intro last next
        have hc : c = ' ' ∨ c = '\t' ∨ c = '\n' ∨ c = '\r' := by
          simpa [isBlank] using hblank
        rcases hc with rfl | rfl | rfl | rfl <;> rfl
      have hfirst : firstVisible (c :: s) = firstVisible s := by
        rw [firstVisible, List.dropWhile_cons_of_pos hblank]
        rfl
      rw [run, run, hstep, hstep, ih (hfirst ▸ h)]
    · have hfirst : firstVisible (c :: s) = some c := by
        rw [firstVisible, List.dropWhile_cons_of_neg hblank]
        rfl
      have hstep : ∀ next, (⟨.code, depth, last⟩ : BraceScan).step c next
          = (⟨.code, depth, last'⟩ : BraceScan).step c next := by
        intro next
        have hnot : ¬ c ∈ [' ', '\t', '\n', '\r'] := by simpa [isBlank] using hblank
        rw [step, step]
        dsimp only
        rw [if_neg hnot, if_neg hnot, stepCode, stepCode]
        by_cases hbrace : c = '{'
        · have hlast := h (by rw [hfirst, hbrace])
          simp only [hbrace, hlast]
          split_ifs <;> rfl
        · simp only [hbrace, if_false]
          split_ifs <;> rfl
      rw [run, run, hstep]

/-- Does a brace behind a place count alike with and without a comment there? -/
def BraceKept (before comment after : Text) : Prop :=
  firstVisible after = some '{' →
    ((({} : BraceScan).runTo before (some '/')).2.lastVisible = some '=' ↔
      lastVisibleOf none comment = some '=')

end BraceScan

/-- The brackets of a source with a comment are those of the source without it. -/
theorem scanBrackets_comment {before k after : Text} (hk : IsComment k)
    (hcode : (({} : BraceScan).runTo before (some '/')).2.mode = .code)
    (hbrace : BraceScan.BraceKept before k after) :
    ∃ front back, front.length = before.length ∧
      scanBrackets (before ++ after) = front ++ back ∧
      scanBrackets (before ++ k ++ after) = front ++ List.replicate k.length none ++ back := by
  have hbefore := BraceScan.runTo_before_slash {} before hcode
  have hlength := BraceScan.length_runTo {} before (some '/')
  obtain ⟨⟨front, mode, depth, last⟩, hR⟩ : ∃ r, ({} : BraceScan).runTo before (some '/') = r :=
    ⟨_, rfl⟩
  rw [hR] at hcode hlength
  obtain rfl : mode = .code := hcode
  have hlast : BraceScan.lastVisibleOf last k = BraceScan.lastVisibleOf none k := by
    cases hk <;> rfl
  refine ⟨front, (⟨.code, depth, last⟩ : BraceScan).run after, hlength, ?_, ?_⟩
  · rw [scanBrackets, BraceScan.run_append, hbefore, hR]
  · have hcomment := BraceScan.runTo_comment depth last hk after.head?
    have hafter : (⟨.code, depth, BraceScan.lastVisibleOf last k⟩ : BraceScan).run after
        = (⟨.code, depth, last⟩ : BraceScan).run after := by
      refine BraceScan.run_lastVisible depth fun hfirst => ?_
      have hkept := hbrace hfirst
      rw [hR] at hkept
      rw [hlast]
      exact hkept.symm
    rw [scanBrackets, List.append_assoc, BraceScan.run_append, hbefore, hR, BraceScan.run_append,
      hcomment, hafter, List.append_assoc]

/-! ### Pairs and parents -/

theorem length_openIdx (base : ℕ) (marks : List (Option Brace)) :
    (openIdx base marks).length = (braceSeq marks).count .opening ∧
      (clsIdx base marks).length = (braceSeq marks).count .closing := by
  induction marks generalizing base with
  | nil => exact ⟨rfl, rfl⟩
  | cons mark marks ih =>
    obtain ⟨hopen, hcls⟩ := ih (base + 1)
    cases mark with
    | none => exact ⟨hopen, hcls⟩
    | some brace =>
      cases brace with
      | opening =>
        refine ⟨?_, ?_⟩
        · show (openIdx (base + 1) marks).length + 1 = (Brace.opening :: braceSeq marks).count _
          rw [hopen, List.count_cons_self]
        · show (clsIdx (base + 1) marks).length = (Brace.opening :: braceSeq marks).count _
          rw [hcls, List.count_cons_of_ne (by decide)]
      | closing =>
        refine ⟨?_, ?_⟩
        · show (openIdx (base + 1) marks).length = (Brace.closing :: braceSeq marks).count _
          rw [hopen, List.count_cons_of_ne (by decide)]
        · show (clsIdx (base + 1) marks).length + 1 = (Brace.closing :: braceSeq marks).count _
          rw [hcls, List.count_cons_self]

/-- The number of pairs does not depend on the positions. -/
theorem length_pairOpnClsFrom {stack stack' : List ℕ} (seq : List Brace) {os os' cs cs' : List ℕ}
    (hstack : stack.length = stack'.length) (hos : os.length = os'.length)
    (hcs : cs.length = cs'.length) :
    (pairOpnClsFrom stack seq os cs).map List.length
      = (pairOpnClsFrom stack' seq os' cs').map List.length := by
  induction seq generalizing stack stack' os os' cs cs' with
  | nil => simp [pairOpnClsFrom]
  | cons brace seq ih =>
    cases brace with
    | opening =>
      rcases os with _ | ⟨o, os⟩ <;> rcases os' with _ | ⟨o', os'⟩
      · simp [pairOpnClsFrom]
      · cases hos
      · cases hos
      · rw [pairOpnClsFrom, pairOpnClsFrom]
        exact ih (congrArg (· + 1) hstack) (Nat.succ.inj hos) hcs
    | closing =>
      rcases stack with _ | ⟨o, stack⟩ <;> rcases stack' with _ | ⟨o', stack'⟩
      · simp [pairOpnClsFrom]
      · cases hstack
      · cases hstack
      · rcases cs with _ | ⟨c, cs⟩ <;> rcases cs' with _ | ⟨c', cs'⟩
        · simp [pairOpnClsFrom]
        · cases hcs
        · cases hcs
        · have hrest := ih (Nat.succ.inj hstack) hos (Nat.succ.inj hcs)
          rw [pairOpnClsFrom, pairOpnClsFrom]
          revert hrest
          cases pairOpnClsFrom stack seq os cs <;> cases pairOpnClsFrom stack' seq os' cs' <;>
            simp

/-- The parents and the number of the pairs depend on the sequence of the marks only. -/
theorem pairMarks_congr {marks marks' : List (Option Brace)}
    (h : braceSeq marks = braceSeq marks') :
    (pairMarks marks).map (fun p => (p.1.length, p.2))
      = (pairMarks marks').map fun p => (p.1.length, p.2) := by
  have hpairs := length_pairOpnClsFrom (braceSeq marks') (rfl : ([] : List ℕ).length = _)
    ((length_openIdx 0 marks).1.trans (h ▸ (length_openIdx 0 marks').1.symm))
    ((length_openIdx 0 marks).2.trans (h ▸ (length_openIdx 0 marks').2.symm))
  rw [pairMarks, pairMarks, h, pairOpnCls, pairOpnCls]
  cases hfound : pairOpnClsFrom [] (braceSeq marks') (openIdx 0 marks) (clsIdx 0 marks) with
  | none =>
    rw [hfound, Option.map_none] at hpairs
    rw [Option.map_eq_none_iff.mp hpairs.symm]
  | some pairs =>
    rw [hfound, Option.map_some] at hpairs
    obtain ⟨pairs', hfound', hlength⟩ := Option.map_eq_some_iff.mp hpairs.symm
    rw [hfound']
    cases findNestedPairs (braceSeq marks') with
    | none => rfl
    | some parents =>
      have hsort : (sortPairs pairs).length = (sortPairs pairs').length := by
        rw [sortPairs, sortPairs, List.length_insertionSort, List.length_insertionSort, hlength]
      show some ((sortPairs pairs).length, parents) = some ((sortPairs pairs').length, parents)
      rw [hsort]

theorem parentsInRange_congr {pairs pairs' : List (ℕ × ℕ)} (parents : List ℕ)
    (h : pairs.length = pairs'.length) :
    parentsInRange pairs parents = parentsInRange pairs' parents := by
  rw [parentsInRange, parentsInRange, h]

/-! ### Segments -/

/-- The statements of a source whose braces match. -/
theorem segmentStmts_braced (opts : Includes) {file : Text} {t : Braced Char}
    (hsource : t.source = file) (hmarks : t.marks = braceMarks (scanBrackets file)) :
    segmentStmts opts file
      = (pairMarks (parenMarks (scanBrackets file))).bind fun p =>
        if parentsInRange ((t.blocks none 0 0).map Block.span)
            ((t.blocks none 0 0).map Block.parent) ∧ parentsInRange p.1 p.2 then
          some {
            pairs := (t.blocks none 0 0).map Block.span
            parents := 0 :: ((t.blocks none 0 0).map Block.parent).zipIdx.map fun q =>
              if q.1 = q.2 then 0 else q.1 + 1
            stmts := t.segs.map fun seg => parseStatements opts (cleanSegment seg) }
        else none := by
  have hcut := parseCodeSegs_braced t
  rw [segmentStmts, text_self, ← hmarks, pairMarks_braced, ← hsource]
  simp only [Option.bind_some, hcut]
  rfl

/-- A source with the marks of its braces. -/
def markedSource (file : Text) : MarkedText Char := file.zip (braceMarks (scanBrackets file))

/-- **A place for a comment.** The comment is one that both scanners see alike, the place is outside
comments and literals, the braces of the source match and that behind the place does not count
otherwise with the comment, and the place is a cut of the block that is open there. -/
structure IsCommentPlace (opts : Includes) (before k after : Text) : Prop where
  comment : IsPlainComment k
  code : (({} : BraceScan).runTo before (some '/')).2.mode = .code
  brace : BraceScan.BraceKept before k after
  balanced : Balanced (braceMarks (scanBrackets (before ++ after)))
  cut : IsCut opts (textSoFar ((markedSource (before ++ after)).take before.length))
    (restOfBlock ((markedSource (before ++ after)).drop before.length))

theorem IsPlainComment.isComment {k : Text} (h : IsPlainComment k) : IsComment k := by
  cases h with
  | block body h => exact .block body fun hadjacent => h (hadjacent.trans (List.suffix_cons _ _).isInfix)
  | line body h =>
    refine .line body fun c hc => ?_
    rintro rfl
    exact h _ hc rfl

/-- **One comment** at its place leaves the segments and their statements alone. -/
theorem segmentStmts_comment {opts : Includes} (hopts : opts.comments = false)
    {before k after : Text} (h : IsCommentPlace opts before k after) :
    (segmentStmts opts (before ++ k ++ after)).map (fun P => (P.parents, P.stmts))
      = (segmentStmts opts (before ++ after)).map fun P => (P.parents, P.stmts) := by
  obtain ⟨front, back, hfront, hwithout, hwith⟩ :=
    scanBrackets_comment h.comment.isComment h.code h.brace
  have hback : back.length = after.length := by
    have hlength := length_run {} (before ++ after)
    rw [← scanBrackets, hwithout, List.length_append, List.length_append, hfront] at hlength
    omega
  have hbraces : braceMarks (scanBrackets (before ++ after)) = braceMarks front ++ braceMarks back := by
    rw [hwithout, braceMarks, List.map_append]
    rfl
  have hbraces' : braceMarks (scanBrackets (before ++ k ++ after))
      = braceMarks front ++ List.replicate k.length none ++ braceMarks back := by
    rw [hwith, braceMarks, List.map_append, List.map_append, List.map_replicate]
    rfl
  have hlenFront : (braceMarks front).length = before.length := by
    rw [braceMarks, List.length_map, hfront]
  have hlenBack : (braceMarks back).length = after.length := by
    rw [braceMarks, List.length_map, hback]
  have hmarked : markedSource (before ++ after)
      = before.zip (braceMarks front) ++ after.zip (braceMarks back) := by
    rw [markedSource, hbraces, List.zip_append hlenFront.symm]
  have hlenZip : (before.zip (braceMarks front)).length = before.length := by
    rw [List.length_zip, hlenFront, Nat.min_self]
  have hcut := h.cut
  have hbalanced := h.balanced
  rw [hmarked, ← hlenZip, List.take_left, List.drop_left] at hcut
  obtain ⟨pre, post, htree⟩ := Braced.exists_braced_around (before.zip (braceMarks front))
    (after.zip (braceMarks back)) (by
      rw [List.map_append, List.map_snd_zip hlenFront.le, List.map_snd_zip hlenBack.le, ← hbraces]
      exact hbalanced)
  rw [List.map_fst_zip hlenFront.ge, List.map_fst_zip hlenBack.ge, List.map_snd_zip hlenFront.le,
    List.map_snd_zip hlenBack.le] at htree
  obtain ⟨t, hsource, hmarks, hsegs⟩ := htree k
  obtain ⟨t₀, hsource₀, hmarks₀, hsegs₀⟩ := htree []
  rw [List.append_nil] at hsource₀ hsegs₀
  rw [List.length_nil, List.replicate_zero, List.append_nil, ← hbraces] at hmarks₀
  rw [← hbraces'] at hmarks
  -- the parents
  have hseq : ∀ a b : List (Option Brace),
      braceSeq (a ++ List.replicate k.length none ++ b) = braceSeq (a ++ b) := by
    intro a b
    have hnone : braceSeq (List.replicate k.length none) = [] := by
      rw [braceSeq, List.filterMap_replicate_of_none rfl]
    rw [braceSeq_append, braceSeq_append, braceSeq_append, hnone, List.append_nil]
  have hparents : (t.blocks none 0 0).map Block.parent = (t₀.blocks none 0 0).map Block.parent := by
    have hfound := findNestedPairs_braced t
    rw [hmarks, hbraces', hseq, ← hbraces, ← hmarks₀, findNestedPairs_braced t₀] at hfound
    exact (Option.some.inj hfound).symm
  have hlength : ((t.blocks none 0 0).map Block.span).length
      = ((t₀.blocks none 0 0).map Block.span).length := by
    have hlen := congrArg List.length hparents
    rwa [List.length_map, List.length_map] at hlen ⊢
  have hparens : braceSeq (parenMarks (scanBrackets (before ++ k ++ after)))
      = braceSeq (parenMarks (scanBrackets (before ++ after))) := by
    have hnone : ∀ n, parenMarks (List.replicate n none) = List.replicate n none := fun n =>
      List.map_replicate
    have happend : ∀ a b, parenMarks (a ++ b) = parenMarks a ++ parenMarks b := fun a b =>
      List.map_append
    rw [hwith, hwithout, happend, happend, happend, hnone, hseq]
  -- the statements
  have hstmts : t.segs.map (fun seg => parseStatements opts (cleanSegment seg))
      = t₀.segs.map fun seg => parseStatements opts (cleanSegment seg) := by
    rw [hsegs, hsegs₀, List.map_append, List.map_append, List.map_cons, List.map_cons,
      parseStatements_comment hopts hcut h.comment]
  rw [segmentStmts_braced opts hsource hmarks, segmentStmts_braced opts hsource₀ hmarks₀, hstmts,
    hparents, parentsInRange_congr _ hlength]
  have hpairs := pairMarks_congr hparens
  cases hfound : pairMarks (parenMarks (scanBrackets (before ++ k ++ after))) with
  | none =>
    rw [hfound, Option.map_none] at hpairs
    rw [Option.map_eq_none_iff.mp hpairs.symm]
    rfl
  | some p =>
    rw [hfound, Option.map_some] at hpairs
    obtain ⟨p', hfound', heq⟩ := Option.map_eq_some_iff.mp hpairs.symm
    obtain ⟨hlen, hparents'⟩ := Prod.mk.inj heq
    rw [hfound', Option.bind_some, Option.bind_some, hparents', parentsInRange_congr p.2 hlen]
    split_ifs <;> rfl

/-! ### Parsed files -/

variable (U : CharTable)

theorem ownedDescendants_congr (pairs pairs' : List (ℕ × ℕ)) (parents : List ℕ)
    (stmts : List (List Text)) (fuel i : ℕ) :
    ownedDescendants ⟨pairs, parents, stmts⟩ fuel i
      = ownedDescendants ⟨pairs', parents, stmts⟩ fuel i := by
  induction fuel generalizing i with
  | zero => rfl
  | succ fuel ih =>
    rw [ownedDescendants, ownedDescendants]
    simp only [ih]
    rfl

/-- The positions of the braces do not reach the segments. -/
theorem buildSegments_congr {P P' : SegmentStmts Char}
    (h : (P.parents, P.stmts) = (P'.parents, P'.stmts)) :
    buildSegments U P = buildSegments U P' := by
  obtain ⟨pairs, parents, stmts⟩ := P
  obtain ⟨pairs', parents', stmts'⟩ := P'
  obtain ⟨hparents, hstmts⟩ := Prod.mk.inj h
  obtain rfl : parents = parents' := hparents
  obtain rfl : stmts = stmts' := hstmts
  have hsegment : ∀ i segments, buildSegment U ⟨pairs, parents, stmts⟩ i segments
      = buildSegment U ⟨pairs', parents, stmts⟩ i segments := by
    intro i segments
    rw [buildSegment, buildSegment, ownedDescendants_congr pairs pairs']
    rfl
  rw [buildSegments, buildSegments]
  simp only [hsegment]

theorem parseCFile_comment {opts : Includes} (hopts : opts.comments = false)
    {before k after : Text} (h : IsCommentPlace opts before k after) :
    parseCFile U opts (before ++ k ++ after) = parseCFile U opts (before ++ after) := by
  have hsame := segmentStmts_comment hopts h
  rw [parseCFile, parseCFile]
  cases hwith : segmentStmts opts (before ++ k ++ after) with
  | none =>
    rw [hwith, Option.map_none] at hsame
    rw [Option.map_eq_none_iff.mp hsame.symm]
  | some P =>
    rw [hwith, Option.map_some] at hsame
    obtain ⟨P', hwithout, heq⟩ := Option.map_eq_some_iff.mp hsame.symm
    rw [hwithout, Option.map_some, Option.map_some, buildSegments_congr U heq]

/-- What a segment is, with the texts of its statements without white space. -/
structure InkedSegment where
  id : ℕ
  parent : ℕ
  type : SegType
  name : Text
  stmts : List Text
deriving DecidableEq

/-- Forget the white space inside the statements of a segment. -/
def Segment.inked (seg : Segment) : InkedSegment :=
  { id := seg.id
    parent := seg.parent
    type := seg.type
    name := seg.name
    stmts := seg.stmts.map fun stmt => stmt.raw.filter fun c => !isSpace c }

/-- What two parsed files have in common that differ in white space inside statements. -/
def SameUpToSpace (r r' : Option (List Segment)) : Prop :=
  r.map (·.map Segment.inked) = r'.map (·.map Segment.inked)

instance (r r' : Option (List Segment)) : Decidable (SameUpToSpace r r') :=
  inferInstanceAs (Decidable (r.map (·.map Segment.inked) = r'.map (·.map Segment.inked)))

/-- Insert a comment at a place for one. -/
def CommentInserted (opts : Includes) (s s' : Text) : Prop :=
  ∃ before k after, s = before ++ after ∧ s' = before ++ k ++ after ∧
    IsCommentPlace opts before k after

/-- A comment at the beginning of a block. -/
theorem commentInserted_plain : CommentInserted {} (lit "int f() \x7b x = 1; \x7d")
    (lit "int f() \x7b/* c */ x = 1; \x7d") := by
  refine ⟨lit "int f() \x7b", lit "/* c */", lit " x = 1; \x7d", by decide +kernel,
    by decide +kernel, ?_, rfl, fun h => absurd h (by decide +kernel), by decide +kernel,
    ⟨rfl, by decide +kernel⟩, Or.inl (by decide +kernel)⟩
  exact .block (lit " c ") (by decide +kernel)

/-- Is a place next to white space, outside comments and literals? -/
def IsBetweenTokens (before after : Text) : Prop :=
  (({} : BraceScan).runTo before (some '/')).2.mode = .code ∧
    ((∃ c ∈ before.getLast?, isSpace c) ∨ ∃ c ∈ after.head?, isSpace c)

/-- Is a place in a preprocessor line? -/
def IsInDirective (before : Text) : Prop :=
  startsWith (lstrip (before.rtakeWhile (· ≠ '\n'))) (lit "#")

instance (before : Text) : Decidable (IsInDirective before) :=
  inferInstanceAs (Decidable (_ = true))

/-- Insert a comment between two tokens. -/
def InsertsComment (s s' : Text) : Prop :=
  ∃ before k after, s = before ++ after ∧ s' = before ++ k ++ after ∧ IsComment k ∧
    IsBetweenTokens before after ∧ ¬ IsInDirective before

end Csc512
