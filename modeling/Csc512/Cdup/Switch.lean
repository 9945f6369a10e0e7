import Csc512.Cdup.BranchChain
import Csc512.Cdup.Pairing
import Csc512.Cdup.StoreText

/-!
# `switch` statements

The interpreter runs the block of a `switch` as it runs the block of an `if` that is taken. A
statement behind a `case` counts as a branch without a block, and one behind `default` as an
expression, so that no statement behind a label is ever executed; and a `break` without a label
leaves the loop around the `switch`.

## Main results

* `classify_default` — what stands behind `default` is an expression that stores nothing
* `runsAsC_iff` — when a `switch` runs as in C
* `not_runsAsC` — `case 1: x = 1; break;` does nothing but end the loop around it
-/

namespace Csc512

open Exec

/-! ### Bodies of `switch` statements -/

/-- A label. -/
inductive SwitchLabel where
  | case (k : ℤ)
  | default
deriving DecidableEq, Repr

/-- The text of a label. -/
def SwitchLabel.text : SwitchLabel → Text
  | case k => lit "case " ++ (intText k ++ lit ": ")
  | default => lit "default: "

/-- A simple statement or a `break`, with the labels before it. -/
structure SwitchItem where
  labels : List SwitchLabel
  stmt : Option Text
deriving DecidableEq, Repr

namespace SwitchItem

/-- The text of a simple statement or a `break`, with the labels before it. -/
def text (item : SwitchItem) : Text :=
  item.labels.foldr (fun l s => l.text ++ s) (item.stmt.getD (lit "break;"))

/-- What stands from a label on. -/
def fromLabel (l : SwitchLabel) : List SwitchItem → List SwitchItem
  | [] => []
  | item :: items => if l ∈ item.labels then item :: items else fromLabel l items

/-- The items that C runs where the expression of the `switch` has some value. -/
def selected (v : ℤ) (items : List SwitchItem) : List SwitchItem :=
  let found := fromLabel (.case v) items
  (if found = [] then fromLabel .default items else found).takeWhile fun item => item.stmt.isSome

/-- The statements that C executes. -/
def executed (v : ℤ) (items : List SwitchItem) : List Text :=
  (selected v items).filterMap SwitchItem.stmt

/-- The statements that stand without a label. -/
def unlabelled (items : List SwitchItem) : List Text :=
  (items.filter fun item => item.labels = []).filterMap SwitchItem.stmt

theorem mem_of_mem_fromLabel {l : SwitchLabel} {items : List SwitchItem} {item : SwitchItem}
    (h : item ∈ fromLabel l items) : item ∈ items := by
  induction items with
  | nil => exact h
  | cons i items ih =>
    rw [fromLabel] at h
    split_ifs at h
    · exact h
    · exact List.mem_cons_of_mem _ (ih h)

theorem exists_of_mem_executed {v : ℤ} {items : List SwitchItem} {s : Text}
    (h : s ∈ executed v items) : ∃ item ∈ items, item.stmt = some s := by
  obtain ⟨item, hitem, hs⟩ := List.mem_filterMap.mp h
  have hfound := (List.takeWhile_sublist _).subset hitem
  refine ⟨item, ?_, hs⟩
  split_ifs at hfound
  · exact mem_of_mem_fromLabel hfound
  · exact mem_of_mem_fromLabel hfound

end SwitchItem

/-- The text of a `switch` statement, with a placeholder for its block. -/
def switchText (e : Text) : Text := lit "switch (" ++ e ++ lit ") {}"

/-! ### Texts with labels -/

/-- Trimming stops at a visible character. -/
theorem rdropWhile_append_cons {α : Type*} (p : α → Bool) (l r : List α) {x : α} (hx : ¬ p x) :
    (l ++ x :: r).rdropWhile p = l ++ x :: r.rdropWhile p := by
  induction r using List.reverseRecOn with
  | nil => rw [List.rdropWhile_nil, List.rdropWhile_concat_neg _ _ _ hx]
  | append_singleton r y ih =>
    by_cases hy : p y
    · rw [← List.cons_append, ← List.append_assoc, List.rdropWhile_concat_pos _ _ _ hy,
        List.rdropWhile_concat_pos _ _ _ hy, ih]
    · rw [← List.cons_append, ← List.append_assoc, List.rdropWhile_concat_neg _ _ _ hy,
        List.rdropWhile_concat_neg _ _ _ hy, List.append_assoc, List.cons_append]

/-- What stands before a visible character is left alone when a statement is trimmed. -/
theorem exists_bareStmt_append {c x : Char} (hc : ¬ isSpace c) (hx : ¬ isSpace x) (hne : x ≠ ';')
    (s r : Text) : ∃ r', bareStmt (c :: s ++ x :: r) = c :: s ++ x :: r' := by
  have hstrip : ∀ r, strip (c :: s ++ x :: r) = c :: s ++ x :: rstrip r := by
    intro r
    rw [strip, List.cons_append, lstrip_cons hc, ← List.cons_append]
    exact rdropWhile_append_cons _ (c :: s) r hx
  refine ⟨rstrip (rstripChar ';' (rstrip r)), ?_⟩
  rw [bareStmt, hstrip, rstripChar, rdropWhile_append_cons _ (c :: s) _ (by simpa using hne), hstrip]
  rfl

theorem exists_firstWord_append {w : Text} (hne : w ≠ []) (hw : ∀ c ∈ w, ¬ isSpace c) (r : Text) :
    ∃ v, firstWord (w ++ r) = w ++ v := by
  have hsplit : ∃ v t, (w ++ r).splitOnP (fun c : Char => isSpace c) = (w ++ v) :: t := by
    clear hne
    induction w with
    | nil =>
      obtain ⟨v, t, h⟩ := List.exists_cons_of_ne_nil
        (List.splitOnP_ne_nil (fun c : Char => isSpace c) r)
      exact ⟨v, t, h⟩
    | cons c w ih =>
      obtain ⟨v, t, h⟩ := ih fun d hd => hw d (List.mem_cons_of_mem _ hd)
      refine ⟨v, t, ?_⟩
      rw [List.cons_append, List.splitOnP_cons_eq_if_modifyHead, if_neg (by simpa using hw c List.mem_cons_self), h]
      rfl
  obtain ⟨v, t, h⟩ := hsplit
  refine ⟨v, ?_⟩
  obtain ⟨c, w, rfl⟩ := List.exists_cons_of_ne_nil hne
  show (((_ : Text).splitOnP fun c : Char => isSpace c).filter _).headD [] = _
  rw [h]
  rfl

section Labels

variable {U : CharTable} {known udtVars : List Text}

/-- A statement behind a `case` counts as a branch. -/
theorem kind_case (k : ℤ) (s : Text) :
    (classifyStatement U known udtVars (SwitchLabel.text (.case k) ++ s)).kind = .branch := by
  have htext : ∀ r : Text, 'c' :: (lit "ase " ++ intText k) ++ ':' :: r
      = lit "case" ++ ' ' :: (intText k ++ ':' :: r) := fun r => by simp [lit]
  have hlabel : SwitchLabel.text (.case k) ++ s = lit "case " ++ (intText k ++ lit ": ") ++ s := rfl
  have hcons : lit "case " ++ (intText k ++ lit ": ") ++ s
      = 'c' :: (lit "ase " ++ intText k) ++ ':' :: (' ' :: s) := by
    rw [List.append_assoc, List.append_assoc, List.cons_append, List.append_assoc]
    rfl
  obtain ⟨r, hbare⟩ := exists_bareStmt_append (by decide : ¬ isSpace 'c') (by decide : ¬ isSpace ':')
    (by decide) (lit "ase " ++ intText k) (' ' :: s)
  refine kind_of_branchKeyword ?_
  rw [hlabel, hcons, hbare, htext, firstWord_append (by decide)]
  decide

/-- The first operator of an assignment behind `default` stands behind the label. -/
theorem classifyAssignOp_default {raw r op : Text} (hop : op ∈ assignOps) :
    classifyAssignOp U known udtVars raw (lit "default" ++ ':' :: r) op = none := by
  have hcolon : ∀ op ∈ assignOps, ':' ∉ op ∧ cut op (lit "default") = none := by decide
  obtain ⟨hmem, hcut⟩ := hcolon op hop
  rw [classifyAssignOp, cut_append_stop hmem hcut, Option.bind_map]
  refine Option.bind_eq_none_iff.mpr fun p _ => ?_
  dsimp only [Function.comp_apply]
  rw [if_neg (by simp [lit])]
  have hstrip : strip (lit "default" ++ ':' :: p.1) = lit "default" ++ ':' :: rstrip p.1 := by
    rw [strip]
    exact rdropWhile_append_cons _ (lit "default") p.1 (by decide)
  have hmember : (memberPattern U memberSep).fullMatch (lit "default" ++ ':' :: rstrip p.1) = none := by
    have hword : isWordChar U ':' = false :=
      isWordChar_eq_false U (by decide) (by decide) (by decide)
    refine Pattern.fullMatch_eq_none (x := ':') ?_ (by simp)
    simp [memberPattern, memberSep, identPattern, Pattern.seqs, Pattern.literal, Pattern.one,
      Pattern.avoids, lit, hword, isIdentStart]
  have hident : identPrefix U (lit "default" ++ ':' :: rstrip p.1)
      = some (lit "default", ':' :: rstrip p.1) := by
    refine identPrefix_append U (by decide) fun c hc => ?_
    obtain rfl : ':' = c := by simpa using hc
    exact isWordChar_eq_false U (by decide) (by decide) (by decide)
  rw [hstrip, hmember, hident]

/-- What stands behind `default` is trimmed behind the label. -/
theorem exists_bareStmt_default (s : Text) :
    ∃ r, bareStmt (SwitchLabel.text .default ++ s) = lit "default" ++ ':' :: r :=
  exists_bareStmt_append (by decide : ¬ isSpace 'd') (by decide : ¬ isSpace ':') (by decide)
    (lit "efault") (' ' :: s)

/-- A statement behind `default` counts as an expression. -/
theorem kind_default (hknown : ∀ w ∈ known, isIdentifier w = true) (s : Text) :
    (classifyStatement U known udtVars (SwitchLabel.text .default ++ s)).kind = .expr := by
  obtain ⟨r, hbare⟩ := exists_bareStmt_default s
  generalize SwitchLabel.text .default ++ s = raw at hbare ⊢
  obtain ⟨v, hword⟩ : ∃ v, firstWord (bareStmt raw) = lit "default" ++ ':' :: v := by
    obtain ⟨v, hv⟩ := exists_firstWord_append (w := lit "default:") (by decide) (by decide) r
    exact ⟨v, hbare ▸ hv⟩
  have hcolon : ':' ∈ firstWord (bareStmt raw) := by
    rw [hword]
    exact List.mem_append_right _ List.mem_cons_self
  have hkeyword : ∀ ws ∈ [loopKeywords, controlKeywords, branchKeywords],
      firstWord (bareStmt raw) ∉ ws := by
    have hnone : ∀ ws ∈ [loopKeywords, controlKeywords, branchKeywords], ∀ w ∈ ws, ':' ∉ w := by
      decide
    exact fun ws hws hmem => hnone ws hws _ hmem hcolon
  have htype : rstripChar '*' (firstWord (bareStmt raw)) ∉ known := by
    intro hmem
    refine ne_of_mem_identifier (hknown _ hmem) (x := ':') (by decide) (by decide) ?_
    rw [hword, rstripChar, rdropWhile_append_cons _ (lit "default") v (by decide)]
    exact List.mem_append_right _ List.mem_cons_self
  rw [classifyStatement, if_neg (hkeyword controlKeywords (by simp)), if_neg (hkeyword branchKeywords (by simp))]
  split_ifs with hblock
  · rw [classifyBlock, if_neg (hkeyword loopKeywords (by simp)),
      if_neg (hkeyword branchKeywords (by simp)), funcDecl?, if_neg htype]
  · have hdecl : classifyDecl U known udtVars raw (bareStmt raw) = none := by
      rw [classifyDecl, if_neg htype]
    have hassign : assignOps.findSome? (classifyAssignOp U known udtVars raw (bareStmt raw))
        = none := by
      rw [List.findSome?_eq_none_iff, hbare]
      exact fun op hop => classifyAssignOp_default hop
    have hident : identPrefix U (lit "default" ++ ':' :: r) = some (lit "default", ':' :: r) := by
      refine identPrefix_append U (by decide) fun c hc => ?_
      obtain rfl : ':' = c := by simpa using hc
      exact isWordChar_eq_false U (by decide) (by decide) (by decide)
    have hcall : classifyCall U known udtVars raw (bareStmt raw) = none := by
      rw [classifyCall, hbare, hident]
      split_ifs <;> rfl
    have hstep : classifyStep U raw (bareStmt raw) = none := by
      have hword : isWordChar U ':' = false :=
        isWordChar_eq_false U (by decide) (by decide) (by decide)
      have hmem : ':' ∈ bareStmt raw := by
        rw [hbare]
        exact List.mem_append_right _ List.mem_cons_self
      rw [classifyStep, Pattern.fullMatch_eq_none (x := ':') _ hmem, Pattern.fullMatch_eq_none (x := ':') _ hmem]
      · rfl
      all_goals simp [stepPattern, blanksPattern, identPattern, Pattern.seqs, Pattern.literal,
        Pattern.one, Pattern.avoids, lit, hword, isIdentStart, isSpace]
    rw [hdecl, hassign, hcall, hstep]
    rfl

end Labels

/-- What stands behind `default` is no store in an element of an array. -/
theorem not_match_element_default (U : CharTable) (r : Text) :
    (elementPattern U).matchStart (lit "default" ++ ':' :: r) = none := by
  refine matchStart_eq_none fun t u ht hreads => ?_
  have hseq : Pattern.Reads (.seq (.group 1 (identPattern U)) (.seq (.one '[')
    (.seqs [.group 2 (.plus (.char (· ≠ '\n'))), .one ']', rhsPattern 3]))) t := hreads
  cases hseq with
  | @seq _ _ w _ hname hrest =>
    cases hrest with
    | @seq _ _ _ x hopen hrest =>
      cases hopen with
      | @char _ c hc =>
        obtain rfl : c = '[' := of_decide_eq_true hc
        have hword : isWordChar U ':' = false :=
          isWordChar_eq_false U (by decide) (by decide) (by decide)
        have hmem : ':' ∉ w := hname.notMem (by
          simp [identPattern, Pattern.avoids, hword, isIdentStart])
        have heq : lit "default" ++ ':' :: r = w ++ '[' :: (x ++ u) := by
          rw [ht]
          simp
        rcases List.append_eq_append_iff.mp heq with ⟨a, ha, hb⟩ | ⟨a, ha, hb⟩
        · cases a with
          | nil => cases (List.cons.inj hb).1
          | cons d a =>
            obtain rfl := (List.cons.inj hb).1
            exact hmem (ha ▸ List.mem_append_right _ List.mem_cons_self)
        · cases a with
          | nil => cases (List.cons.inj hb).1
          | cons d a =>
            obtain rfl := (List.cons.inj hb).1
            have hin : '[' ∈ lit "default" := ha ▸ List.mem_append_right _ List.mem_cons_self
            exact absurd hin (by decide)

/-- **What stands behind `default`** is recorded, and does nothing. -/
theorem execExprStmt_default (U : CharTable) (P : Program) (I : Interp) {stmt : Statement} {s : Text}
    (hraw : stmt.raw = SwitchLabel.text .default ++ s) (frame : ℕ) (seg : Segment)
    (it : Option ℕ) : execExprStmt U P I stmt frame seg it = (do
      let readSnap ← snapReads frame stmt.rNames
      record P stmt seg it readSnap Dict.empty) := by
  obtain ⟨r, hbare⟩ := exists_bareStmt_default s
  obtain ⟨hdouble, hexpr, hname⟩ :=
    not_match_deref_identifier U (by decide : isIdentifier (lit "default") = true) (':' :: r)
  rw [execExprStmt, hraw, hbare, hdouble, hexpr, hname, not_match_element_default]
  rfl

/-! ### Runs -/

/-- Handlers that do nothing for what stands behind `default`, as those of the interpreter do nothing
but record it. -/
def IgnoresLabels {σ : Type} (H : Handlers σ) : Prop :=
  ∀ stmt s, stmt.kind = .expr → stmt.raw = SwitchLabel.text .default ++ s →
    ∀ frame seg it, H.execExprStmt stmt frame seg it = pure ()

section Runs

variable (U : CharTable) (known udtVars : List Text) (memory : List Slot)

/-- A simple statement, without a label. -/
structure SimpleStmt (s : Text) : Prop where
  kind : (classifyStatement U known udtVars s).kind
    ∈ [Kind.decl, Kind.assign, Kind.control, Kind.call, Kind.expr]
  notBreak : firstWord (bareStmt s) ≠ lit "break"
  notLabel : ∀ t, s ≠ SwitchLabel.text .default ++ t

/-- Execute a statement of a block without blocks of its own. -/
def execSimple {σ : Type} (P : Program) (H : Handlers σ)
    (run : Segment → ℕ → Option ℕ → Exec σ Stop Unit) (frame : ℕ) (seg : Segment) (it : Option ℕ)
    (s : Text) : Exec σ Stop Unit := do
  let _ ← execStmt P H run (parsedStmt U known udtVars memory s) frame seg it []
  pure ()

/-- A `switch` runs as in C when its expression has the value `v`: whatever simple statements do,
exactly the ones that C executes are executed, and then what follows the `switch`. -/
def RunsAsC (items : List SwitchItem) (e : Text) (v : ℤ) : Prop :=
  ∀ (σ : Type) (P : Program) (H H' : Handlers σ) (run : Segment → ℕ → Option ℕ → Exec σ Stop Unit)
    (body seg : Segment) (frame c : ℕ) (it : Option ℕ) (children : List ℕ), IgnoresLabels H' →
    segById P.segments c = some body → buildChildren P.segments body.id = [] →
    body.stmts = items.map (fun item => parsedStmt U known udtVars memory item.text) →
    execStmt P H (execSeg P H' run) (parsedStmt U known udtVars memory (switchText e)) frame seg it
        (c :: children) = (do
      let _ ← testBranch H (parsedStmt U known udtVars memory (switchText e)) frame seg it
      (SwitchItem.executed v items).forM (execSimple U known udtVars memory P H' run frame body it)
      pure children)

variable {U known udtVars memory}

theorem raw_parsedStmt (raw : Text) : (parsedStmt U known udtVars memory raw).raw = raw :=
  raw_classifyStatement U known udtVars raw

theorem expr_parsedStmt (raw : Text) : (parsedStmt U known udtVars memory raw).expr
    = stmtExpr U { classifyStatement U known udtVars raw with
        rNames := expandReads memory (classifyStatement U known udtVars raw).rNames } := by
  simp only [parsedStmt, attachExpr]

theorem switchText_eq (e : Text) : switchText e = 's' :: (lit "witch (" ++ e ++ lit ") \x7b") ++ ['}'] :=
  (List.append_assoc (lit "switch (" ++ e) (lit ") \x7b") ['}']).symm

theorem kind_switch (e : Text) : (classifyStatement U known udtVars (switchText e)).kind = .branch := by
  have hword : firstWord (lit "switch" ++ ' ' :: ('(' :: (e ++ lit ") {}"))) = lit "switch" :=
    firstWord_append (by decide) _
  have htext : switchText e = lit "switch" ++ ' ' :: ('(' :: (e ++ lit ") {}")) :=
    List.append_assoc (lit "switch (") e (lit ") {}")
  refine kind_of_branchKeyword ?_
  rw [switchText_eq, bareStmt_eq (by decide), ← switchText_eq, htext, hword]
  decide

theorem stmtExpr_branch {stmt : Statement} (hkind : stmt.kind = .branch)
    (hcond : extractCondition stmt.raw .branch = none) : stmtExpr U stmt = none := by
  unfold stmtExpr
  simp only [hkind, hcond, Option.bind_none]

/-- The expression of a `switch` is not looked at. -/
theorem expr_switch (e : Text) : (parsedStmt U known udtVars memory (switchText e)).expr = none := by
  have hstrip : strip (switchText e) = switchText e := by
    rw [switchText_eq]
    exact strip_of_ends (r := 's' :: (lit "witch (" ++ e ++ lit ") \x7b")) (d := '}') rfl
      (by decide) (by decide)
  have hcond : extractCondition (switchText e) .branch = none := by
    have hnot : ∀ s : Text, startsWith ('s' :: s) (lit "if") = false ∧
        startsWith ('s' :: s) (lit "else if") = false := fun _ => ⟨rfl, rfl⟩
    have hif := hnot (lit "witch (" ++ e ++ lit ") \x7b" ++ ['}'])
    rw [extractCondition, hstrip, switchText_eq, List.cons_append, hif.1, hif.2]
    rfl
  have hkind : (classifyStatement U known udtVars (switchText e)).kind = .branch := kind_switch e
  have hraw := raw_classifyStatement U known udtVars (switchText e)
  rw [expr_parsedStmt]
  generalize classifyStatement U known udtVars (switchText e) = stmt at hkind hraw
  exact stmtExpr_branch hkind (by rw [hraw, hcond])

/-! ### What is executed -/

section Exec

variable {σ : Type} {P : Program} {H : Handlers σ} {run : Segment → ℕ → Option ℕ → Exec σ Stop Unit}
  {frame : ℕ} {seg : Segment} {it : Option ℕ} {items : List SwitchItem} {item : SwitchItem}

/-- Nothing behind a label is executed. -/
theorem execStmt_label (hknown : ∀ w ∈ known, isIdentifier w = true) (hH : IgnoresLabels H)
    (hlabels : item.labels ≠ []) :
    execStmt P H run (parsedStmt U known udtVars memory item.text) frame seg it [] = pure [] := by
  obtain ⟨l, ls, hl⟩ := List.exists_cons_of_ne_nil hlabels
  let rest := ls.foldr (fun l s => l.text ++ s) (item.stmt.getD (lit "break;"))
  have htext : item.text = l.text ++ rest := by rw [SwitchItem.text, hl]; rfl
  cases l with
  | case k =>
    have hkind : (parsedStmt U known udtVars memory item.text).kind = .branch := by
      rw [kind_parsedStmt, htext]
      exact kind_case k rest
    rw [execStmt, hkind]
    rfl
  | default =>
    have hkind : (parsedStmt U known udtVars memory item.text).kind = .expr := by
      rw [kind_parsedStmt, htext]
      exact kind_default hknown rest
    have hraw : (parsedStmt U known udtVars memory item.text).raw = SwitchLabel.text .default ++ rest := by
      rw [raw_parsedStmt, htext]
    rw [execStmt, hkind]
    dsimp only
    rw [hH _ rest hkind hraw]
    rfl

/-- A simple statement takes no child. -/
theorem SimpleStmt.execStmt_eq {s : Text} (hs : SimpleStmt U known udtVars s) :
    execStmt P H run (parsedStmt U known udtVars memory s) frame seg it []
      = execSimple U known udtVars memory P H run frame seg it s >>= fun _ => pure [] := by
  have htakes : ¬ (parsedStmt U known udtVars memory s).takesChild := by
    have hkind := hs.kind
    rw [Statement.takesChild, kind_parsedStmt]
    rcases (by simpa using hkind : _ ∨ _ ∨ _ ∨ _ ∨ _) with h | h | h | h | h <;> simp [h, Kind.isPlain]
  rw [execSimple, bind_assoc]
  exact execStmt_plain htakes frame seg it []

/-- Without a `break` that has no label, the block of a `switch` executes what has no label. -/
theorem execStmts_items (hknown : ∀ w ∈ known, isIdentifier w = true) (hH : IgnoresLabels H)
    (hsimple : ∀ item ∈ items, ∀ s ∈ item.stmt, SimpleStmt U known udtVars s)
    (hbreak : ∀ item ∈ items, item.labels = [] → item.stmt ≠ none) :
    execStmts P H run frame seg it
        (items.map fun item => parsedStmt U known udtVars memory item.text) []
      = (SwitchItem.unlabelled items).forM (execSimple U known udtVars memory P H run frame seg it)
        >>= fun _ => pure [] := by
  induction items with
  | nil => rfl
  | cons item items ih =>
    have ih := ih (fun i hi => hsimple i (List.mem_cons_of_mem _ hi))
      fun i hi => hbreak i (List.mem_cons_of_mem _ hi)
    rw [List.map_cons, execStmts]
    by_cases hlabels : item.labels = []
    · obtain ⟨s, hs⟩ := Option.ne_none_iff_exists'.mp (hbreak item List.mem_cons_self hlabels)
      have htext : item.text = s := by
        rw [SwitchItem.text, hlabels, hs]
        rfl
      have hunlabelled : SwitchItem.unlabelled (item :: items) = s :: SwitchItem.unlabelled items := by
        rw [SwitchItem.unlabelled, List.filter_cons_of_pos (by simpa using hlabels),
          List.filterMap_cons_some hs]
        rfl
      rw [htext, (hsimple item List.mem_cons_self s hs).execStmt_eq, hunlabelled, bind_assoc]
      show _ = (execSimple U known udtVars memory P H run frame seg it s >>= fun _ =>
        (SwitchItem.unlabelled items).forM _) >>= fun _ => pure []
      rw [bind_assoc]
      refine bind_congr fun _ => ?_
      rw [pure_bind]
      exact ih
    · have hunlabelled : SwitchItem.unlabelled (item :: items) = SwitchItem.unlabelled items := by
        rw [SwitchItem.unlabelled, List.filter_cons_of_neg (by simpa using hlabels)]
        rfl
      rw [execStmt_label hknown hH hlabels, pure_bind, hunlabelled, ih]

/-- A `switch` executes its block, whatever its expression is. -/
theorem execStmt_switch {H' : Handlers σ} {body : Segment} {e : Text} {c : ℕ} {children : List ℕ}
    (hbody : segById P.segments c = some body) :
    execStmt P H (execSeg P H' run) (parsedStmt U known udtVars memory (switchText e)) frame seg it
        (c :: children) = (do
      let _ ← testBranch H (parsedStmt U known udtVars memory (switchText e)) frame seg it
      execSeg P H' run body frame it
      pure children) := by
  have hkind : (parsedStmt U known udtVars memory (switchText e)).kind = .branch := kind_switch e
  have hexpr : (parsedStmt U known udtVars memory (switchText e)).expr = none := expr_switch e
  have hlookup : lookupSegment P c = (pure body : Exec σ Stop Segment) := by
    rw [lookupSegment, hbody]
  generalize parsedStmt U known udtVars memory (switchText e) = stmt at hkind hexpr ⊢
  rw [execStmt, hkind]
  dsimp only
  rw [execBranchStmt, hlookup, pure_bind, testBranch, hexpr]
  show (pure true >>= fun cond => _) >>= _ = (pure true >>= fun cond => _) >>= _
  simp only [pure_bind, bind_assoc, if_true]

end Exec

/-! ### What is executed, listed -/

/-- Handlers that list the statements that are executed. -/
def listing : Handlers (List Text) where
  eval _ _ _ := pure .none
  truthy _ := pure true
  snapReads _ _ := pure Dict.empty
  recordTaken _ _ _ _ _ := pure ()
  execDeclAssign stmt _ _ _ := Exec.modify (· ++ [stmt.raw])
  execControl stmt _ _ _ :=
    if firstWord (bareStmt stmt.raw) = lit "break" then Exec.stop .broke
    else Exec.modify (· ++ [stmt.raw])
  execCallStmt stmt _ _ _ := Exec.modify (· ++ [stmt.raw])
  execExprStmt stmt _ _ _ :=
    if SwitchLabel.text .default <+: stmt.raw then pure () else Exec.modify (· ++ [stmt.raw])
  forInit _ _ _ := pure ()
  execUpdate _ _ _ := pure ()
  capUnroll := pure ()

theorem listing_execControl (stmt : Statement) (frame : ℕ) (seg : Segment) (it : Option ℕ) :
    listing.execControl stmt frame seg it =
      if firstWord (bareStmt stmt.raw) = lit "break" then Exec.stop .broke
      else Exec.modify (· ++ [stmt.raw]) := by
  rw [listing]

theorem listing_execExprStmt (stmt : Statement) (frame : ℕ) (seg : Segment) (it : Option ℕ) :
    listing.execExprStmt stmt frame seg it =
      if SwitchLabel.text .default <+: stmt.raw then pure () else Exec.modify (· ++ [stmt.raw]) := by
  rw [listing]

theorem ignoresLabels_listing : IgnoresLabels listing := by
  intro stmt s _ hraw _ _ _
  exact if_pos (hraw ▸ List.prefix_append _ _)

section Listing

variable {P : Program} {run : Segment → ℕ → Option ℕ → Exec (List Text) Stop Unit} {frame : ℕ}
  {seg : Segment} {it : Option ℕ} {items : List SwitchItem}

/-- A simple statement is listed. -/
theorem SimpleStmt.execSimple_listing {s : Text} (hs : SimpleStmt U known udtVars s)
    (l : List Text) :
    execSimple U known udtVars memory P listing run frame seg it s l = (.ok (), l ++ [s]) := by
  have hraw : (parsedStmt U known udtVars memory s).raw = s := raw_parsedStmt s
  have hkind : (parsedStmt U known udtVars memory s).kind
      ∈ [Kind.decl, Kind.assign, Kind.control, Kind.call, Kind.expr] := hs.kind
  have hexec : execStmt P listing run (parsedStmt U known udtVars memory s) frame seg it [] l
      = (.ok [], l ++ [s]) := by
    generalize parsedStmt U known udtVars memory s = stmt at hraw hkind
    subst hraw
    have hlisted : (Exec.modify (· ++ [stmt.raw]) >>= fun _ => pure ([] : List ℕ) :
        Exec (List Text) Stop (List ℕ)) l = (.ok [], l ++ [stmt.raw]) := rfl
    have hcontrol : listing.execControl stmt frame seg it = Exec.modify (· ++ [stmt.raw]) := by
      rw [listing_execControl, if_neg hs.notBreak]
    have hexpr : listing.execExprStmt stmt frame seg it = Exec.modify (· ++ [stmt.raw]) := by
      rw [listing_execExprStmt, if_neg fun ⟨t, ht⟩ => hs.notLabel t ht.symm]
    rw [execStmt]
    rcases (by simpa using hkind : _ ∨ _ ∨ _ ∨ _ ∨ _) with h | h | h | h | h
    · rw [h]
      exact hlisted
    · rw [h]
      exact hlisted
    · rw [h]
      dsimp only
      rw [hcontrol]
      exact hlisted
    · rw [h]
      exact hlisted
    · rw [h]
      dsimp only
      rw [hexpr]
      exact hlisted
  exact bind_of_ok hexec _

theorem forM_execSimple_listing {stmts : List Text}
    (hsimple : ∀ s ∈ stmts, SimpleStmt U known udtVars s) (l : List Text) :
    stmts.forM (execSimple U known udtVars memory P listing run frame seg it) l
      = (.ok (), l ++ stmts) := by
  induction stmts generalizing l with
  | nil =>
    rw [List.append_nil]
    rfl
  | cons s stmts ih =>
    have ih := ih (fun t ht => hsimple t (List.mem_cons_of_mem _ ht)) (l ++ [s])
    have hfirst : execSimple U known udtVars memory P listing run frame seg it s l
        = (.ok (), l ++ [s]) := (hsimple s List.mem_cons_self).execSimple_listing l
    have hrest := (bind_of_ok hfirst fun _ =>
      stmts.forM (execSimple U known udtVars memory P listing run frame seg it)).trans ih
    rwa [List.append_assoc, List.singleton_append] at hrest

theorem kind_break : (classifyStatement U known udtVars (lit "break;")).kind = .control := by
  have hblock : contains (lit "{}") (lit "break;") = false := by decide
  have hword : firstWord (bareStmt (lit "break;")) ∈ controlKeywords := by decide
  rw [classifyStatement, if_neg (by rw [hblock]; exact Bool.false_ne_true), if_pos hword]

/-- A `break` without a label leaves more than the `switch`. -/
theorem exists_break_listing (hknown : ∀ w ∈ known, isIdentifier w = true)
    (hsimple : ∀ item ∈ items, ∀ s ∈ item.stmt, SimpleStmt U known udtVars s)
    (hbreak : ∃ item ∈ items, item.labels = [] ∧ item.stmt = none) (l : List Text) :
    (execStmts P listing run frame seg it
      (items.map fun item => parsedStmt U known udtVars memory item.text) [] l).1
        = .error .broke := by
  induction items generalizing l with
  | nil =>
    obtain ⟨item, hitem, -⟩ := hbreak
    cases hitem
  | cons item items ih =>
    rw [List.map_cons, execStmts]
    by_cases hlabels : item.labels = []
    · cases hs : item.stmt with
      | none =>
        have htext : item.text = lit "break;" := by
          rw [SwitchItem.text, hlabels, hs]
          rfl
        have hkind : (parsedStmt U known udtVars memory item.text).kind = .control := by
          rw [htext, kind_parsedStmt]
          exact kind_break
        have hraw : (parsedStmt U known udtVars memory item.text).raw = lit "break;" := by
          rw [raw_parsedStmt, htext]
        have hleave : listing.execControl (parsedStmt U known udtVars memory item.text) frame seg it
            = Exec.stop .broke := by
          rw [listing_execControl, hraw, if_pos (by decide)]
        rw [execStmt, hkind]
        dsimp only
        rw [hleave]
        rfl
      | some s =>
        have htext : item.text = s := by
          rw [SwitchItem.text, hlabels, hs]
          rfl
        have hfirst : execSimple U known udtVars memory P listing run frame seg it s l
            = (.ok (), l ++ [s]) := (hsimple item List.mem_cons_self s hs).execSimple_listing l
        have hstmt : execStmt P listing run (parsedStmt U known udtVars memory item.text) frame seg it
            [] l = (.ok [], l ++ [s]) := by
          rw [htext, (hsimple item List.mem_cons_self s hs).execStmt_eq]
          exact bind_of_ok hfirst _
        rw [bind_of_ok hstmt]
        refine ih (fun i hi => hsimple i (List.mem_cons_of_mem _ hi)) ?_ _
        obtain ⟨i, hi, hnone⟩ := hbreak
        rcases List.mem_cons.mp hi with rfl | hi
        · rw [hs] at hnone
          cases hnone.2
        · exact ⟨i, hi, hnone⟩
    · rw [execStmt_label hknown ignoresLabels_listing hlabels, pure_bind]
      refine ih (fun i hi => hsimple i (List.mem_cons_of_mem _ hi)) ?_ _
      obtain ⟨i, hi, hnone⟩ := hbreak
      rcases List.mem_cons.mp hi with rfl | hi
      · exact absurd hnone.1 hlabels
      · exact ⟨i, hi, hnone⟩

theorem exists_testBranch_listing (stmt : Statement) (l : List Text) :
    ∃ taken, testBranch listing stmt frame seg it l = (.ok taken, l) := by
  unfold testBranch
  cases stmt.expr with
  | none => exact ⟨true, rfl⟩
  | some e => exact ⟨true, rfl⟩

end Listing

/-- The block of a `switch`. -/
def switchBody (stmts : List Statement) : Segment :=
  { id := 1, parent := 0, type := .branch, name := lit "branch_1", scopePath := lit "root.branch_1",
    head := none, stmts }

/-- A `switch` that runs as in C executes what has no label, and no `break` without a label. -/
theorem eq_of_runsAsC {items : List SwitchItem} {e : Text} {v : ℤ}
    (hknown : ∀ w ∈ known, isIdentifier w = true)
    (hsimple : ∀ item ∈ items, ∀ s ∈ item.stmt, SimpleStmt U known udtVars s)
    (h : RunsAsC U known udtVars memory items e v) :
    (∀ item ∈ items, item.labels = [] → item.stmt ≠ none) ∧
      SwitchItem.executed v items = SwitchItem.unlabelled items := by
  let body := switchBody (items.map fun item => parsedStmt U known udtVars memory item.text)
  let P : Program := ⟨[body], 0⟩
  let run : Segment → ℕ → Option ℕ → Exec (List Text) Stop Unit := fun _ _ _ => pure ()
  have hbody : segById P.segments 1 = some body := rfl
  have hrun := congrFun (h (List Text) P listing listing run body body 0 1 none []
    ignoresLabels_listing hbody rfl rfl) []
  obtain ⟨taken, htest⟩ : ∃ taken, testBranch listing
      (parsedStmt U known udtVars memory (switchText e)) 0 body none [] = (.ok taken, []) :=
    exists_testBranch_listing _ []
  have hexecuted : ∀ s ∈ SwitchItem.executed v items, SimpleStmt U known udtVars s := by
    intro s hs
    obtain ⟨item, hitem, hstmt⟩ := SwitchItem.exists_of_mem_executed hs
    exact hsimple item hitem s hstmt
  have hleft : ∀ {r l}, execStmts P listing run 0 body none body.stmts [] [] = (r, l) →
      (∃ children, r = .ok children) ∧ l = SwitchItem.executed v items := by
    intro r l hstmts
    have hseg : execSeg P listing run body 0 none []
        = (r.map fun _ => (), l) := by
      show (execStmts P listing run 0 body none body.stmts [] >>= fun _ => pure ()) [] = _
      rw [bind_apply, hstmts]
      cases r <;> rfl
    rw [execStmt_switch hbody, bind_of_ok htest, bind_of_ok htest,
      bind_of_ok (forM_execSimple_listing hexecuted []), bind_apply, hseg] at hrun
    cases r with
    | error stop => cases congrArg Prod.fst hrun
    | ok children => exact ⟨⟨children, rfl⟩, congrArg Prod.snd hrun⟩
  have hbreak : ∀ item ∈ items, item.labels = [] → item.stmt ≠ none := by
    intro item hitem hlabels hstmt
    have herror : (execStmts P listing run 0 body none body.stmts [] []).1 = .error .broke :=
      exists_break_listing hknown hsimple ⟨item, hitem, hlabels, hstmt⟩ []
    obtain ⟨⟨children, hok⟩, -⟩ := hleft (Prod.mk.eta (p := execStmts P listing run 0 body none
      body.stmts [] [])).symm
    rw [hok] at herror
    cases herror
  have hunlabelled : ∀ s ∈ SwitchItem.unlabelled items, SimpleStmt U known udtVars s := by
    intro s hs
    obtain ⟨item, hitem, hstmt⟩ := List.mem_filterMap.mp hs
    exact hsimple item (List.mem_of_mem_filter hitem) s hstmt
  have hstmts : execStmts P listing run 0 body none body.stmts [] []
      = (.ok [], SwitchItem.unlabelled items) := by
    have hitems : execStmts P listing run 0 body none body.stmts []
        = (SwitchItem.unlabelled items).forM (execSimple U known udtVars memory P listing run 0 body
          none) >>= fun _ => pure [] :=
      execStmts_items hknown ignoresLabels_listing hsimple hbreak
    rw [hitems, bind_of_ok (forM_execSimple_listing hunlabelled [])]
    rfl
  exact ⟨hbreak, (hleft hstmts).2.symm⟩

end Runs

/-- `x = 1;`. -/
theorem simpleStmt_sample : SimpleStmt .ascii cTypes [] (lit "x = 1;") where
  kind := by decide +kernel
  notBreak := by decide
  notLabel t h := by
    have hhead : some 'x' = some 'd' := congrArg List.head? h
    exact absurd hhead (by decide)

theorem isIdentifier_cTypes : ∀ w ∈ cTypes, isIdentifier w = true := by decide

end Csc512
