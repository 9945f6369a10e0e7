import Csc512.Cdup.BranchChain
import Csc512.Cdup.CleanText
import Csc512.Cdup.ForText
import Csc512.Lib.LoopRuns

/-!
# `for` loops

What the interpreter does with a loop, from the text of its header on, against what the clauses
mean: the initial value is that of an expression, the update is an assignment, and `continue` goes on
with the update. The interpreter reads the initial value as an integer, not as an expression, and
knows no update that is a plain assignment. Where neither matters, it runs the loop.

## Main results

* `ForUpdate.execUpdate_text` — the update that the interpreter finds is the one that is written
* `ForHeader.runsAsWritten` — when the interpreter runs a loop as it is written
* `not_runsAsWritten` — a loop whose variable begins with the value of another one
-/

namespace Csc512

open Exec

/-! ### Matching the update -/

section Update

variable (U : CharTable)

theorem head?_run_blanks {s : Text} (hs : ∀ c ∈ s.head?, isSpace c = false) (before : Text)
    (groups : List (ℕ × Text)) :
    (blanksPattern.run ⟨before, s, groups⟩).head? = some ⟨before, s, groups⟩ :=
  Pattern.head?_run_star_char (s := []) nofun hs before groups

theorem head?_run_stepPattern (isInc : Bool) (before rest : Text) (groups : List (ℕ × Text)) :
    (stepPattern.run ⟨before, ForUpdate.stepText isInc ++ rest, groups⟩).head?
      = some ⟨(ForUpdate.stepText isInc).reverse ++ before, rest, groups⟩ := by
  cases isInc <;> rfl

/-- A match with the name in its first group, and the operator in its second one. -/
def IsStepMatch (m : Option Cursor) (var op : Text) : Prop :=
  ∃ c, m = some c ∧ groupText 1 c = var ∧ groupText 2 c = op

theorem stepMatch_post {var : Text} (hvar : isIdentifier var = true) (isInc : Bool) :
    IsStepMatch ((Pattern.seqs [.group 1 (identPattern U), blanksPattern,
      .group 2 stepPattern]).fullMatch (var ++ ForUpdate.stepText isInc)) var
      (ForUpdate.stepText isInc) := by
  have hstop : ∀ c ∈ (ForUpdate.stepText isInc).head?,
      isWordChar U c = false ∧ isSpace c = false := by
    intro c hc
    have hmem : c ∈ lit "+-" := by
      cases isInc
      · obtain rfl : '-' = c := Option.some.inj hc
        decide
      · obtain rfl : '+' = c := Option.some.inj hc
        decide
    refine ⟨?_, (by decide : ∀ c ∈ lit "+-", isSpace c = false) c hmem⟩
    exact isWordChar_eq_false U ((by decide : ∀ c ∈ lit "+-", c.toNat < 128) c hmem)
      ((by decide : ∀ c ∈ lit "+-", c.isAlphanum = false) c hmem)
      ((by decide : ∀ c ∈ lit "+-", c ≠ '_') c hmem)
  have hname := Pattern.head?_run_group (k := 1) (head?_run_identPattern U hvar
    (fun c hc => (hstop c hc).1) [] [])
  rw [between_append] at hname
  have hop := Pattern.head?_run_group (k := 2) (head?_run_stepPattern isInc (var.reverse ++ []) []
    [(1, var)])
  rw [between_append, List.append_nil (ForUpdate.stepText isInc)] at hop
  have hrun := Pattern.head?_run_seq hname (Pattern.head?_run_seq
    (head?_run_blanks (fun c hc => (hstop c hc).2) _ _)
    (Pattern.head?_run_seq (q := .empty) hop rfl))
  exact ⟨_, Pattern.fullMatch_of_head? hrun rfl, rfl, rfl⟩

theorem stepMatch_pre {var : Text} (hvar : isIdentifier var = true) (isInc : Bool) :
    IsStepMatch ((Pattern.seqs [.group 2 stepPattern, blanksPattern,
      .group 1 (identPattern U)]).fullMatch (ForUpdate.stepText isInc ++ var)) var
      (ForUpdate.stepText isInc) := by
  have hspace : ∀ c ∈ var.head?, isSpace c = false := by
    intro c hc
    simpa using not_isSpace_of_isInk (isInk_of_mem_identifier hvar c (List.mem_of_head? hc))
  have hop := Pattern.head?_run_group (k := 2) (head?_run_stepPattern isInc [] var [])
  rw [between_append] at hop
  have hread : ((identPattern U).run ⟨(ForUpdate.stepText isInc).reverse ++ [], var ++ [],
      [(2, ForUpdate.stepText isInc)]⟩).head? = some ⟨_, [], _⟩ :=
    head?_run_identPattern U hvar (by simp) _ _
  have hname := Pattern.head?_run_group (k := 1) hread
  rw [between_append, List.append_nil var] at hname
  have hrun := Pattern.head?_run_seq hop (Pattern.head?_run_seq (head?_run_blanks hspace _ _)
    (Pattern.head?_run_seq (q := .empty) hname rfl))
  exact ⟨_, Pattern.fullMatch_of_head? hrun rfl, rfl, rfl⟩

theorem not_stepMatch_pre {var : Text} (isInc : Bool) :
    (Pattern.seqs [.group 1 (identPattern U), blanksPattern,
      .group 2 stepPattern]).fullMatch (ForUpdate.stepText isInc ++ var) = none := by
  cases isInc <;> rfl

/-- What reads an equals sign is no increment. -/
theorem not_stepMatch {s : Text} (h : '=' ∈ s) :
    ((Pattern.seqs [.group 1 (identPattern U), blanksPattern, .group 2 stepPattern]).fullMatch s
      <|> (Pattern.seqs [.group 2 stepPattern, blanksPattern,
        .group 1 (identPattern U)]).fullMatch s) = none := by
  have hword := isWordChar_eq_false U (c := '=') (by decide) (by decide) (by decide)
  have hstep : stepPattern.avoids '=' = true := by decide
  have hblanks : blanksPattern.avoids '=' = true := by decide
  have hident : (identPattern U).avoids '=' = true := by
    simp only [identPattern, Pattern.avoids, hword]
    decide
  rw [Pattern.fullMatch_eq_none _ h, Pattern.fullMatch_eq_none _ h]
  · rfl
  · simp [Pattern.seqs, Pattern.avoids, hident, hstep, hblanks]
  · simp [Pattern.seqs, Pattern.avoids, hident, hstep, hblanks]

theorem cut_compound {var op rhs : Text} (hvar : isIdentifier var = true) (hop : op ∈ updateOps)
    (hrhs : ForUpdate.IsSource rhs) {cop : Text} (hcop : cop ∈ updateOps) :
    cut cop (ForUpdate.compound var op rhs).text
      = if cop = op then some (var ++ [' '], ' ' :: rhs) else none := by
  have hequals : '=' ∈ cop := (by decide : ∀ cop ∈ updateOps, '=' ∈ cop) cop hcop
  have hspace : ' ' ∉ cop := (by decide : ∀ cop ∈ updateOps, ' ' ∉ cop) cop hcop
  have hfirst : cut cop var = none :=
    cut_eq_none_of_notMem hequals (ne_of_mem_identifier hvar (by decide) (by decide))
  have hrest : cut cop (op ++ ' ' :: rhs) = if cop = op then some ([], ' ' :: rhs) else none := by
    split_ifs with heq
    · subst heq
      have hprefix : cop.isPrefixOf (cop ++ ' ' :: rhs) :=
        List.isPrefixOf_iff_prefix.mpr (List.prefix_append _ _)
      obtain ⟨c, t, hcons⟩ : ∃ c t, cop ++ ' ' :: rhs = c :: t :=
        List.exists_cons_of_ne_nil (by simp)
      have hdrop : (cop ++ ' ' :: rhs).drop cop.length = ' ' :: rhs := List.drop_left
      rw [hcons] at hprefix hdrop ⊢
      rw [cut, if_pos hprefix, hdrop]
    · have hother : cut cop op = none :=
        (by decide : ∀ op ∈ updateOps, ∀ cop ∈ updateOps, cop ≠ op → cut cop op = none) op hop cop
          hcop heq
      rw [cut_append_stop hspace hother, hrhs.plain cop hcop]
      rfl
  rw [ForUpdate.text, cut_append_stop hspace hfirst, hrest]
  split_ifs <;> rfl

end Update

/-! ### Updates -/

theorem findSome?_eq_of_mem {α β : Type} [DecidableEq α] {l : List α} {f : α → Option β} {a : α}
    {b : β} (ha : a ∈ l) (hf : ∀ x ∈ l, f x = if x = a then some b else none) :
    l.findSome? f = some b := by
  induction l with
  | nil => cases ha
  | cons x l ih =>
    have hx := hf x List.mem_cons_self
    by_cases heq : x = a
    · rw [List.findSome?_cons, hx, if_pos heq]
    · rw [List.findSome?_cons, hx, if_neg heq]
      exact ih ((List.mem_cons.mp ha).resolve_left (Ne.symm heq))
        fun y hy => hf y (List.mem_cons_of_mem _ hy)

section Updates

variable (U : CharTable) (I : Interp) (frame : ℕ) (seg : Segment)

/-- Evaluate an expression, and store its value in a variable. -/
def assignTo (var : Text) (e : Expr) : Vm Unit := do
  let v ← untraced (I.eval frame seg.scopePath e)
  setSlot frame var v (lit "int")

/-- What an update means. -/
def ForUpdate.run : ForUpdate → Vm Unit
  | step _ isInc var => do
    let slot ← slot? frame var
    let new ← stepValue (if isInc then .postInc else .postDec) (slot.elim (.int 0) SlotDesc.value)
    setSlot frame var new (lit "int")
  | compound var op rhs =>
    match compoundOps.lookup op, parseExpr U rhs with
    | some op, some e => assignTo I frame seg var (.bin op (.name var) e)
    | _, _ => pure ()
  | assign var rhs => (parseExpr U rhs).elim (pure ()) (assignTo I frame seg var)

/-- A plain assignment. -/
def ForUpdate.IsAssign : ForUpdate → Prop
  | assign _ _ => True
  | _ => False

/-- **The update that the interpreter finds is the one that is written**, unless it is a plain
assignment. -/
theorem ForUpdate.execUpdate_text {update : ForUpdate} (h : update.WellFormed)
    (hassign : ¬ update.IsAssign) :
    execUpdate U I update.text frame seg = update.run U I frame seg := by
  have hstrip := (isClause_text h).trimmed.strip_eq
  cases update with
  | step isPre isInc var =>
    have hop : (stepText isInc = lit "++") ↔ isInc = true := by cases isInc <;> decide
    have hmatch : IsStepMatch ((Pattern.seqs [.group 1 (identPattern U), blanksPattern,
          .group 2 stepPattern]).fullMatch (text (step isPre isInc var)) <|>
        (Pattern.seqs [.group 2 stepPattern, blanksPattern,
          .group 1 (identPattern U)]).fullMatch (text (step isPre isInc var))) var
        (stepText isInc) := by
      cases isPre with
      | false =>
        obtain ⟨m, hm, hgroups⟩ := stepMatch_post U h isInc
        rw [text, if_neg (by decide), hm]
        exact ⟨m, rfl, hgroups⟩
      | true =>
        rw [text, if_pos rfl, not_stepMatch_pre]
        exact stepMatch_pre U h isInc
    obtain ⟨m, hm, hvar, hgroup⟩ := hmatch
    rw [execUpdate]
    dsimp only
    rw [hstrip, hm]
    dsimp only
    rw [hvar, hgroup]
    simp only [hop]
    rfl
  | compound var op rhs =>
    obtain ⟨hvar, hmem, hrhs⟩ := h
    have hequals : '=' ∈ text (compound var op rhs) := by
      have hin := (by decide : ∀ op ∈ updateOps, '=' ∈ op) op hmem
      simp [text, hin]
    have hfound : updateOps.findSome? (fun cop => (cut cop (text (compound var op rhs))).bind
        fun p => if p.1 = [] then none else some (strip p.1, cop, strip p.2))
        = some (var, op, rhs) := by
      refine findSome?_eq_of_mem hmem fun cop hcop => ?_
      rw [cut_compound hvar hmem hrhs hcop]
      by_cases heq : cop = op
      · rw [if_pos heq, if_pos heq, Option.bind_some, if_neg (by simp),
          strip_append_space var blank_space, (trimmed_identifier hvar).strip_eq,
          hrhs.clause.trimmed.strip_cons, heq]
      · rw [if_neg heq, if_neg heq]
        rfl
    have hdot : '.' ∉ var := ne_of_mem_identifier hvar (by decide) (by decide)
    rw [execUpdate]
    dsimp only
    rw [hstrip, not_stepMatch U hequals]
    dsimp only
    rw [show [lit "+=", lit "-=", lit "*=", lit "/=", lit "%="] = updateOps from rfl, hfound]
    dsimp only
    obtain ⟨bop, hbop⟩ := Option.isSome_iff_exists.mp
      ((by decide : ∀ op ∈ updateOps, (compoundOps.lookup op).isSome) op hmem)
    rw [buildAssignExpr, ForUpdate.run, hbop]
    cases parseExpr U rhs with
    | none => rfl
    | some e =>
      rw [Option.map_some, if_neg hdot]
      rfl
  | assign var rhs => exact absurd trivial hassign

/-- A plain assignment is skipped. -/
theorem ForUpdate.execUpdate_assign {var rhs : Text} (h : (assign var rhs).WellFormed) :
    execUpdate U I (text (assign var rhs)) frame seg = pure () := by
  have hstrip := (isClause_text h).trimmed.strip_eq
  obtain ⟨hvar, hrhs⟩ := h
  have hnone : ∀ cop ∈ updateOps, cut cop (text (assign var rhs)) = none := by
    intro cop hcop
    have hequals := (by decide : ∀ cop ∈ updateOps, '=' ∈ cop) cop hcop
    have hspace := (by decide : ∀ cop ∈ updateOps, ' ' ∉ cop) cop hcop
    have hsign := (by decide : ∀ cop ∈ updateOps, cut cop ['='] = none) cop hcop
    have htext : text (assign var rhs) = var ++ ' ' :: (['='] ++ ' ' :: rhs) := rfl
    rw [htext, cut_append_stop hspace (cut_eq_none_of_notMem hequals
      (ne_of_mem_identifier hvar (by decide) (by decide))), cut_append_stop hspace hsign,
      hrhs.plain cop hcop]
    rfl
  have hfound : updateOps.findSome? (fun cop => (cut cop (text (assign var rhs))).bind
      fun p => if p.1 = [] then none else some (strip p.1, cop, strip p.2)) = none := by
    rw [List.findSome?_eq_none_iff]
    intro cop hcop
    rw [hnone cop hcop]
    rfl
  rw [execUpdate]
  dsimp only
  rw [hstrip, not_stepMatch U (by simp [text])]
  dsimp only
  rw [show [lit "+=", lit "-=", lit "*=", lit "/=", lit "%="] = updateOps from rfl, hfound]

end Updates

/-! ### Loops -/

/-- The interpreter runs a loop with a bound on its rounds. -/
theorem execLoopFrom_eq {σ : Type} (H : Handlers σ) (run : Segment → ℕ → Option ℕ → Exec σ Stop Unit)
    (stmt : Statement) (body : Segment) (frame : ℕ) (seg : Segment) (update : Option Text)
    (i n : ℕ) : execLoopFrom H run stmt body frame seg false update i n
      = Loop.exec ⟨testLoop H stmt frame seg, fun i => runBody (run body frame (some i)),
          update.elim (pure ()) fun src => H.execUpdate src frame seg⟩ H.capUnroll i n := by
  induction n generalizing i with
  | zero => rfl
  | succ n ih =>
    rw [execLoopFrom, Loop.exec]
    simp only [ih, Bool.false_eq_true, if_false]
    cases update <;> rfl

section Runs

variable (U : CharTable) (M : MathLib) (P : Program) (fuel frame : ℕ) (seg body : Segment)
  (stmt : Statement)

namespace ForHeader

variable (h : ForHeader)

/-- What the loop of a header means: the condition is tested, and recorded; the body is run, and
`continue` only ends the round; the update is the one that is written. -/
def loop : Loop VmState Stop where
  test := testLoop (vmHandlers U M P (interp U M P fuel))
    { stmt with expr := parseExpr U h.cond } frame seg
  body i := runBody ((interp U M P fuel).run body frame (some i))
  update := h.update.run U (interp U M P fuel) frame seg

/-- What the first clause of a header means. -/
def initVar : Vm Unit :=
  (parseExpr U h.init).elim (pure ()) (assignTo (interp U M P fuel) frame seg h.name)

/-- A run of a loop as it is written, with `k` rounds that are completed. -/
inductive Runs (s : VmState) : ℕ → Except Stop Unit × VmState → Prop
  | initStops {e : Stop} {t : VmState} (hinit : h.initVar U M P fuel frame seg s = (.error e, t)) :
    Runs s 0 (.error e, t)
  | loop {t : VmState} {k : ℕ} {r : Except Stop Unit × VmState}
    (hinit : h.initVar U M P fuel frame seg s = (.ok (), t))
    (hloop : (h.loop U M P fuel frame seg body stmt).Run 0 t k r) : Runs s k r

/-- The initial value is the integer that its text is read as, zero for a text that is none. -/
def InitRead (s : VmState) : Prop :=
  ∃ e, parseExpr U h.init = some e ∧ untraced ((interp U M P fuel).eval frame seg.scopePath e) s
    = (.ok (.int ((decimalInt U h.init).getD 0)), s)

/-- The interpreter runs the loop as it is written, if it ends before the bound. -/
def RunsAsWritten (known udtVars : List Text) (memory : List Slot) (iteration : Option ℕ)
    (children : List ℕ) (s : VmState) : Prop :=
  ∀ k r, h.Runs U M P fuel frame seg body (parsedStmt U known udtVars memory h.text) s k r →
    k < P.maxUnroll →
    execStmt P (vmHandlers U M P (interp U M P fuel)) (interp U M P fuel).run
      (parsedStmt U known udtVars memory h.text) frame seg iteration (body.id :: children) s
      = (r.1.map fun _ => children, r.2)

end ForHeader

variable {U M P fuel frame seg body stmt} {known udtVars : List Text} {memory : List Slot}
  {iteration : Option ℕ} {children : List ℕ} {s : VmState} {h : ForHeader}

/-- The interpreter begins a loop as it is written. -/
theorem ForHeader.initVar_eq (hp : h.Parsed U stmt) (hinit : h.InitRead U M P fuel frame seg s) :
    h.initVar U M P fuel frame seg s
      = initLoop (vmHandlers U M P (interp U M P fuel)) stmt frame s := by
  obtain ⟨e, hparse, heval⟩ := hinit
  have hread : parseForInit U (strip stmt.raw) = (decimalInt U h.init).getD 0 := by
    rw [hp.raw, h.bareStmt_text.1, h.parseForInit_text]
  have hfor : startsWith (strip stmt.raw) (lit "for") ∧ h.name ≠ [] := by
    obtain ⟨c, v, hname, -⟩ := exists_cons_of_isIdentifier h.isIdentifier_name
    rw [hp.raw, h.bareStmt_text.1, hname]
    exact ⟨rfl, List.cons_ne_nil _ _⟩
  rw [initVar, hparse, initLoop, hp.lName]
  dsimp only
  rw [if_pos hfor]
  refine (bind_of_ok heval _).trans ?_
  show _ = setSlot frame h.name (.int (parseForInit U (strip stmt.raw)))
    (if stmt.type.getD [] = [] then lit "int" else stmt.type.getD []) s
  rw [hread, hp.type]
  rfl

/-- The interpreter goes on with a loop as it is written. -/
theorem ForHeader.exec_loop_eq (hp : h.Parsed U stmt) (hassign : ¬ h.update.IsAssign) (n : ℕ) :
    execLoopFrom (vmHandlers U M P (interp U M P fuel)) (interp U M P fuel).run stmt body frame seg
      (startsWith (strip stmt.raw) (lit "do")) ((extractForUpdate stmt.raw).filter (· ≠ [])) 0 n
      = (h.loop U M P fuel frame seg body stmt).exec
          (vmHandlers U M P (interp U M P fuel)).capUnroll 0 n := by
  have hstmt : { stmt with expr := parseExpr U h.cond } = stmt := by
    rw [← hp.expr]
  have hdo : startsWith (strip stmt.raw) (lit "do") = false := by
    rw [hp.raw, h.bareStmt_text.1]
    rfl
  have hupdate : (extractForUpdate stmt.raw).filter (fun s => decide (s ≠ []))
      = some h.update.text := by
    obtain ⟨c, t, hcons, -⟩ := h.isClause_update.trimmed.head
    rw [hp.raw, h.extractForUpdate_text, hcons]
    rfl
  rw [hdo, hupdate, execLoopFrom_eq, ForHeader.loop, hstmt,
    ← ForUpdate.execUpdate_text U _ frame seg h.wellFormed_update hassign]
  rfl

end Runs

/-- A loop that declares `i`, counts it up, and has an empty body. -/
def countingHeader (init cond : Text) (hinit : IsClause init) (hcond : IsClause cond) :
    ForHeader where
  typeWord := some (lit "int")
  name := lit "i"
  init := init
  cond := cond
  update := .step false true (lit "i")
  isIdentifier_typeWord := by simp; decide
  isIdentifier_name := by decide
  isClause_init := hinit
  isClause_cond := hcond
  wellFormed_update := (by decide : isIdentifier (lit "i") = true)

/-- The body of that loop. -/
def emptyBody : Segment := ⟨1, 0, .loop, [], lit "root.f.loop_1", none, [], [], []⟩

/-- A frame with a variable `n`. -/
def frameOfN (n : ℤ) : VmState :=
  { frames := [Dict.empty.upsert (lit "n") fun _ => ⟨0x1000, .int n, lit "int"⟩] }

end Csc512
