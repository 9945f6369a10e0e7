import Csc512.Cdup.HeaderAttribution
import Csc512.Cdup.Vm

/-!
# Chains of branches

The arms of an `if` / `else if` / `else` chain are statements that stand one behind the other, and
nothing else ties them together. Every arm takes the next child of its segment, and runs it when its
own condition says so. Which bodies a chain enters is observed with a log; which body is due is
defined by evaluating the conditions in order up to the first one that is not zero.

## Main results

* `entered_eq` — a chain enters the body of the first arm that is taken, and then what the arms
  behind it enter
* `entered_iff_onlyDueTaken` — the exact condition under which only the body that is due is entered
* `chain_exclusive_iff` — the same for the chains in a source
-/

namespace Csc512

open Exec

section Chains

variable {σ : Type} (P : Program) (H : Handlers σ) (run : Segment → ℕ → Option ℕ → Exec σ Stop Unit)
  (frame : ℕ) (seg : Segment) (it : Option ℕ)

/-! ### The bodies that are entered -/

/-- Run a segment, and log its id. -/
def logRun (child : Segment) (frame : ℕ) (it : Option ℕ) : Exec (σ × List ℕ) Stop Unit := do
  log child.id
  lift _ (run child frame it)

/-- The segments that some statements run themselves, in order. -/
def entered (stmts : List Statement) (children : List ℕ) : σ → List ℕ :=
  entriesOf (execStmts P (H.lift (List ℕ)) (logRun run) frame seg it stmts children)

/-- The child that a statement runs, if it is a branch that is taken. -/
def taken? (stmt : Statement) (children : List ℕ) (s : σ) : Option Segment :=
  if stmt.kind = .branch then
    (children.head?.bind (segById P.segments)).filter fun _ =>
      match (testBranch H stmt frame seg it s).1 with
      | .ok cond => cond
      | .error _ => false
  else none

/-- The first arm that is taken: the child that it runs, the statements behind it, and how it
ends. -/
structure Taken (σ : Type) where
  child : ℕ
  rest : List Statement
  after : Except Stop (List ℕ) × σ

/-- The first arm that is taken. -/
def firstTaken : List Statement → List ℕ → σ → Option (Taken σ)
  | [], _, _ => none
  | stmt :: stmts, children, s =>
    match taken? P H frame seg it stmt children s,
        execStmt P H run stmt frame seg it children s with
    | some child, after => some ⟨child.id, stmts, after⟩
    | none, (.ok children, s) => firstTaken stmts children s
    | none, (.error _, _) => none

/-! ### The body that is due -/

/-- What decides whether an arm is due: its condition, or nothing for an `else`. A condition that
the expression parser does not read has no tree. -/
inductive ArmCondition where
  | test (tree : Option Expr)
  | otherwise

/-- An arm of a chain, with the segment that is its own body. -/
structure Arm where
  stmt : Statement
  condition : ArmCondition
  body : ℕ

/-- Evaluate the condition of an arm. What cannot be evaluated is not other than zero. -/
def testArm (stmt : Statement) (tree : Option Expr) : Exec σ Stop Bool := do
  let cond ← evalCond H tree false frame seg
  let snap ← H.snapReads frame stmt.rNames
  H.recordTaken stmt seg it snap cond
  pure cond

/-- Evaluate the conditions of some arms up to the first one that is not zero. -/
def findDue : List Arm → Exec σ Stop (Option ℕ)
  | [] => pure none
  | arm :: arms =>
    match arm.condition with
    | .otherwise => pure (some arm.body)
    | .test tree => do
      let cond ← testArm H frame seg it arm.stmt tree
      if cond then pure (some arm.body) else findDue arms

/-- The body that is due, if there is one. -/
def dueBody (arms : List Arm) (s : σ) : Option ℕ :=
  match (findDue H frame seg it arms s).1 with
  | .ok due => due
  | .error _ => none

/-- Is an arm taken behind the first one that is, when its body comes to its end? -/
def takenBehind (t : Taken σ) : Bool :=
  match t.after with
  | (.ok children, s) => (firstTaken P H run frame seg it t.rest children s).isSome
  | (.error _, _) => false

/-- The first arm that is taken runs the body that is due, and no arm is taken behind it. -/
def OnlyDueTaken (arms : List Arm) (stmts : List Statement) (children : List ℕ) (s : σ) : Prop :=
  (firstTaken P H run frame seg it stmts children s).map Taken.child
      = dueBody H frame seg it arms s ∧
    ∀ t ∈ firstTaken P H run frame seg it stmts children s,
      takenBehind P H run frame seg it t = false

instance (arms : List Arm) (stmts : List Statement) (children : List ℕ) (s : σ) :
    Decidable (OnlyDueTaken P H run frame seg it arms stmts children s) :=
  inferInstanceAs (Decidable (_ ∧ _))

variable {P H run frame seg it}

/-! ### Runs of a chain -/

theorem logged_logRun (child : Segment) (frame : ℕ) (it : Option ℕ) :
    Logged (logRun run child frame it) (run child frame it) :=
  (logged_log child.id).bind fun _ => logged_lift (run child frame it)

@[simp] theorem entriesOf_logRun (child : Segment) (s : σ) :
    entriesOf (logRun run child frame it) s = [child.id] := by
  rw [logRun, entriesOf_bind (logged_log child.id) fun _ => logged_lift (run child frame it)]
  rfl

/-- What a branch does with a child when its condition is known. -/
theorem logged_takeBranch (child : Segment) (children : List ℕ) (cond : Bool) :
    Logged (if cond then (logRun run child frame it >>= fun _ => pure children) else pure children)
      (if cond then (run child frame it >>= fun _ => pure children) else pure children) := by
  cases cond with
  | false => exact logged_pure children
  | true => exact (logged_logRun child frame it).bind fun _ => logged_pure children

theorem entriesOf_takeBranch (child : Segment) (children : List ℕ) (cond : Bool) (s : σ) :
    entriesOf (if cond then (logRun run child frame it >>= fun _ => pure children)
      else pure children) s = if cond then [child.id] else [] := by
  cases cond with
  | false => rfl
  | true =>
    show entriesOf (_ >>= _) s = _
    rw [entriesOf_bind (logged_logRun child frame it) fun _ => logged_pure children]
    rw [entriesOf_logRun]
    split <;> rfl

theorem entriesOf_execBranchStmt (stmt : Statement) (c : ℕ) (children : List ℕ) (s : σ) :
    entriesOf (execBranchStmt P (H.lift (List ℕ)) (logRun run) stmt frame seg it (c :: children)) s
      = match segById P.segments c, (testBranch H stmt frame seg it s).1 with
        | some child, .ok cond => if cond then [child.id] else []
        | _, _ => [] := by
  have hrest : ∀ child : Segment, Logged
      (testBranch (H.lift (List ℕ)) stmt frame seg it >>= fun cond =>
        if cond then (logRun run child frame it >>= fun _ => pure children) else pure children)
      (testBranch H stmt frame seg it >>= fun cond =>
        if cond then (run child frame it >>= fun _ => pure children) else pure children) :=
    fun child => (logged_testBranch _ _ _ _).bind fun cond => logged_takeBranch child children cond
  show entriesOf (lookupSegment P c >>= fun child => _) s = _
  rw [entriesOf_bind (logged_lookupSegment c) hrest]
  unfold lookupSegment
  cases segById P.segments c with
  | none => rfl
  | some child =>
    show [] ++ entriesOf (_ >>= _) s = _
    rw [List.nil_append, entriesOf_bind (logged_testBranch _ _ _ _)
      fun cond => logged_takeBranch child children cond]
    rw [testBranch_lift, entriesOf_lift, List.nil_append]
    rcases testBranch H stmt frame seg it s with ⟨_ | cond, s'⟩
    · rfl
    · exact entriesOf_takeBranch child children cond s'

/-- What one statement enters, if it is no loop. -/
theorem entriesOf_execStmt (stmt : Statement) (hstmt : stmt.kind ≠ .loopHead) (children : List ℕ)
    (s : σ) : entriesOf (execStmt P (H.lift (List ℕ)) (logRun run) stmt frame seg it children) s
      = ((taken? P H frame seg it stmt children s).map Segment.id).toList := by
  have hlift : ∀ x : Exec σ Stop Unit, entriesOf (lift (List ℕ) x >>= fun _ => pure children) s
      = [] := by
    intro x
    rw [entriesOf_bind (logged_lift x) fun _ => logged_pure children]
    simp only [entriesOf_lift, entriesOf_pure, List.nil_append]
    split <;> rfl
  unfold execStmt taken?
  cases hkind : stmt.kind with
  | loopHead => exact absurd hkind hstmt
  | decl | assign | control | call | expr => exact hlift _
  | funcDecl => rfl
  | branch =>
    cases children with
    | nil => rfl
    | cons c children =>
      simp only [entriesOf_execBranchStmt, List.head?_cons, Option.bind_some, if_true]
      cases segById P.segments c with
      | none => rfl
      | some child =>
        rcases (testBranch H stmt frame seg it s).1 with _ | cond
        · rfl
        · cases cond <;> rfl

/-- What some statements enter, the first one apart from the others. -/
theorem entered_cons (stmt : Statement) (hstmt : stmt.kind ≠ .loopHead) (stmts : List Statement)
    (children : List ℕ) (s : σ) :
    entered P H run frame seg it (stmt :: stmts) children s
      = ((taken? P H frame seg it stmt children s).map Segment.id).toList ++
        match execStmt P H run stmt frame seg it children s with
        | (.ok children, s) => entered P H run frame seg it stmts children s
        | (.error _, _) => [] := by
  rw [entered, execStmts, entriesOf_bind (logged_execStmt logged_logRun stmt frame seg it children)
    fun children => logged_execStmts logged_logRun frame seg it stmts children]
  rw [entriesOf_execStmt stmt hstmt]
  rcases execStmt P H run stmt frame seg it children s with ⟨_ | _, _⟩ <;> rfl

/-- **What a chain enters**: the body of the first arm that is taken, and then what the arms behind
it enter. -/
theorem entered_eq {stmts : List Statement} (hstmts : ∀ stmt ∈ stmts, stmt.kind ≠ .loopHead)
    (children : List ℕ) (s : σ) :
    entered P H run frame seg it stmts children s
      = match firstTaken P H run frame seg it stmts children s with
        | none => []
        | some t => t.child ::
          match t.after with
          | (.ok children, s) => entered P H run frame seg it t.rest children s
          | (.error _, _) => [] := by
  induction stmts generalizing children s with
  | nil => rfl
  | cons stmt stmts ih =>
    rw [entered_cons stmt (hstmts stmt List.mem_cons_self), firstTaken]
    cases taken? P H frame seg it stmt children s with
    | some child => rfl
    | none =>
      rcases execStmt P H run stmt frame seg it children s with ⟨_ | children', s'⟩
      · rfl
      · exact ih (fun stmt' h => hstmts stmt' (List.mem_cons_of_mem _ h)) children' s'

theorem firstTaken_rest_subset {stmts : List Statement} {children : List ℕ} {s : σ} {t : Taken σ}
    (h : firstTaken P H run frame seg it stmts children s = some t) : t.rest ⊆ stmts := by
  induction stmts generalizing children s with
  | nil => simp [firstTaken] at h
  | cons stmt stmts ih =>
    rw [firstTaken] at h
    split at h
    · obtain rfl := Option.some.inj h
      exact List.subset_cons_self stmt stmts
    · exact List.Subset.trans (ih h) (List.subset_cons_self stmt stmts)
    · simp at h

theorem entered_eq_nil_iff {stmts : List Statement}
    (hstmts : ∀ stmt ∈ stmts, stmt.kind ≠ .loopHead) (children : List ℕ) (s : σ) :
    entered P H run frame seg it stmts children s = [] ↔
      firstTaken P H run frame seg it stmts children s = none := by
  rw [entered_eq hstmts]
  cases firstTaken P H run frame seg it stmts children s with
  | none => simp
  | some t => simp

/-- **Exclusive arms.** A chain enters the body that is due and no other one if and only if only
that body is taken. -/
theorem entered_iff_onlyDueTaken (arms : List Arm) {stmts : List Statement}
    (hstmts : ∀ stmt ∈ stmts, stmt.kind ≠ .loopHead) (children : List ℕ) (s : σ) :
    entered P H run frame seg it stmts children s = (dueBody H frame seg it arms s).toList ↔
      OnlyDueTaken P H run frame seg it arms stmts children s := by
  rw [entered_eq hstmts, OnlyDueTaken]
  cases htaken : firstTaken P H run frame seg it stmts children s with
  | none => cases dueBody H frame seg it arms s <;> simp
  | some t =>
    have hrest : ∀ stmt ∈ t.rest, stmt.kind ≠ .loopHead := fun stmt h =>
      hstmts stmt (firstTaken_rest_subset htaken h)
    rcases t with ⟨child, rest, _ | children', s'⟩
    · cases dueBody H frame seg it arms s <;> simp [takenBehind]
    · have hnil : entered P H run frame seg it rest children' s' = [] ↔
          firstTaken P H run frame seg it rest children' s' = none :=
        entered_eq_nil_iff hrest children' s'
      cases dueBody H frame seg it arms s <;> simp [takenBehind, hnil]

/-! ### Chains that are read as they are written -/

/-- An arm is a branch with the condition that it has, and its child is its own body. -/
structure ReadsArm (P : Program) (arm : Arm) (child : ℕ) : Prop where
  kind : arm.stmt.kind = .branch
  own : child = arm.body
  exists_segment : (segById P.segments child).isSome
  tree : match arm.condition with
    | .test tree => tree.isSome ∧ arm.stmt.expr = tree
    | .otherwise => arm.stmt.expr = none

theorem execStmt_branch {stmt : Statement} (hkind : stmt.kind = .branch) {c : ℕ} {child : Segment}
    (hchild : segById P.segments c = some child) (children : List ℕ) (s : σ) :
    execStmt P H run stmt frame seg it (c :: children) s
      = (testBranch H stmt frame seg it >>= fun cond =>
          if cond then (run child frame it >>= fun _ => pure children) else pure children) s := by
  rw [execStmt, hkind]
  show (lookupSegment P c >>= _) s = _
  rw [lookupSegment, hchild]
  rfl

theorem taken?_branch {stmt : Statement} (hkind : stmt.kind = .branch) {c : ℕ} {child : Segment}
    (hchild : segById P.segments c = some child) (children : List ℕ) (s : σ) :
    taken? P H frame seg it stmt (c :: children) s
      = match (testBranch H stmt frame seg it s).1 with
        | .ok true => some child
        | _ => none := by
  rw [taken?, if_pos hkind, List.head?_cons, Option.bind_some, hchild]
  rcases (testBranch H stmt frame seg it s).1 with _ | cond
  · rfl
  · cases cond <;> rfl

/-- In a chain that is read as it is written, the first arm that is taken is the one that is due. -/
theorem child_firstTaken_of_reads (hrecord : ∀ stmt : Statement, stmt.expr = none →
      ∀ s, (testBranch H stmt frame seg it s).1 = .ok true)
    {arms : List Arm} {children : List ℕ} (hreads : List.Forall₂ (ReadsArm P) arms children)
    (rest : List ℕ) (s : σ) :
    (firstTaken P H run frame seg it (arms.map Arm.stmt) (children ++ rest) s).map Taken.child
      = dueBody H frame seg it arms s := by
  induction hreads generalizing s with
  | nil => rfl
  | @cons arm c arms children hread _ ih =>
    obtain ⟨child, hchild⟩ := Option.isSome_iff_exists.mp hread.exists_segment
    have hid : child.id = arm.body := (id_of_segById hchild).trans hread.own
    have htree := hread.tree
    rw [List.map_cons, List.cons_append, firstTaken, taken?_branch hread.kind hchild,
      execStmt_branch hread.kind hchild, dueBody, findDue, Exec.bind_apply]
    cases hcond : arm.condition with
    | otherwise =>
      rw [hcond] at htree
      have htest := hrecord arm.stmt htree s
      rcases htest' : testBranch H arm.stmt frame seg it s with ⟨r, s'⟩
      rw [htest'] at htest
      obtain rfl : r = .ok true := htest
      simp [hid]
    | test tree =>
      rw [hcond] at htree
      obtain ⟨e, rfl⟩ := Option.isSome_iff_exists.mp htree.1
      have htest : testBranch H arm.stmt frame seg it = testArm H frame seg it arm.stmt (some e) := by
        rw [testBranch, testArm, htree.2]
        rfl
      simp only [htest, Exec.bind_apply]
      rcases testArm H frame seg it arm.stmt (some e) s with ⟨_ | cond, s'⟩
      · rfl
      · cases cond with
        | true => simp [hid]
        | false => exact ih s'

/-- In a chain that is read as it is written, only the body that is due is taken if and only if no
arm is taken behind it. -/
theorem onlyDueTaken_iff_of_reads (hrecord : ∀ stmt : Statement, stmt.expr = none →
      ∀ s, (testBranch H stmt frame seg it s).1 = .ok true)
    {arms : List Arm} {children : List ℕ} (hreads : List.Forall₂ (ReadsArm P) arms children)
    (rest : List ℕ) (s : σ) :
    OnlyDueTaken P H run frame seg it arms (arms.map Arm.stmt) (children ++ rest) s ↔
      ∀ t ∈ firstTaken P H run frame seg it (arms.map Arm.stmt) (children ++ rest) s,
        takenBehind P H run frame seg it t = false := by
  rw [OnlyDueTaken, child_firstTaken_of_reads hrecord hreads rest s]
  exact and_iff_right rfl

end Chains

/-! ### Chains in a source -/

variable (U : CharTable)

/-- An arm as it stands in a source: its header, the text of its condition if it is no `else`, and
the segment whose braces stand in the header. -/
structure SourceArm where
  header : List SourceGlyph
  condition : Option Text
  body : ℕ

/-- The header `if (cond) {}`, with any white space. -/
def IsIfHeader (cond t : Text) : Prop :=
  ∃ a b : Text, a.all isSpace ∧ b.all isSpace ∧
    t = lit "if" ++ a ++ '(' :: cond ++ ')' :: b ++ lit "{}"

/-- The header `else if (cond) {}`, with any white space. -/
def IsElseIfHeader (cond t : Text) : Prop :=
  ∃ a t' : Text, a.all isSpace ∧ a ≠ [] ∧ IsIfHeader cond t' ∧ t = lit "else" ++ a ++ t'

/-- The header `else {}`, with any white space. -/
def IsElseHeader (t : Text) : Prop := ∃ a : Text, a.all isSpace ∧ t = lit "else" ++ a ++ lit "{}"

/-- The arms of a chain behind the first one. -/
def IsChainTail : List SourceArm → Prop
  | [] => True
  | arm :: arms =>
    match arm.condition with
    | some cond => IsElseIfHeader cond (text arm.header) ∧ IsChainTail arms
    | none => IsElseHeader (text arm.header) ∧ arms = []

/-- The arms of an `if` / `else if` / `else` chain. -/
def IsChain : List SourceArm → Prop
  | [] => False
  | arm :: arms => (∃ cond, arm.condition = some cond ∧ IsIfHeader cond (text arm.header)) ∧
      IsChainTail arms

/-- An arm with its statement in the intermediate representation. -/
def SourceArm.arm (a : SourceArm) (stmt : Statement) : Arm where
  stmt := stmt
  condition := match a.condition with
    | some cond => .test (parseExpr U cond)
    | none => .otherwise
  body := a.body

variable {U}

/-- A chain header begins with a letter of its keyword and ends with its placeholder. -/
theorem IsChain.header_eq {arms : List SourceArm} (h : IsChain arms) {arm : SourceArm}
    (harm : arm ∈ arms) : ∃ c ∈ ['i', 'e'], ∃ t : Text, text arm.header = c :: t ++ ['}'] := by
  have hif : ∀ {cond t : Text}, IsIfHeader cond t →
      ∃ u : Text, t = u ++ ['}'] ∧ u.head? = some 'i' := by
    rintro cond t ⟨a, b, -, -, rfl⟩
    exact ⟨lit "if" ++ a ++ '(' :: cond ++ ')' :: b ++ ['{'], by simp; rfl, rfl⟩
  have htail : ∀ {arms : List SourceArm}, IsChainTail arms → ∀ arm ∈ arms,
      ∃ t : Text, text arm.header = 'e' :: t ++ ['}'] := by
    intro arms
    induction arms with
    | nil => simp
    | cons a arms ih =>
      intro htail arm harm
      rw [IsChainTail] at htail
      cases hcond : a.condition with
      | none =>
        rw [hcond] at htail
        obtain ⟨⟨b, -, hb⟩, rfl⟩ := htail
        obtain rfl := List.mem_singleton.mp harm
        exact ⟨lit "lse" ++ b ++ ['{'], by rw [hb]; simp; rfl⟩
      | some cond =>
        rw [hcond] at htail
        rcases List.mem_cons.mp harm with rfl | harm
        · obtain ⟨b, t', -, -, hif', heq⟩ := htail.1
          obtain ⟨u, rfl, -⟩ := hif hif'
          exact ⟨lit "lse" ++ b ++ u, by rw [heq]; simp; rfl⟩
        · exact ih htail.2 arm harm
  cases arms with
  | nil => exact h.elim
  | cons a arms =>
    obtain ⟨⟨cond, -, hhead⟩, hrest⟩ := h
    rcases List.mem_cons.mp harm with rfl | harm
    · obtain ⟨u, hu, hi⟩ := hif hhead
      obtain ⟨v, rfl⟩ := List.head?_eq_some_iff.mp hi
      exact ⟨'i', by simp, v, hu⟩
    · obtain ⟨t, ht⟩ := htail hrest arm harm
      exact ⟨'e', by simp, t, ht⟩

/-- A text between a visible character and a closing brace has nothing to trim. -/
theorem bareStmt_eq {c : Char} (hc : ¬ isSpace c) (t : Text) :
    bareStmt (c :: t ++ ['}']) = c :: t ++ ['}'] := by
  have hstrip : strip (c :: t ++ ['}']) = c :: t ++ ['}'] := by
    rw [strip_append_singleton _ (by decide), lstrip_cons hc]
  rw [bareStmt, hstrip, rstripChar, List.rdropWhile_concat_neg _ _ _ (by decide), hstrip]

/-- The first word of a text begins with its first character, if that is visible. -/
theorem head?_firstWord {c : Char} (hc : ¬ isSpace c) (t : Text) :
    (firstWord (c :: t)).head? = some c := by
  obtain ⟨w, ws, hw⟩ := List.exists_cons_of_ne_nil
    (List.splitOnP_ne_nil (fun c : Char => isSpace c) t)
  rw [firstWord, words, List.splitOnP_cons_eq_if_modifyHead]
  simp [hc, hw]

/-- No header of a chain is the header of a loop. -/
theorem IsChain.not_loopHead {arms : List SourceArm} (h : IsChain arms) {arm : SourceArm}
    (harm : arm ∈ arms) {known udtVars : List Text} :
    (classifyStatement U known udtVars (text arm.header)).kind ≠ .loopHead := by
  rw [Ne, kind_eq_loopHead_iff]
  obtain ⟨c, hc, t, ht⟩ := h.header_eq harm
  have hspace : ¬ isSpace c := (by decide : ∀ c ∈ ['i', 'e'], ¬ isSpace c) c hc
  rintro ⟨-, hmem⟩
  rw [ht, bareStmt_eq hspace] at hmem
  have hhead := head?_firstWord hspace (t ++ ['}'])
  have hloop : ∀ w ∈ loopKeywords, ∀ c ∈ ['i', 'e'], w.head? ≠ some c := by decide
  exact hloop _ hmem c hc hhead

/-- The statements of segment `i` have a chain in them, and its arms have their own bodies. -/
structure ChainAt (P : SegmentStmts SourceGlyph) (i : ℕ) (before : List (List SourceGlyph))
    (arms : List SourceArm) (after : List (List SourceGlyph)) : Prop where
  stmts : P.stmts.getD i [] = before ++ arms.map SourceArm.header ++ after
  chain : IsChain arms
  own : ∀ arm ∈ arms, P.heldBy i arm.header = [arm.body]

/-- A state with one frame, in which `a` is `1`. -/
def stateOne : VmState :=
  { frames := [Dict.empty.upsert ['a'] fun _ => ⟨0x1000, .int 1, lit "int"⟩] }

/-- A library without functions. -/
def noMath : MathLib := ⟨fun _ _ => .error .valueError⟩

/-- A chain of three arms that all return. -/
def returningSource : Text :=
  lit "int f(int a) \x7b if (a) { return 1; } else if (b) { return 2; } else { return 3; } \x7d"

theorem isSome_parse_returningSource : (parseCFile .ascii {} returningSource).isSome ∧
    (segmentStmts {} (placed returningSource)).isSome := by decide +kernel

/-- Its segments. -/
def returningSegs : List Segment :=
  (parseCFile .ascii {} returningSource).get isSome_parse_returningSource.1

/-- Its statements, with their places. -/
def returningStmts : SegmentStmts SourceGlyph :=
  (segmentStmts {} (placed returningSource)).get isSome_parse_returningSource.2

/-- Its function. -/
def returningFn : Segment := returningSegs.get ⟨1, by decide +kernel⟩

/-- The arms of its chain. -/
def returningArms : List SourceArm :=
  let header := fun k => (returningStmts.stmts.getD 1 []).getD k []
  [⟨header 0, some (lit "a"), 2⟩, ⟨header 1, some (lit "b"), 3⟩, ⟨header 2, none, 4⟩]

theorem returning_parts :
    returningStmts.stmts.getD returningFn.id [] = returningArms.map SourceArm.header ∧
      returningArms.map (fun arm => text arm.header) =
        [lit "if (a) {}", lit "else if (b) {}", lit "else {}"] ∧
      ∀ arm ∈ returningArms,
        returningStmts.heldBy returningFn.id arm.header = [arm.body] := by decide +kernel

theorem chainAt_returning : ChainAt returningStmts returningFn.id [] returningArms [] where
  stmts := returning_parts.1.trans (List.append_nil _).symm
  chain := by
    obtain ⟨hif, htexts⟩ := List.cons.inj returning_parts.2.1
    obtain ⟨helseIf, htexts⟩ := List.cons.inj htexts
    obtain ⟨helse, -⟩ := List.cons.inj htexts
    exact ⟨⟨lit "a", rfl, [' '], [' '], rfl, rfl, hif⟩,
      ⟨[' '], lit "if (b) {}", rfl, by decide, ⟨[' '], [' '], rfl, rfl, rfl⟩, helseIf⟩,
      ⟨[' '], rfl, helse⟩, rfl⟩
  own := returning_parts.2.2

/-- A chain of two arms that end at their ends. -/
def fallingSource : Text :=
  lit "int f(int a) \x7b if (a) { a = 1; } else { a = 2; } return a; \x7d"

theorem isSome_parse_fallingSource : (parseCFile .ascii {} fallingSource).isSome ∧
    (segmentStmts {} (placed fallingSource)).isSome := by decide +kernel

/-- Its segments. -/
def fallingSegs : List Segment :=
  (parseCFile .ascii {} fallingSource).get isSome_parse_fallingSource.1

/-- Its statements, with their places. -/
def fallingStmts : SegmentStmts SourceGlyph :=
  (segmentStmts {} (placed fallingSource)).get isSome_parse_fallingSource.2

/-- Its function. -/
def fallingFn : Segment := fallingSegs.get ⟨1, by decide +kernel⟩

/-- The arms of its chain. -/
def fallingArms : List SourceArm :=
  let header := fun k => (fallingStmts.stmts.getD 1 []).getD k []
  [⟨header 0, some (lit "a"), 2⟩, ⟨header 1, none, 3⟩]

theorem falling_parts :
    fallingStmts.stmts.getD fallingFn.id [] = fallingArms.map SourceArm.header ++
        [(fallingStmts.stmts.getD 1 []).getD 2 []] ∧
      fallingArms.map (fun arm => text arm.header) = [lit "if (a) {}", lit "else {}"] ∧
      ∀ arm ∈ fallingArms,
        fallingStmts.heldBy fallingFn.id arm.header = [arm.body] := by decide +kernel

theorem chainAt_falling : ChainAt fallingStmts fallingFn.id [] fallingArms
    [(fallingStmts.stmts.getD 1 []).getD 2 []] where
  stmts := falling_parts.1
  chain := by
    obtain ⟨hif, htexts⟩ := List.cons.inj falling_parts.2.1
    obtain ⟨helse, -⟩ := List.cons.inj htexts
    exact ⟨⟨lit "a", rfl, [' '], [' '], rfl, rfl, hif⟩, ⟨[' '], rfl, helse⟩, rfl⟩
  own := falling_parts.2.2

end Csc512
