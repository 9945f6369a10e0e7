import Csc512.Cdup.Spelling
import Csc512.Cdup.Vm

/-!
# Headers of `for` loops

How the header of a `for` loop is written, and what the parser and the helpers of the interpreter
find in it. The three clauses are cut out of the raw text again and again: by the classifier for the
name that is declared, by the condition for the text between the semicolons, and by the interpreter
for the initial value and the update.

## Main results

* `ForHeader.parsed` — the statement that the parser makes of a header
* `ForHeader.extractForUpdate_text` — the update clause
-/

namespace Csc512

/-! ### Parentheses -/

/-- Do the parentheses of a text match, behind `depth` open ones? -/
def parensMatch : ℕ → Text → Bool
  | depth, [] => depth = 0
  | depth, c :: s =>
    if c = '(' then parensMatch (depth + 1) s
    else if c = ')' then depth ≠ 0 && parensMatch (depth - 1) s
    else parensMatch depth s

/-- No parenthesis in a text whose parentheses match closes one that was open before. -/
theorem closingParen_append {depth : ℕ} {s : Text} (h : parensMatch depth s = true) (outer : ℕ)
    (rest : Text) : closingParen (depth + (outer + 1)) (s ++ rest)
      = s.length + closingParen (outer + 1) rest := by
  induction s generalizing depth with
  | nil =>
    obtain rfl : depth = 0 := by simpa [parensMatch] using h
    rw [Nat.zero_add, List.nil_append, List.length_nil, Nat.zero_add]
  | cons c s ih =>
    rw [parensMatch] at h
    rw [List.cons_append, closingParen, List.length_cons]
    by_cases hopen : c = '('
    · rw [if_pos hopen] at h ⊢
      have hrest := ih h
      rw [if_neg (by omega), show depth + (outer + 1) + 1 = depth + 1 + (outer + 1) by omega, hrest]
      omega
    · rw [if_neg hopen] at h ⊢
      by_cases hclose : c = ')'
      · rw [if_pos hclose, Bool.and_eq_true] at h
        rw [if_pos hclose]
        have hdepth : depth ≠ 0 := by simpa using h.1
        have hrest := ih h.2
        rw [if_neg (by omega), show depth + (outer + 1) - 1 = depth - 1 + (outer + 1) by omega,
          hrest]
        omega
      · rw [if_neg hclose] at h ⊢
        rw [if_neg (by omega), ih h]
        omega

theorem parensMatch_append {depth : ℕ} {s t : Text} (hs : parensMatch depth s = true)
    (ht : parensMatch 0 t = true) : parensMatch depth (s ++ t) = true := by
  induction s generalizing depth with
  | nil =>
    obtain rfl : depth = 0 := by simpa [parensMatch] using hs
    exact ht
  | cons c s ih =>
    rw [parensMatch] at hs
    rw [List.cons_append, parensMatch]
    split_ifs at hs ⊢
    · exact ih hs
    · rw [Bool.and_eq_true] at hs ⊢
      exact ⟨hs.1, ih hs.2⟩
    · exact ih hs

theorem parensMatch_of_notMem {s : Text} (hopen : '(' ∉ s) (hclose : ')' ∉ s) :
    parensMatch 0 s = true := by
  induction s with
  | nil => rfl
  | cons c s ih =>
    rw [List.mem_cons, not_or] at hopen hclose
    rw [parensMatch, if_neg (Ne.symm hopen.1), if_neg (Ne.symm hclose.1)]
    exact ih hopen.2 hclose.2

/-! ### Clauses -/

/-- A clause of a header: nothing to trim, no semicolon, and parentheses that match. -/
structure IsClause (s : Text) : Prop where
  trimmed : Trimmed s
  semicolon : ';' ∉ s
  parens : parensMatch 0 s = true

theorem IsClause.append {s t u : Text} (hs : IsClause s) (ht : IsClause t)
    (hu : ∀ c ∈ u, c ≠ ';' ∧ c ≠ '(' ∧ c ≠ ')') : IsClause (s ++ u ++ t) where
  trimmed := hs.trimmed.append ht.trimmed u
  semicolon := by
    simp only [List.mem_append, not_or]
    exact ⟨⟨hs.semicolon, fun h => (hu _ h).1 rfl⟩, ht.semicolon⟩
  parens := parensMatch_append (parensMatch_append hs.parens (parensMatch_of_notMem
    (fun h => (hu _ h).2.1 rfl) fun h => (hu _ h).2.2 rfl)) ht.parens

theorem isClause_of_isInk {s : Text} (hne : s ≠ []) (h : ∀ c ∈ s, isInk c = true)
    (hparens : '(' ∉ s ∧ ')' ∉ s) : IsClause s where
  trimmed := trimmed_of_isInk hne h
  semicolon := fun hmem => absurd (h ';' hmem) (by decide)
  parens := parensMatch_of_notMem hparens.1 hparens.2

theorem isClause_identifier {w : Text} (hw : isIdentifier w = true) : IsClause w where
  trimmed := trimmed_identifier hw
  semicolon := ne_of_mem_identifier hw (by decide) (by decide)
  parens := parensMatch_of_notMem (ne_of_mem_identifier hw (by decide) (by decide))
    (ne_of_mem_identifier hw (by decide) (by decide))

/-! ### Updates -/

/-- The operators of updates that the interpreter looks for, in this order. -/
def updateOps : List Text := [lit "+=", lit "-=", lit "*=", lit "/=", lit "%="]

/-- The update of one variable. -/
inductive ForUpdate where
  | step (isPre isInc : Bool) (var : Text)
  | compound (var op rhs : Text)
  | assign (var rhs : Text)
deriving DecidableEq, Repr

namespace ForUpdate

/-- The operator of an increment or decrement. -/
def stepText (isInc : Bool) : Text := if isInc then lit "++" else lit "--"

/-- An update clause. -/
def text : ForUpdate → Text
  | step isPre isInc var => if isPre then stepText isInc ++ var else var ++ stepText isInc
  | compound var op rhs => var ++ ' ' :: (op ++ ' ' :: rhs)
  | assign var rhs => var ++ ' ' :: '=' :: ' ' :: rhs

/-- The right side of an assignment: a clause without another assignment in it. -/
structure IsSource (rhs : Text) : Prop where
  clause : IsClause rhs
  plain : ∀ op ∈ updateOps, cut op rhs = none

/-- The parts of an update are what they should be. -/
def WellFormed : ForUpdate → Prop
  | step _ _ var => isIdentifier var = true
  | compound var op rhs => isIdentifier var = true ∧ op ∈ updateOps ∧ IsSource rhs
  | assign var rhs => isIdentifier var = true ∧ IsSource rhs

theorem isClause_text {update : ForUpdate} (h : update.WellFormed) : IsClause update.text := by
  cases update with
  | step isPre isInc var =>
    have hop : IsClause (stepText isInc) := by
      cases isInc <;> exact isClause_of_isInk (by decide) (by decide) (by decide)
    cases isPre with
    | false => simpa [text] using (isClause_identifier h).append hop (u := []) (by simp)
    | true => simpa [text] using hop.append (isClause_identifier h) (u := []) (by simp)
  | compound var op rhs =>
    obtain ⟨hvar, hop, hrhs⟩ := h
    have htext : text (compound var op rhs) = var ++ (' ' :: (op ++ [' '])) ++ rhs := by
      simp [text]
    rw [htext]
    refine (isClause_identifier hvar).append hrhs.clause ?_
    exact (by decide : ∀ op ∈ updateOps, ∀ c ∈ ' ' :: (op ++ [' ']),
      c ≠ ';' ∧ c ≠ '(' ∧ c ≠ ')') op hop
  | assign var rhs =>
    have htext : text (assign var rhs) = var ++ lit " = " ++ rhs := by
      rw [List.append_assoc]
      rfl
    rw [htext]
    exact (isClause_identifier h.1).append h.2.clause (by decide)

end ForUpdate

/-! ### Headers -/

/-- The header of a loop: it declares or assigns a variable, which is not declared if there is no
type. -/
structure ForHeader where
  typeWord : Option Text
  name : Text
  init : Text
  cond : Text
  update : ForUpdate
  isIdentifier_typeWord : ∀ w ∈ typeWord, isIdentifier w = true
  isIdentifier_name : isIdentifier name = true
  isClause_init : IsClause init
  isClause_cond : IsClause cond
  wellFormed_update : update.WellFormed

namespace ForHeader

variable (h : ForHeader)

/-- The assignment in the first clause. -/
def initAssign : Text := h.name ++ lit " = " ++ h.init

/-- The first clause. -/
def initClause : Text :=
  match h.typeWord with
  | none => h.initAssign
  | some w => w ++ [' '] ++ h.initAssign

/-- The three clauses. -/
def inner : Text := h.initClause ++ lit "; " ++ (h.cond ++ lit "; " ++ h.update.text)

/-- The header. -/
def text : Text := lit "for (" ++ (h.inner ++ lit ") {}")

theorem isClause_initAssign : IsClause h.initAssign :=
  (isClause_identifier h.isIdentifier_name).append h.isClause_init (by decide)

theorem isClause_initClause : IsClause h.initClause := by
  rw [initClause]
  cases hword : h.typeWord with
  | none => exact h.isClause_initAssign
  | some w =>
    exact (isClause_identifier (h.isIdentifier_typeWord w hword)).append h.isClause_initAssign
      (by decide)

theorem isClause_update : IsClause h.update.text := ForUpdate.isClause_text h.wellFormed_update

theorem parensMatch_inner : parensMatch 0 h.inner = true := by
  have hstop : parensMatch 0 (lit "; ") = true := by decide
  exact parensMatch_append (parensMatch_append h.isClause_initClause.parens hstop)
    (parensMatch_append (parensMatch_append h.isClause_cond.parens hstop) h.isClause_update.parens)

/-! #### Cutting out clauses -/

theorem bareStmt_text : strip h.text = h.text ∧ bareStmt h.text = h.text := by
  have hends : h.text = (lit "for (" ++ (h.inner ++ lit ") \x7b")) ++ ['}'] := by
    rw [text, List.append_assoc, List.append_assoc]
    rfl
  have hcons : h.text = 'f' :: (lit "or (" ++ (h.inner ++ lit ") {}")) := rfl
  rw [hcons] at hends ⊢
  exact ⟨strip_of_ends hends (by decide) (by decide), strip_of_ink hends (by decide) (by decide)⟩

theorem firstWord_text : firstWord h.text = lit "for" :=
  firstWord_append (w := lit "for") (by decide) ('(' :: (h.inner ++ lit ") {}"))

theorem betweenParens_text : betweenParens h.text = some h.inner := by
  have hopen : h.text.idxOf '(' = 4 := rfl
  have hclose : h.text.reverse.idxOf ')' = 3 := by
    rw [text, List.reverse_append, List.reverse_append]
    rfl
  have htake : h.text.take (h.text.length - 1 - 3) = lit "for (" ++ h.inner := by
    have hlength : h.text.length - 1 - 3 = (lit "for (" ++ h.inner).length := by
      simp only [text, List.length_append, show (lit ") {}").length = 4 from rfl]
      omega
    rw [hlength, text, ← List.append_assoc, List.take_left]
  have hmem : '(' ∈ h.text ∧ ')' ∈ h.text := by
    simp [text, lit]
  rw [betweenParens, if_pos hmem, hopen, hclose]
  dsimp only
  rw [htake]
  rfl

theorem cut_inner : cut [';'] h.inner
    = some (h.initClause, ' ' :: (h.cond ++ lit "; " ++ h.update.text)) := by
  have hinner : h.inner = h.initClause ++ ';' :: ' ' :: (h.cond ++ lit "; " ++ h.update.text) :=
    List.append_assoc _ _ _
  rw [hinner, cut_singleton h.isClause_initClause.semicolon]

theorem extractForUpdate_text : extractForUpdate h.text = some h.update.text := by
  have hopen : h.text.idxOf '(' = 4 := rfl
  have hdrop : h.text.drop 5 = h.inner ++ lit ") {}" := rfl
  have hclosing : closingParen 1 (h.inner ++ lit ") {}") = h.inner.length + 1 :=
    closingParen_append h.parensMatch_inner 0 (lit ") {}")
  have hrest : cut [';'] (' ' :: (h.cond ++ lit "; " ++ h.update.text))
      = some (' ' :: h.cond, ' ' :: h.update.text) := by
    have hcond : ';' ∉ ' ' :: h.cond := by
      rw [List.mem_cons, not_or]
      exact ⟨by decide, h.isClause_cond.semicolon⟩
    rw [List.append_assoc]
    exact cut_singleton hcond (' ' :: h.update.text)
  have hstarts : startsWith h.text (lit "for") ∧ '(' ∈ h.text := by
    simp [text, lit, startsWith, Csc512.text]
  rw [extractForUpdate, h.bareStmt_text.1]
  dsimp only
  rw [if_pos hstarts, hopen, hdrop, hclosing, Nat.add_sub_cancel, List.take_left, h.cut_inner,
    Option.bind_some, hrest, Option.map_some]
  exact congrArg some h.isClause_update.trimmed.strip_cons

theorem takeWhile_inner (rest : Text) :
    (h.inner ++ rest).takeWhile (fun c => decide (c ≠ ';')) = h.initClause := by
  have hinner : h.inner ++ rest = h.initClause ++ ';' :: (' ' :: (h.cond ++ lit "; " ++
      h.update.text) ++ rest) := by
    rw [inner, List.append_assoc, List.append_assoc]
    rfl
  have hfirst : ∀ c ∈ h.initClause, decide (c ≠ ';') = true := by
    intro c hc
    exact decide_eq_true fun heq => h.isClause_initClause.semicolon (heq ▸ hc)
  rw [hinner, List.takeWhile_append_of_pos hfirst, List.takeWhile_cons_of_neg (by decide),
    List.append_nil]

/-- The first clause has one assignment, behind the name. -/
theorem initClause_eq : ∃ front, h.initClause = front ++ '=' :: ' ' :: h.init ∧ '=' ∉ front := by
  have hname : '=' ∉ h.name := ne_of_mem_identifier h.isIdentifier_name (by decide) (by decide)
  have hassign : h.initAssign = h.name ++ [' '] ++ '=' :: ' ' :: h.init := by
    rw [initAssign, List.append_assoc, List.append_assoc]
    rfl
  rw [initClause]
  cases hword : h.typeWord with
  | none => exact ⟨h.name ++ [' '], hassign, by simp [hname]⟩
  | some w =>
    have hw : '=' ∉ w :=
      ne_of_mem_identifier (h.isIdentifier_typeWord w hword) (by decide) (by decide)
    exact ⟨w ++ [' '] ++ (h.name ++ [' ']), by dsimp only; rw [hassign]; simp,
      by simp [hname, hw]⟩

/-- The initial value that the interpreter reads. -/
theorem parseForInit_text (U : CharTable) :
    parseForInit U h.text = (decimalInt U h.init).getD 0 := by
  obtain ⟨front, hclause, hfront⟩ := h.initClause_eq
  have hopen : h.text.dropWhile (fun c => decide (c ≠ '(')) = '(' :: (h.inner ++ lit ") {}") := rfl
  have hstrip : strip (((h.text.dropWhile fun c => decide (c ≠ '(')).drop 1).takeWhile
      fun c => decide (c ≠ ';')) = h.initClause := by
    rw [hopen, List.drop_one, List.tail_cons, takeWhile_inner, h.isClause_initClause.trimmed.strip_eq]
  have hmem : '(' ∈ h.text ∧ '=' ∈ h.initClause := by
    rw [hclause]
    simp [text, lit]
  have hrest : (h.initClause.dropWhile fun c => decide (c ≠ '=')).drop 1 = ' ' :: h.init := by
    rw [hclause, List.dropWhile_append_of_pos, List.dropWhile_cons_of_neg (by decide)]
    · rfl
    · intro c hc
      exact decide_eq_true fun heq => hfront (heq ▸ hc)
  rw [parseForInit, hstrip, if_pos hmem, hrest, h.isClause_init.trimmed.strip_cons]

/-- The condition that the parser reads. -/
theorem extractCondition_text : extractCondition h.text .loopHead = some h.cond := by
  have hsplit : h.inner.splitOn ';' = [h.initClause, ' ' :: h.cond, ' ' :: h.update.text] := by
    have hinner : h.inner = [';'].intercalate [h.initClause, ' ' :: h.cond,
        ' ' :: h.update.text] := by
      simp [inner, lit, List.intercalate]
    rw [hinner]
    refine List.splitOn_intercalate ';' ?_ (List.cons_ne_nil _ _)
    have hblank : ∀ {s : Text}, IsClause s → ';' ∉ ' ' :: s := by
      intro s hs
      rw [List.mem_cons, not_or]
      exact ⟨by decide, hs.semicolon⟩
    simp only [List.forall_mem_cons]
    exact ⟨h.isClause_initClause.semicolon, hblank h.isClause_cond, hblank h.isClause_update,
      fun _ hmem => absurd hmem List.not_mem_nil⟩
  have hwhile : startsWith h.text (lit "while") = false := rfl
  have hdo : startsWith h.text (lit "do") = false := rfl
  have hfor : startsWith h.text (lit "for") = true := rfl
  rw [extractCondition, h.bareStmt_text.1]
  dsimp only
  rw [hwhile, hdo, hfor, h.betweenParens_text, Option.bind_some, hsplit]
  exact congrArg some h.isClause_cond.trimmed.strip_cons

/-! #### What the parser finds -/

/-- What the parser makes of a header that declares its variable. -/
structure Parsed (U : CharTable) (stmt : Statement) : Prop where
  kind : stmt.kind = .loopHead
  raw : stmt.raw = h.text
  type : stmt.type = none
  lName : stmt.lName = some h.name
  expr : stmt.expr = parseExpr U h.cond

variable (U : CharTable) {known : List Text} (udtVars : List Text)

theorem forIterator_text {w : Text} (hword : h.typeWord = some w) (hknown : w ∈ known) :
    forIterator U known h.text = some (h.name, w) := by
  have hw := h.isIdentifier_typeWord w hword
  have hclause : h.initClause = w ++ ' ' :: h.initAssign := by
    rw [initClause, hword]
    exact List.append_assoc _ _ _
  have hfirst := h.takeWhile_inner []
  rw [List.append_nil] at hfirst
  have hmem : firstWord h.text = lit "for" ∧ '(' ∈ h.text ∧ ';' ∈ h.text := by
    refine ⟨h.firstWord_text, ?_⟩
    simp [text, inner, lit]
  have hassign : h.initAssign = h.name ++ (lit " = " ++ h.init) := List.append_assoc _ _ _
  have hafter : afterType h.initClause w = h.initAssign := by
    have hstar : ∀ c ∈ h.initAssign.head?, c ≠ '*' := by
      rw [hassign]
      exact head?_identifier_append h.isIdentifier_name _
    rw [hclause]
    exact afterType_append (s := h.initAssign) w 0 h.isClause_initAssign.trimmed hstar
  have hident : identPrefix U h.initAssign = some (h.name, lit " = " ++ h.init) := by
    rw [hassign]
    refine identPrefix_append U h.isIdentifier_name fun c hc => ?_
    obtain rfl : ' ' = c := by simpa [lit] using hc
    exact isWordChar_eq_false U (by decide) (by decide) (by decide)
  rw [forIterator, if_pos hmem, h.betweenParens_text, Option.bind_some]
  dsimp only
  rw [hfirst, h.isClause_initClause.trimmed.strip_eq, hclause, words_append hw, List.head?_cons,
    Option.bind_some, rstripChar_star hw, if_pos hknown, ← hclause, hafter, hident]
  rfl

/-- **The statement that the parser makes of a header.** -/
theorem parsed {w : Text} (hword : h.typeWord = some w) (hknown : w ∈ known)
    (memory : List Slot) : h.Parsed U (parsedStmt U known udtVars memory h.text) := by
  have hblock : contains (lit "{}") h.text = true := by
    have htext : h.text = (lit "for (" ++ h.inner ++ lit ") ") ++ '{' :: '}' :: [] := by
      rw [text, List.append_assoc, List.append_assoc]
      rfl
    rw [contains_iff, htext, countPlaceholders_braces]
    omega
  have hloop : lit "for" ∈ loopKeywords := by decide
  have hstmt : classifyStatement U known udtVars h.text
      = { raw := h.text, kind := .loopHead, lName := some h.name, iteratorType := some w,
          rNames := extractIdentifiers U known udtVars h.text } := by
    rw [classifyStatement, if_pos hblock, h.bareStmt_text.2, classifyBlock, h.firstWord_text,
      if_pos hloop, h.forIterator_text U hword hknown]
    rfl
  rw [parsedStmt, hstmt]
  refine ⟨rfl, rfl, rfl, rfl, ?_⟩
  show (extractCondition h.text .loopHead).bind (parseExpr U) = _
  rw [h.extractCondition_text]
  rfl

end ForHeader

end Csc512
