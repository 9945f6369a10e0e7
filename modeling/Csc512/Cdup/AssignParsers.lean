import Csc512.Cdup.Spelling

/-!
# The two parsers of an assignment

A statement is classified as an assignment by one function, and another one builds its expression.
Both look for the spelling of an operator in the text. The first one goes on until what stands
before the operator is a variable or a member, the second one takes the first spelling that occurs
anywhere, also in a literal, in an argument or in an assignment within the right side.

## Main results

* `BeforeOp.ownAssign_op` — the operator behind a variable or a member is the statement's own
* `BeforeOp.assignParts_eq_some_iff` — when the second function finds the operator of the first one
* `assignParsersAgree_iff` — when both agree with the operator that the statement has
-/

namespace Csc512

open Pattern

/-! ### The operator of an assignment -/

/-- The operators in whose spelling an assignment operator could be seen, and the assignment
operators, no operator before a longer one that begins with it. -/
def operatorTokens : List Text :=
  ["<<=", ">>=", "+=", "-=", "*=", "/=", "%=", "&=", "|=", "^=", "==", "!=", "<=", ">=", "->",
    "++", "--", "&&", "||", "<<", ">>", "="].map String.toList

/-- The longest operator that a text begins with. -/
def operatorToken (s : Text) : Option Text := operatorTokens.find? (·.isPrefixOf s)

/-- Where in an expression a reader stands. -/
inductive ExprPlace where
  /-- In a token of which `left` characters are to come. -/
  | token (left : ℕ)
  | literal (quote : Char)
  | escape (quote : Char)
deriving DecidableEq, Repr

/-- The first assignment operator outside of parentheses, brackets and literals, with the text
before and the text after it. -/
def ownAssign : ExprPlace → ℕ → Text → Option (Text × Text × Text)
  | _, _, [] => none
  | place, depth, c :: s =>
    let past := fun place depth =>
      (ownAssign place depth s).map fun r => (c :: r.1, r.2.1, r.2.2)
    match place with
    | .literal quote =>
      past (if c = '\\' then .escape quote else if c = quote then .token 0 else .literal quote) depth
    | .escape quote => past (.literal quote) depth
    | .token (left + 1) => past (.token left) depth
    | .token 0 =>
      if c = '"' ∨ c = '\'' then past (.literal c) depth
      else if c = '(' ∨ c = '[' then past (.token 0) (depth + 1)
      else if c = ')' ∨ c = ']' then past (.token 0) (depth - 1)
      else
        match operatorToken (c :: s) with
        | none => past (.token 0) depth
        | some op =>
          if depth = 0 ∧ op ∈ assignOps then some ([], op, (c :: s).drop op.length)
          else past (.token (op.length - 1)) depth

theorem operatorToken_eq_some {s op : Text} (h : operatorToken s = some op) :
    op ∈ operatorTokens ∧ op <+: s := by
  have hprefix : op.isPrefixOf s = true :=
    List.find?_some (p := fun token : Text => token.isPrefixOf s) h
  exact ⟨List.mem_of_find?_eq_some h, List.isPrefixOf_iff_prefix.mp hprefix⟩

theorem operatorToken_comparison (s : Text) : operatorToken ('=' :: '=' :: s) = some (lit "==") :=
  rfl

/-- What is read as an operator is in the text, and no part of a comparison. -/
theorem eq_append_of_ownAssign {place : ExprPlace} {depth : ℕ} {s before op after : Text}
    (h : ownAssign place depth s = some (before, op, after)) :
    s = before ++ op ++ after ∧ op ∈ assignOps ∧ (op = lit "=" → after.head? ≠ some '=') := by
  induction s generalizing place depth before with
  | nil => cases h
  | cons c s ih =>
    have hpast : ∀ {place depth}, ((ownAssign place depth s).map fun r =>
        (c :: r.1, r.2.1, r.2.2)) = some (before, op, after) →
        c :: s = before ++ op ++ after ∧ op ∈ assignOps ∧
          (op = lit "=" → after.head? ≠ some '=') := by
      intro place depth hmap
      obtain ⟨⟨front, op', after'⟩, hr, heq⟩ := Option.map_eq_some_iff.mp hmap
      obtain ⟨rfl, hrest⟩ := Prod.mk.inj heq
      obtain ⟨rfl, rfl⟩ := Prod.mk.inj hrest
      obtain ⟨hs, hop, hcomparison⟩ := ih hr
      exact ⟨by rw [hs]; rfl, hop, hcomparison⟩
    cases place with
    | literal quote => exact hpast h
    | escape quote => exact hpast h
    | token left =>
      cases left with
      | succ left => exact hpast h
      | zero =>
        simp only [ownAssign] at h
        split at h
        · exact hpast h
        split at h
        · exact hpast h
        split at h
        · exact hpast h
        split at h
        · exact hpast h
        rename_i token htoken
        split at h
        · rename_i hassign
          obtain ⟨rfl, hrest⟩ := Prod.mk.inj (Option.some.inj h)
          obtain ⟨rfl, rfl⟩ := Prod.mk.inj hrest
          obtain ⟨t, ht⟩ := (operatorToken_eq_some htoken).2
          refine ⟨?_, hassign.2, ?_⟩
          · rw [← ht, List.drop_left, List.nil_append]
          · rintro rfl hhead
            rw [← ht, List.drop_left] at hhead
            obtain ⟨u, rfl⟩ := List.head?_eq_some_iff.mp hhead
            rw [← ht] at htoken
            exact absurd htoken (by rw [show lit "=" ++ '=' :: u = '=' :: '=' :: u from rfl,
              operatorToken_comparison]; decide)
        · exact hpast h

/-! ### Targets -/

section Targets

variable (U : CharTable)

/-- The name that an assignment writes whose operator is behind the text `lhs`. -/
def targetName (udtVars : List Text) (lhs : Text) : Option Text :=
  match (memberPattern U memberSep).fullMatch lhs with
  | some m =>
    let root := groupText 1 m
    some (if root ∈ udtVars then root ++ '.' :: groupText 2 m else root)
  | none =>
    match identPrefix U lhs with
    | some (name, []) => some name
    | _ => none

/-- The characters of names, the white space around them, and the dot between them. -/
def IsNameChar (c : Char) : Prop := isWordChar U c ∨ isSpace c ∨ c = '.'

/-- The marks of operators, brackets and literals. -/
def exprMarks : List Char := "\"'()[]<>=+-*/%&|^!".toList

variable {U}

theorem IsNameChar.notMem_exprMarks {c : Char} (h : IsNameChar U c) : c ∉ exprMarks := by
  have hmarks : ∀ d ∈ exprMarks, d.toNat < 128 ∧ d.isAlphanum = false ∧ d ≠ '_' ∧
      isSpace d = false ∧ d ≠ '.' := by decide
  intro hc
  obtain ⟨hlt, halnum, hne, hspace, hdot⟩ := hmarks c hc
  rcases h with h | h | h
  · rw [isWordChar_eq_false U hlt halnum hne] at h
    cases h
  · rw [hspace] at h
    cases h
  · exact hdot h

/-- The text before the operator of an assignment: names, with at most one arrow between them. -/
inductive BeforeOp (U : CharTable) : Text → Prop
  | name {w : Text} (hw : ∀ c ∈ w, IsNameChar U c) (hne : w ≠ []) : BeforeOp U w
  | arrow {v w : Text} (hv : ∀ c ∈ v, IsNameChar U c) (hw : ∀ c ∈ w, IsNameChar U c)
    (hne : w ≠ []) : BeforeOp U (v ++ '-' :: '>' :: w)

theorem isNameChar_of_reads {w : Text} (h : Reads (identPattern U) w) :
    w ≠ [] ∧ ∀ c ∈ w, IsNameChar U c := by
  cases h with
  | @seq _ _ s t hp hq =>
    cases hp with
    | @char _ c hc =>
      refine ⟨List.cons_ne_nil _ _, fun d hd => Or.inl ?_⟩
      rcases List.mem_cons.mp hd with rfl | hd
      · exact isWordChar_of_isIdentStart hc
      · exact hq.forall_of_star_char d hd

theorem BeforeOp.append_blanks {s blanks : Text} (h : BeforeOp U s)
    (hblanks : ∀ c ∈ blanks, isSpace c) : BeforeOp U (s ++ blanks) := by
  have hname : ∀ {w : Text}, (∀ c ∈ w, IsNameChar U c) → ∀ c ∈ w ++ blanks, IsNameChar U c :=
    fun hw c hc => (List.mem_append.mp hc).elim (hw c) fun hc => Or.inr (Or.inl (hblanks c hc))
  cases h with
  | name hw hne => exact .name (hname hw) (List.append_ne_nil_of_left_ne_nil hne _)
  | arrow hv hw hne =>
    rw [List.append_assoc]
    exact .arrow hv (hname hw) (List.append_ne_nil_of_left_ne_nil hne _)

theorem BeforeOp.blanks_append {s blanks : Text} (h : BeforeOp U s)
    (hblanks : ∀ c ∈ blanks, isSpace c) : BeforeOp U (blanks ++ s) := by
  have hname : ∀ {w : Text}, (∀ c ∈ w, IsNameChar U c) → ∀ c ∈ blanks ++ w, IsNameChar U c :=
    fun hw c hc => (List.mem_append.mp hc).elim (fun hc => Or.inr (Or.inl (hblanks c hc))) (hw c)
  cases h with
  | name hw hne => exact .name (hname hw) (List.append_ne_nil_of_right_ne_nil _ hne)
  | arrow hv hw hne =>
    rw [← List.append_assoc]
    exact .arrow (hname hv) hw hne

/-- A text that names a variable or a member. -/
theorem beforeOp_of_targetName {udtVars : List Text} {lhs name : Text}
    (h : targetName U udtVars lhs = some name) : BeforeOp U lhs := by
  rw [targetName] at h
  split at h
  · rename_i m hm
    have hreads := (isSome_fullMatch_iff rfl).mp (Option.isSome_of_mem hm)
    simp only [memberPattern, seqs] at hreads
    cases hreads with
    | @seq _ _ v rest hv hrest =>
      cases hv with
      | group hv =>
        cases hrest with
        | @seq _ _ sep t hsep ht =>
          cases ht with
          | @seq _ _ w e hw he =>
            cases hw with
            | group hw =>
              cases he
              rw [List.append_nil]
              obtain ⟨-, hv⟩ := isNameChar_of_reads hv
              obtain ⟨hne, hw⟩ := isNameChar_of_reads hw
              cases hsep with
              | left hdot =>
                cases hdot with
                | char hc =>
                  obtain rfl := of_decide_eq_true hc
                  refine .name (fun d hd => ?_) (by simp)
                  rcases List.mem_append.mp hd with hd | hd
                  · exact hv d hd
                  · rcases List.mem_cons.mp hd with rfl | hd
                    · exact Or.inr (Or.inr rfl)
                    · exact hw d hd
              | right harrow =>
                rw [harrow.eq_of_literal]
                exact .arrow hv hw hne
  · split at h
    · rename_i name' hprefix
      obtain ⟨c, hc, heq⟩ := Option.map_eq_some_iff.mp hprefix
      obtain ⟨t, ht, hreads⟩ := exists_reads_of_mem_run _ _ c (List.mem_of_head? hc)
      rw [(Prod.mk.inj heq).2, List.append_nil] at ht
      obtain ⟨hne, hw⟩ := isNameChar_of_reads hreads
      rw [show lhs = t from ht]
      exact .name hw hne
    · cases h

/-- The text before the operator of an assignment, with the white space around it. -/
theorem beforeOp_of_strip {udtVars : List Text} {before : Text}
    (h : (targetName U udtVars (strip before)).isSome) : BeforeOp U before := by
  obtain ⟨name, hname⟩ := Option.isSome_iff_exists.mp h
  have hstrip := beforeOp_of_targetName hname
  have hleft : before.takeWhile isSpace ++ lstrip before = before :=
    List.takeWhile_append_dropWhile
  have hright : strip before ++ (lstrip before).rtakeWhile isSpace = lstrip before :=
    List.rdropWhile_append_rtakeWhile
  rw [← hleft, ← hright]
  exact (hstrip.append_blanks fun c hc => List.mem_rtakeWhile_imp hc).blanks_append
    fun c hc => List.mem_takeWhile_imp hc

/-- What is classified as an assignment with an operator. -/
theorem exists_cut_of_classifyAssignOp {known udtVars : List Text} {raw s op : Text}
    {stmt : Statement} (h : classifyAssignOp U known udtVars raw s op = some stmt) :
    ∃ before after, cut op s = some (before, after) ∧
      targetName U udtVars (strip before) = stmt.lName ∧ stmt.lName.isSome := by
  obtain ⟨⟨before, after⟩, hcut, h⟩ := Option.bind_eq_some_iff.mp h
  refine ⟨before, after, hcut, ?_⟩
  dsimp only at h
  split_ifs at h
  split at h
  · rename_i m hm
    obtain rfl := Option.some.inj h
    rw [targetName, hm]
    exact ⟨rfl, rfl⟩
  · rename_i hnone
    split at h
    · rename_i name hname
      obtain rfl := Option.some.inj h
      rw [targetName, hnone, hname]
      exact ⟨rfl, rfl⟩
    · cases h

theorem BeforeOp.notMem_equals {s : Text} (h : BeforeOp U s) : '=' ∉ s := by
  have hname : ∀ {w : Text}, (∀ c ∈ w, IsNameChar U c) → '=' ∉ w :=
    fun hw hmem => (hw _ hmem).notMem_exprMarks (by decide)
  cases h with
  | name hw _ => exact hname hw
  | arrow hv hw _ => simp [hname hv, hname hw]

/-- The text before an operator ends with a name. -/
theorem BeforeOp.exists_concat {s : Text} (h : BeforeOp U s) :
    ∃ t c, s = t ++ [c] ∧ c ∉ exprMarks := by
  have hname : ∀ {w : Text}, (∀ c ∈ w, IsNameChar U c) → w ≠ [] →
      ∃ t c, w = t ++ [c] ∧ c ∉ exprMarks := by
    intro w hw hne
    refine ⟨_, _, (List.dropLast_append_getLast hne).symm, ?_⟩
    exact (hw _ (List.getLast_mem hne)).notMem_exprMarks
  cases h with
  | name hw hne => exact hname hw hne
  | @arrow v w hv hw hne =>
    obtain ⟨t, c, rfl, hc⟩ := hname hw hne
    exact ⟨v ++ '-' :: '>' :: t, c, by simp, hc⟩

/-- Where the text before an operator ends. -/
theorem BeforeOp.suffix_of_append_eq {s op p q : Text} (h : BeforeOp U s)
    (hq : ∀ c ∈ q, c ∈ exprMarks) (heq : s ++ op = p ++ q) : q <:+ op := by
  rcases List.append_eq_append_iff.mp heq with ⟨x, -, hx⟩ | ⟨x, hs, hx⟩
  · exact ⟨x, hx.symm⟩
  · -- the rest of `s` is a part of `q`, and `s` does not end with a mark
    rcases List.eq_nil_or_concat x with rfl | ⟨y, d, rfl⟩
    · rw [List.nil_append] at hx
      exact hx ▸ List.suffix_refl _
    · obtain ⟨t, c, rfl, hc⟩ := h.exists_concat
      have hlast : d = c := by
        have := congrArg List.getLast? hs
        simpa using this.symm
      subst hlast
      exact absurd (hq d (by rw [hx]; simp)) hc

/-- The operator of an assignment, as its first characters and the equals sign. -/
theorem exists_of_mem_assignOps : ∀ op ∈ assignOps, ∃ o, op = o ++ ['='] ∧ '=' ∉ o ∧
    ∀ c ∈ o, c ∈ exprMarks := by
  have hall : ∀ op ∈ assignOps, op = op.dropLast ++ ['='] ∧ '=' ∉ op.dropLast ∧
      ∀ c ∈ op.dropLast, c ∈ exprMarks := by decide
  exact fun op hop => ⟨op.dropLast, hall op hop⟩

/-- **A text has one target** and one operator behind it. -/
theorem BeforeOp.inj {s s' op op' after after' : Text} (h : BeforeOp U s) (h' : BeforeOp U s')
    (hop : op ∈ assignOps) (hop' : op' ∈ assignOps) (heq : s ++ op ++ after = s' ++ op' ++ after') :
    s = s' ∧ op = op' ∧ after = after' := by
  obtain ⟨o, rfl, ho, hmarks⟩ := exists_of_mem_assignOps op hop
  obtain ⟨o', rfl, ho', hmarks'⟩ := exists_of_mem_assignOps op' hop'
  rw [← List.append_assoc, ← List.append_assoc, ← List.append_cons, ← List.append_cons] at heq
  obtain ⟨hfront, hafter⟩ := append_cons_inj (List.not_mem_append h.notMem_equals ho)
    (List.not_mem_append h'.notMem_equals ho') heq
  have hle := (h.suffix_of_append_eq hmarks' hfront).length_le
  have hge := (h'.suffix_of_append_eq hmarks hfront.symm).length_le
  obtain ⟨rfl, rfl⟩ := List.append_inj' hfront (le_antisymm hge hle)
  exact ⟨rfl, rfl, hafter⟩

/-! ### The reader of operators at a target -/

theorem operatorToken_nameChar {c : Char} (h : IsNameChar U c) (s : Text) :
    operatorToken (c :: s) = none := by
  have hheads : ∀ op ∈ operatorTokens, ∃ d t, op = d :: t ∧ d ∈ exprMarks := by
    have hall : ∀ op ∈ operatorTokens, op.head?.any (· ∈ exprMarks) := by decide
    intro op hop
    obtain ⟨d, hd, hmem⟩ := (Option.any_eq_true _ _).mp (hall op hop)
    obtain ⟨t, rfl⟩ := List.head?_eq_some_iff.mp hd
    exact ⟨d, t, rfl, of_decide_eq_true hmem⟩
  refine List.find?_eq_none.mpr fun op hop hprefix => ?_
  obtain ⟨d, t, rfl, hd⟩ := hheads op hop
  obtain ⟨rfl, -⟩ := List.cons_prefix_cons.mp (List.isPrefixOf_iff_prefix.mp hprefix)
  exact h.notMem_exprMarks hd

/-- The reader goes past names. -/
theorem ownAssign_name_append {w : Text} (hw : ∀ c ∈ w, IsNameChar U c) (s : Text) :
    ownAssign (.token 0) 0 (w ++ s) =
      (ownAssign (.token 0) 0 s).map fun r => (w ++ r.1, r.2.1, r.2.2) := by
  induction w with
  | nil => simp
  | cons c w ih =>
    obtain ⟨hc, hw⟩ := List.forall_mem_cons.mp hw
    have hmark := hc.notMem_exprMarks
    have hne : ∀ d ∈ exprMarks, c ≠ d := fun d hd heq => hmark (heq ▸ hd)
    rw [List.cons_append, ownAssign]
    simp only [hne '"' (by decide), hne '\'' (by decide), hne '(' (by decide),
      hne '[' (by decide), hne ')' (by decide), hne ']' (by decide), or_self, if_false,
      operatorToken_nameChar hc, ih hw, Option.map_map]
    rfl

theorem ownAssign_arrow (s : Text) : ownAssign (.token 0) 0 ('-' :: '>' :: s) =
    (ownAssign (.token 0) 0 s).map fun r => ('-' :: '>' :: r.1, r.2.1, r.2.2) := by
  have htoken : operatorToken ('-' :: '>' :: s) = some (lit "->") := rfl
  rw [ownAssign]
  simp only [htoken]
  rw [if_neg (by decide), if_neg (by decide), if_neg (by decide), if_neg (by decide)]
  show ((ownAssign (.token 0) 0 s).map _).map _ = _
  rw [Option.map_map]
  rfl

/-- The reader goes past a target. -/
theorem BeforeOp.ownAssign_append {before : Text} (h : BeforeOp U before) (s : Text) :
    ownAssign (.token 0) 0 (before ++ s) =
      (ownAssign (.token 0) 0 s).map fun r => (before ++ r.1, r.2.1, r.2.2) := by
  cases h with
  | name hw _ => exact ownAssign_name_append hw s
  | @arrow v w hv hw _ =>
    rw [List.append_assoc, ownAssign_name_append hv, List.cons_append, List.cons_append,
      ownAssign_arrow, ownAssign_name_append hw, Option.map_map, Option.map_map]
    simp [Function.comp_def]

/-- An equals sign that no other one follows is an operator. -/
theorem operatorToken_equals {after : Text} (h : after.head? ≠ some '=') :
    operatorToken ('=' :: after) = some (lit "=") := by
  cases after with
  | nil => rfl
  | cons c s =>
    have hc : ('=' == c) = false := by
      rw [beq_eq_false_iff_ne]
      exact fun heq => h (congrArg some heq.symm)
    simp [operatorToken, operatorTokens, lit, List.isPrefixOf, hc]

/-- The reader stops at an operator that is no comparison. -/
theorem ownAssign_op {op after : Text} (hop : op ∈ assignOps)
    (hcomparison : op = lit "=" → after.head? ≠ some '=') :
    ownAssign (.token 0) 0 (op ++ after) = some ([], op, after) := by
  simp only [assignOps, List.map_cons, List.map_nil, List.mem_cons, List.not_mem_nil,
    or_false] at hop
  rcases hop with rfl | rfl | rfl | rfl | rfl | rfl | rfl | rfl | rfl | rfl | rfl
  -- the compound operators cannot be read otherwise
  on_goal 11 =>
    show ownAssign (.token 0) 0 ('=' :: after) = _
    rw [ownAssign]
    simp only [operatorToken_equals (hcomparison rfl)]
    rfl
  all_goals rfl

/-- **The reader finds the operator** behind a target, unless it is a comparison. -/
theorem BeforeOp.ownAssign_op {before op after : Text} (h : BeforeOp U before)
    (hop : op ∈ assignOps) (hcomparison : op = lit "=" → after.head? ≠ some '=') :
    ownAssign (.token 0) 0 (before ++ op ++ after) = some (before, op, after) := by
  rw [List.append_assoc, h.ownAssign_append, Csc512.ownAssign_op hop hcomparison]
  simp

/-! ### The operator that the expression is built with -/

/-- The operators that are looked for, in this order. -/
def searchedOps : List Text :=
  ["+=", "-=", "*=", "/=", "%=", "&=", "|=", "^=", "<<=", ">>=", "="].map String.toList

/-- One round of the search. -/
def searchOp (s op : Text) : Option (Text × Text) :=
  (cut op s).bind fun p => if p.1 = [] then none else some (op, strip p.2)

theorem assignParts_eq_findSome? (s : Text) :
    assignParts s = searchedOps.findSome? (searchOp s) := by
  have hops : searchedOps = ["+=", "-=", "*=", "/=", "%=", "&=", "|=", "^=", "<<=", ">>="].map
      String.toList ++ [lit "="] := rfl
  rw [hops, List.findSome?_append, List.findSome?_singleton, assignParts]
  exact Option.orElse_eq_or

section Search

variable {before op after : Text} (h : BeforeOp U before) (hop : op ∈ assignOps)
include h hop

/-- Another operator can only be found behind the operator. -/
theorem BeforeOp.contains_iff {cop : Text} (hcop : cop ∈ assignOps) (hne : cop ≠ op)
    (hequals : cop ≠ lit "=") :
    contains cop (before ++ op ++ after) ↔ contains cop after := by
  have hsuffix : ∀ op ∈ assignOps, ∀ cop ∈ assignOps, cop.dropLast <:+ op.dropLast →
      cop = op ∨ cop = lit "=" := by decide
  rw [contains_iff_part, contains_iff_part]
  constructor
  · rintro ⟨p, r, heq⟩
    have hends := hsuffix op hop cop hcop
    obtain ⟨o, rfl, ho, -⟩ := exists_of_mem_assignOps op hop
    obtain ⟨o', rfl, ho', hmarks'⟩ := exists_of_mem_assignOps cop hcop
    have hfront := List.not_mem_append h.notMem_equals ho
    rw [← List.append_assoc, ← List.append_assoc, ← List.append_cons, ← List.append_cons] at heq
    by_cases hp : '=' ∈ p
    · obtain ⟨front, back, rfl, hnot⟩ := List.eq_append_cons_of_mem hp
      rw [List.append_assoc, List.append_assoc, List.cons_append] at heq
      obtain ⟨-, hafter⟩ := append_cons_inj hnot hfront heq
      exact ⟨back, r, by rw [← hafter]; simp⟩
    · obtain ⟨hsplit, -⟩ := append_cons_inj (List.not_mem_append hp ho') hfront heq
      have hshort := h.suffix_of_append_eq hmarks' hsplit.symm
      rw [List.dropLast_concat, List.dropLast_concat] at hends
      exact absurd (hends hshort) (not_or.mpr ⟨hne, hequals⟩)
  · intro hinfix
    exact hinfix.trans (List.suffix_append _ _).isInfix

theorem BeforeOp.cut_eq : cut op (before ++ op ++ after) = some (before, after) := by
  obtain ⟨o, rfl, ho, -⟩ := exists_of_mem_assignOps op hop
  rw [List.append_assoc, List.append_assoc, List.singleton_append]
  exact cut_of_last h.notMem_equals ho after

/-- Nothing is found at the beginning of the text. -/
theorem BeforeOp.cut_fst_ne_nil {cop : Text} (hcop : cop ∈ assignOps) {p : Text × Text}
    (hcut : cut cop (before ++ op ++ after) = some p) : p.1 ≠ [] := by
  intro hnil
  have heq := eq_of_cut hcut
  obtain ⟨o, rfl, ho, hmarks⟩ := exists_of_mem_assignOps op hop
  obtain ⟨o', rfl, ho', hmarks'⟩ := exists_of_mem_assignOps cop hcop
  rw [hnil, List.nil_append, ← List.append_assoc, ← List.append_cons, ← List.append_cons] at heq
  obtain ⟨hfront, -⟩ := append_cons_inj (List.not_mem_append h.notMem_equals ho) ho' heq
  obtain ⟨t, c, rfl, hc⟩ := h.exists_concat
  exact hc (hmarks' c (by rw [← hfront]; simp))

theorem BeforeOp.searchOp_eq : searchOp (before ++ op ++ after) op = some (op, strip after) := by
  have hcut : cut op (before ++ op ++ after) = some (before, after) := h.cut_eq hop
  rw [searchOp, hcut, Option.bind_some]
  exact if_neg (h.cut_fst_ne_nil hop hop hcut)

theorem BeforeOp.searchOp_eq_none_iff {cop : Text} (hcop : cop ∈ assignOps) (hne : cop ≠ op)
    (hequals : cop ≠ lit "=") :
    searchOp (before ++ op ++ after) cop = none ↔ ¬ contains cop after := by
  rw [← h.contains_iff hop hcop hne hequals, searchOp, contains]
  cases hcut : cut cop (before ++ op ++ after) with
  | none => simp
  | some p => simp [h.cut_fst_ne_nil hop hcop hcut]

/-- **When the search finds the operator**: no other one that is looked for before it may occur
behind it. -/
theorem BeforeOp.assignParts_eq_some_iff :
    assignParts (before ++ op ++ after) = some (op, strip after) ↔
      ∀ cop ∈ searchedOps.takeWhile (· ≠ op), ¬ contains cop after := by
  have hsplit : searchedOps = searchedOps.takeWhile (· ≠ op) ++
      op :: (searchedOps.dropWhile (· ≠ op)).tail :=
    (by decide : ∀ op ∈ assignOps, searchedOps = searchedOps.takeWhile (· ≠ op) ++
      op :: (searchedOps.dropWhile (· ≠ op)).tail) op hop
  have hearlier : ∀ cop ∈ searchedOps.takeWhile (· ≠ op), cop ∈ assignOps ∧ cop ≠ op ∧
      cop ≠ lit "=" :=
    (by decide : ∀ op ∈ assignOps, ∀ cop ∈ searchedOps.takeWhile (· ≠ op), cop ∈ assignOps ∧
      cop ≠ op ∧ cop ≠ lit "=") op hop
  have hnone : (searchedOps.takeWhile (· ≠ op)).findSome? (searchOp (before ++ op ++ after)) = none
      ↔ ∀ cop ∈ searchedOps.takeWhile (· ≠ op), ¬ contains cop after := by
    rw [List.findSome?_eq_none_iff]
    refine forall₂_congr fun cop hcop => ?_
    obtain ⟨hmem, hne, hequals⟩ := hearlier cop hcop
    exact h.searchOp_eq_none_iff hop hmem hne hequals
  rw [← hnone, assignParts_eq_findSome?]
  nth_rewrite 1 [hsplit]
  rw [List.findSome?_append, List.findSome?_cons, h.searchOp_eq hop]
  rcases hfound : (searchedOps.takeWhile (· ≠ op)).findSome? (searchOp (before ++ op ++ after))
    with _ | ⟨op', rhs⟩
  · simp
  · -- what is found first is another operator
    obtain ⟨cop, hcop, hsearch⟩ := List.exists_of_findSome?_eq_some hfound
    obtain ⟨p, -, hp⟩ := Option.bind_eq_some_iff.mp hsearch
    split at hp
    · cases hp
    · obtain ⟨rfl, -⟩ := Prod.mk.inj (Option.some.inj hp)
      have hne := (hearlier cop hcop).2.1
      simp [hne]

end Search

/-! ### Both parsers -/

section Parsers

variable (U) (known udtVars : List Text) (raw : Text)

/-- Both parsers take the operator that the statement has, outside of parentheses, brackets and
literals: the first one the name before it, the second one the operator and the text behind it. In
a statement without an assignment operator, the second one finds none either. -/
def AssignParsersAgree : Prop :=
  match ownAssign (.token 0) 0 (bareStmt raw) with
  | none => assignParts (bareStmt raw) = none
  | some (before, op, after) =>
    targetName U udtVars (strip before) = (classifyStatement U known udtVars raw).lName ∧
      assignParts (bareStmt raw) = some (op, strip after)

/-- The text behind the target begins with an assignment operator that is no comparison, and holds
no other one that is looked for before it. -/
def FirstIsOnly : Prop :=
  ∃ before op after, bareStmt raw = before ++ op ++ after ∧ op ∈ assignOps ∧
    (targetName U udtVars (strip before)).isSome ∧ (op = lit "=" → after.head? ≠ some '=') ∧
    ∀ cop ∈ searchedOps.takeWhile (· ≠ op), ¬ contains cop after

variable {U known udtVars raw}

theorem kind_classifyBlock {s : Text} :
    (classifyBlock U known udtVars raw s).kind ≠ .assign := by
  rw [classifyBlock]
  split_ifs
  · intro h
    cases h
  · intro h
    cases h
  · split <;>
    · intro h
      cases h

theorem kind_of_classifyDecl {s : Text} {stmt : Statement}
    (h : classifyDecl U known udtVars raw s = some stmt) : stmt.kind ≠ .assign := by
  rw [classifyDecl] at h
  split_ifs at h
  obtain ⟨⟨name, after⟩, -, rfl⟩ := Option.map_eq_some_iff.mp h
  intro hkind
  dsimp only at hkind
  split_ifs at hkind

theorem kind_of_classifyCall {s : Text} {stmt : Statement}
    (h : classifyCall U known udtVars raw s = some stmt) : stmt.kind ≠ .assign := by
  rw [classifyCall] at h
  split_ifs at h
  obtain ⟨⟨name, after⟩, -, h⟩ := Option.bind_eq_some_iff.mp h
  dsimp only at h
  split_ifs at h
  obtain rfl := Option.some.inj h
  intro hkind
  cases hkind

/-- A statement is classified as an assignment for its operator or as a step. -/
theorem assign_cases (h : (classifyStatement U known udtVars raw).kind = .assign) :
    (∃ op ∈ assignOps, classifyAssignOp U known udtVars raw (bareStmt raw) op =
        some (classifyStatement U known udtVars raw)) ∨
      classifyStep U raw (bareStmt raw) = some (classifyStatement U known udtVars raw) := by
  rw [classifyStatement] at h ⊢
  split at h
  · exact absurd h kind_classifyBlock
  rename_i hblock
  rw [if_neg hblock]
  split at h
  · cases h
  rename_i hcontrol
  rw [if_neg hcontrol]
  split at h
  · cases h
  · rename_i hbranch
    rw [if_neg hbranch]
    cases hdecl : classifyDecl U known udtVars raw (bareStmt raw) with
    | some stmt =>
      rw [hdecl] at h
      exact absurd h (kind_of_classifyDecl hdecl)
    | none =>
      rw [hdecl] at h
      cases hassign : assignOps.findSome? (classifyAssignOp U known udtVars raw (bareStmt raw)) with
      | some stmt => exact Or.inl (List.exists_of_findSome?_eq_some hassign)
      | none =>
        rw [hassign] at h
        cases hcall : classifyCall U known udtVars raw (bareStmt raw) with
        | some stmt =>
          rw [hcall] at h
          exact absurd h (kind_of_classifyCall hcall)
        | none =>
          rw [hcall] at h
          cases hstep : classifyStep U raw (bareStmt raw) with
          | some stmt => exact Or.inr rfl
          | none =>
            rw [hstep] at h
            cases h

/-- A step has no equals sign. -/
theorem notMem_of_classifyStep {s : Text} {stmt : Statement}
    (h : classifyStep U raw s = some stmt) :
    '=' ∉ s := by
  intro hmem
  have hword := isWordChar_eq_false U (c := '=') (by decide) (by decide) (by decide)
  have hstep : stepPattern.avoids '=' = true := by decide
  have hblanks : blanksPattern.avoids '=' = true := by decide
  have hident : (identPattern U).avoids '=' = true := by
    simp only [identPattern, avoids, hword]
    decide
  rw [classifyStep, fullMatch_eq_none _ hmem, fullMatch_eq_none _ hmem] at h
  · cases h
  · simp [seqs, avoids, hident, hstep, hblanks]
  · simp [seqs, avoids, hident, hstep, hblanks]

/-- The target and the operator of an assignment with an equals sign. -/
theorem exists_of_equals (h : (classifyStatement U known udtVars raw).kind = .assign)
    (hequals : '=' ∈ bareStmt raw) : ∃ before op after, bareStmt raw = before ++ op ++ after ∧
      op ∈ assignOps ∧
      targetName U udtVars (strip before) = (classifyStatement U known udtVars raw).lName ∧
      (targetName U udtVars (strip before)).isSome := by
  rcases assign_cases h with ⟨op, hop, hassign⟩ | hstep
  · obtain ⟨before, after, hcut, hname, hsome⟩ := exists_cut_of_classifyAssignOp hassign
    exact ⟨before, op, after, eq_of_cut hcut, hop, hname, hname ▸ hsome⟩
  · exact absurd hequals (notMem_of_classifyStep hstep)

theorem equals_mem_of_mem_searchedOps : ∀ op ∈ searchedOps, '=' ∈ op := by decide

theorem assignParts_eq_none {s : Text} (h : '=' ∉ s) : assignParts s = none := by
  rw [assignParts_eq_findSome?, List.findSome?_eq_none_iff]
  intro op hop
  rw [searchOp, cut_eq_none_of_notMem (equals_mem_of_mem_searchedOps op hop) h]
  rfl

theorem BeforeOp.assignParts_ne_none {before op after : Text} (h : BeforeOp U before)
    (hop : op ∈ assignOps) : assignParts (before ++ op ++ after) ≠ none := by
  have hsearched : op ∈ searchedOps := (by decide : ∀ op ∈ assignOps, op ∈ searchedOps) op hop
  rw [assignParts_eq_findSome?]
  intro hnone
  have hfound := List.findSome?_eq_none_iff.mp hnone op hsearched
  rw [h.searchOp_eq hop] at hfound
  cases hfound

/-- **When the two parsers agree.** -/
theorem assignParsersAgree_iff (h : (classifyStatement U known udtVars raw).kind = .assign) :
    AssignParsersAgree U known udtVars raw ↔ '=' ∉ bareStmt raw ∨ FirstIsOnly U udtVars raw := by
  by_cases hequals : '=' ∈ bareStmt raw
  · obtain ⟨before, op, after, hs, hop, hname, hsome⟩ := exists_of_equals h hequals
    have hbefore := beforeOp_of_strip hsome
    have hfirst : FirstIsOnly U udtVars raw ↔ (op = lit "=" → after.head? ≠ some '=') ∧
        ∀ cop ∈ searchedOps.takeWhile (· ≠ op), ¬ contains cop after := by
      constructor
      · rintro ⟨before', op', after', hs', hop', hsome', hrest⟩
        obtain ⟨rfl, rfl, rfl⟩ := hbefore.inj (beforeOp_of_strip hsome') hop hop'
          (hs.symm.trans hs')
        exact hrest
      · exact fun hrest => ⟨before, op, after, hs, hop, hsome, hrest⟩
    rw [hfirst, AssignParsersAgree, hs, ← hbefore.assignParts_eq_some_iff hop]
    simp only [not_not_intro (hs ▸ hequals), false_or]
    constructor
    · intro hagree
      split at hagree
      · exact absurd hagree (hbefore.assignParts_ne_none hop)
      · rename_i before' op' after' hown
        obtain ⟨hs', hop', hcomparison⟩ := eq_append_of_ownAssign hown
        have hbefore' := beforeOp_of_strip (U := U) (by rw [hagree.1, ← hname]; exact hsome)
        obtain ⟨rfl, rfl, rfl⟩ := hbefore.inj hbefore' hop hop' hs'
        exact ⟨hcomparison, hagree.2⟩
    · rintro ⟨hcomparison, hparts⟩
      rw [hbefore.ownAssign_op hop hcomparison]
      exact ⟨hname, hparts⟩
  · simp only [hequals, not_false_eq_true, true_or, iff_true, AssignParsersAgree]
    cases hown : ownAssign (.token 0) 0 (bareStmt raw) with
    | none => exact assignParts_eq_none hequals
    | some r =>
      obtain ⟨hs, hop, -⟩ := eq_append_of_ownAssign hown
      have hmem : '=' ∈ r.2.1 := (by decide : ∀ op ∈ assignOps, '=' ∈ op) _ hop
      exact absurd (by rw [hs]; simp [hmem]) hequals

theorem assignParsersAgree_iff_shift :
    AssignParsersAgree .ascii cTypes [] (lit "x <<= a == b;") ↔
      '=' ∉ bareStmt (lit "x <<= a == b;") ∨ FirstIsOnly .ascii [] (lit "x <<= a == b;") :=
  assignParsersAgree_iff (by decide +kernel)

/-- An assignment within the right side takes the place of the operator. -/
theorem not_assignParsersAgree :
    (classifyStatement .ascii cTypes [] (lit "x = a[i += 2];")).kind = .assign ∧
      ¬ AssignParsersAgree .ascii cTypes [] (lit "x = a[i += 2];") := by
  have hown : ownAssign (.token 0) 0 (bareStmt (lit "x = a[i += 2];")) =
      some (lit "x ", lit "=", lit " a[i += 2]") := by decide
  have hparts : assignParts (bareStmt (lit "x = a[i += 2];")) ≠
      some (lit "=", strip (lit " a[i += 2]")) := by decide
  refine ⟨by decide +kernel, fun hagree => ?_⟩
  rw [AssignParsersAgree, hown] at hagree
  exact hparts hagree.2

end Parsers

end Targets

end Csc512
