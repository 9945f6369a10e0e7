import Csc512.Cdup.ExprRoundTrip

/-!
# Prefix operators and casts

The operand of a prefix operator is parsed with a binding power of `99`, one less than that of `*`,
`/` and `%`. So a product that follows is taken into the operand: `-x * y` is the negation of a
product. Before all other operators the operand ends where it does in C.

What the operand consists of is given by a grammar of primary and postfix expressions. Within
brackets there can be any expression that the parser reads.

## Main results

* `PostfixExpr.reads` — the parser comes to the operator loop behind a postfix expression
* `prefixBinds_iff` — the binary operators that a prefix operator binds tighter than
* `not_prefixBinds` — `- x * y`
-/

namespace Csc512

/-! ### Postfix expressions -/

section Grammar

variable (U : CharTable)

/-- The parser reads tokens as an expression, up to a token that cannot go on. -/
def ReadsInside (toks : List Token) (e : Expr) : Prop :=
  ∀ f ≥ 2 * toks.length + 1, ∀ (t : Token) rest, leftBindingPower t.value = 0 →
    parseFrom U f 0 (toks ++ t :: rest) = some (e, t :: rest)

/-- Arguments, with commas between them. -/
inductive ArgExprs : List Token → List Expr → Prop
  | last {toks : List Token} {e : Expr} (h : ReadsInside U toks e) : ArgExprs toks [e]
  | more {toks moreToks : List Token} {e : Expr} {es : List Expr} (h : ReadsInside U toks e)
    (hmore : ArgExprs moreToks es) : ArgExprs (toks ++ opToken (lit ",") :: moreToks) (e :: es)

/-- Primary and postfix expressions: their tokens and their trees. -/
inductive PostfixExpr : List Token → Expr → Prop
  | name (n : Identifier) : PostfixExpr [n.token] (.name n.text)
  | number {v : Text} {e : Expr} (h : numberExpr U v = some e) : PostfixExpr [⟨.num, v⟩] e
  | string (v : Text) : PostfixExpr [⟨.str, v⟩] (.const (.string v))
  | char (v : Text) : PostfixExpr [⟨.char, v⟩] (.const (.char v))
  | inParens {toks : List Token} {e : Expr} (hcast : StopsCast toks) (h : ReadsInside U toks e) :
    PostfixExpr (opToken (lit "(") :: (toks ++ [opToken (lit ")")])) e
  | index {toks idxToks : List Token} {arr idx : Expr} (harr : PostfixExpr toks arr)
    (hidx : ReadsInside U idxToks idx) :
    PostfixExpr (toks ++ opToken (lit "[") :: (idxToks ++ [opToken (lit "]")])) (.index arr idx)
  | field {toks : List Token} {obj : Expr} (hobj : PostfixExpr toks obj) (arrow : Bool)
    (n : Identifier) :
    PostfixExpr (toks ++ [opToken (if arrow then lit "->" else lit "."), n.token])
      (.field obj n.text)
  | callNone {toks : List Token} {fn : Expr} (hfn : PostfixExpr toks fn) :
    PostfixExpr (toks ++ [opToken (lit "("), opToken (lit ")")]) (.call (calleeName fn) [])
  | call {toks argToks : List Token} {fn : Expr} {args : List Expr} (hfn : PostfixExpr toks fn)
    (hargs : ArgExprs U argToks args) (hpeek : ∀ rest, peekValue (argToks ++ rest) ≠ lit ")") :
    PostfixExpr (toks ++ opToken (lit "(") :: (argToks ++ [opToken (lit ")")]))
      (.call (calleeName fn) args)
  | postInc {toks : List Token} {arg : Expr} (harg : PostfixExpr toks arg) :
    PostfixExpr (toks ++ [opToken (lit "++")]) (.step .postInc arg)
  | postDec {toks : List Token} {arg : Expr} (harg : PostfixExpr toks arg) :
    PostfixExpr (toks ++ [opToken (lit "--")]) (.step .postDec arg)

end Grammar

variable {U : CharTable}

/-- Printed expressions are expressions that the parser reads. -/
theorem Plain.readsInside {e : Plain} (h : e.CastFree) : ReadsInside U e.tokens e.toExpr := by
  intro f hf t rest ht
  have hread : Parses U (1 + 2 * e.tokens.length) 0 (e.tokens ++ t :: rest) (e.toExpr, t :: rest) :=
    e.parse_tokens h (Nat.mul_pos (by decide) e.level_pos)
      (by rw [show peekValue (t :: rest) = t.value from rfl, ht]; exact Nat.zero_le _) Nat.one_pos
      (.stop _ ht.le)
  exact hread f (by omega)

theorem ArgExprs.callArgs_eq {toks : List Token} {es : List Expr} (h : ArgExprs U toks es) :
    ∀ f ≥ 2 + 2 * toks.length, ∀ rest,
      callArgs U f (toks ++ opToken (lit ")") :: rest) = some (es, opToken (lit ")") :: rest) := by
  induction h with
  | last h =>
    intro f hf rest
    obtain ⟨f, rfl⟩ := Nat.exists_eq_add_of_le' (by omega : 1 ≤ f)
    exact callArgs_last (h f (by omega) _ rest rfl)
  | @more toks moreToks e es h _ ih =>
    intro f hf rest
    rw [List.length_append, List.length_cons] at hf
    obtain ⟨f, rfl⟩ := Nat.exists_eq_add_of_le' (by omega : 1 ≤ f)
    rw [List.append_assoc, List.cons_append]
    exact callArgs_more (h f (by omega) _ _ rfl) (ih f (by omega) rest)

/-- The parser, given the tokens of a postfix expression and what follows, comes to the operator
loop with the tree on its left. -/
def ReadsPostfix (U : CharTable) (toks : List Token) (e : Expr) : Prop :=
  ∀ {N m rest r}, m < 10 * postfixLevel → 0 < N → Continues U N m e rest r →
    Parses U (N + 2 * toks.length) m (toks ++ rest) r

/-- What `nud` reads. -/
theorem readsPostfix_of_nud {toks : List Token} {e : Expr} (hne : toks ≠ [])
    (h : ∀ f, ∀ rest, 2 * toks.length ≤ f + 1 → nud U (f + 1) (toks ++ rest) = some (e, rest)) :
    ReadsPostfix U toks e := by
  intro N m rest r _ hN hnext
  have hpos := List.length_pos_iff.mpr hne
  have hnud : ∀ f ≥ N + 2 * toks.length - 1, nud U f (toks ++ rest) = some (e, rest) := by
    intro f hf
    obtain ⟨f, rfl⟩ := Nat.exists_eq_add_of_le' (by omega : 1 ≤ f)
    exact h f rest (by omega)
  exact (Continues.parses hnud fun f hf => hnext f (by omega)).mono (by omega)

/-- A postfix form behind an expression, in one step of `led`. -/
theorem ReadsPostfix.step {toks moreToks : List Token} {t : Token} {left e : Expr}
    (h : ReadsPostfix U toks left) (ht : 10 * postfixLevel ≤ leftBindingPower t.value)
    (hled : ∀ f, ∀ rest, 2 * (moreToks.length + 1) ≤ f + 1 →
      led U (f + 1) left t (moreToks ++ rest) = some (e, rest)) :
    ReadsPostfix U (toks ++ t :: moreToks) e := by
  intro N m rest r hm hN hnext
  have hloop : Continues U (N + 2 * moreToks.length + 1 + 1) m left (t :: (moreToks ++ rest)) r := by
    refine Continues.step (hm.trans_le ht) (fun f hf => ?_) fun f hf => hnext f (by omega)
    obtain ⟨f, rfl⟩ := Nat.exists_eq_add_of_le' (by omega : 1 ≤ f)
    exact hled f rest (by omega)
  have hwhole := h hm (by omega) hloop
  rw [List.append_assoc, List.cons_append, List.length_append, List.length_cons]
  exact hwhole.mono (by omega)

/-- **The parser comes to the operator loop** behind every primary and every postfix expression. -/
theorem PostfixExpr.reads {toks : List Token} {e : Expr} (h : PostfixExpr U toks e) :
    ReadsPostfix U toks e := by
  induction h with
  | name n => exact readsPostfix_of_nud (List.cons_ne_nil _ _) fun f rest _ => nud_name n f rest
  | number h =>
    refine readsPostfix_of_nud (List.cons_ne_nil _ _) fun f rest _ => ?_
    show (numberExpr U _ >>= fun e => some (e, rest)) = _
    rw [h]
    rfl
  | string v => exact readsPostfix_of_nud (List.cons_ne_nil _ _) fun _ _ _ => rfl
  | char v => exact readsPostfix_of_nud (List.cons_ne_nil _ _) fun _ _ _ => rfl
  | @inParens toks e hcast h =>
    refine readsPostfix_of_nud (List.cons_ne_nil _ _) fun f rest hf => ?_
    rw [List.length_cons, List.length_append, List.length_singleton] at hf
    rw [List.cons_append, List.append_assoc]
    exact nud_open (hcast.append _).tryParseCastType_eq (h f (by omega) _ rest rfl)
  | @index toks idxToks arr idx _ hidx ih =>
    refine ih.step (by decide) fun f rest hf => ?_
    rw [List.length_append, List.length_singleton] at hf
    rw [List.append_assoc]
    exact led_index (hidx f (by omega) _ rest rfl)
  | field _ arrow n ih =>
    exact ih.step (by cases arrow <;> decide) fun f rest _ => led_field f arrow _ n rest
  | callNone _ ih => exact ih.step (by decide) fun f rest _ => led_call_nil f _ rest
  | @call toks argToks fn args _ hargs hpeek ih =>
    refine ih.step (by decide) fun f rest hf => ?_
    rw [List.length_append, List.length_singleton] at hf
    rw [List.append_assoc]
    exact led_call (hpeek _) (hargs.callArgs_eq f (by omega) rest)
  | postInc _ ih => exact ih.step (by decide) fun f rest _ => led_postInc f _ rest
  | postDec _ ih => exact ih.step (by decide) fun f rest _ => led_postDec f _ rest

/-! ### Prefix operators -/

/-- The type of a cast: type names and stars. -/
structure CastType where
  parts : List Token
  ne_nil : parts ≠ []
  isPart : ∀ t ∈ parts, isCastToken t = true

/-- Prefix operators and casts. -/
inductive PrefixOp where
  | neg | logNot | bitNot | addrOf | deref | preInc | preDec
  | cast (type : CastType)

/-- How they are written. -/
def PrefixOp.tokens : PrefixOp → List Token
  | .neg => [opToken (lit "-")]
  | .logNot => [opToken (lit "!")]
  | .bitNot => [opToken (lit "~")]
  | .addrOf => [opToken (lit "&")]
  | .deref => [opToken (lit "*")]
  | .preInc => [opToken (lit "++")]
  | .preDec => [opToken (lit "--")]
  | .cast type => opToken (lit "(") :: (type.parts ++ [opToken (lit ")")])

/-- The tree of a prefix operator, applied. -/
def PrefixOp.apply : PrefixOp → Expr → Expr
  | .neg => .un .neg
  | .logNot => .un .logNot
  | .bitNot => .un .bitNot
  | .addrOf => .un .addrOf
  | .deref => .un .deref
  | .preInc => .step .preInc
  | .preDec => .step .preDec
  | .cast type => .cast ([' '].intercalate (type.parts.map Token.value))

theorem CastType.tryParseCastType_eq (type : CastType) (rest : List Token) :
    tryParseCastType (type.parts ++ opToken (lit ")") :: rest)
      = some ([' '].intercalate (type.parts.map Token.value), rest) := by
  have hclose : isCastToken (opToken (lit ")")) = false := by decide
  have htake : (type.parts ++ opToken (lit ")") :: rest).takeWhile isCastToken = type.parts := by
    rw [List.takeWhile_append_of_pos type.isPart, List.takeWhile_cons_of_neg (by simp [hclose]),
      List.append_nil]
  have hdrop : (type.parts ++ opToken (lit ")") :: rest).dropWhile isCastToken
      = opToken (lit ")") :: rest := by
    rw [List.dropWhile_append_of_pos type.isPart, List.dropWhile_cons_of_neg (by simp [hclose])]
  show (if (type.parts ++ opToken (lit ")") :: rest).takeWhile isCastToken ≠ [] ∧
      peekValue ((type.parts ++ opToken (lit ")") :: rest).dropWhile isCastToken) = lit ")" then
    some ([' '].intercalate (((type.parts ++ opToken (lit ")") :: rest).takeWhile
      isCastToken).map Token.value),
      ((type.parts ++ opToken (lit ")") :: rest).dropWhile isCastToken).drop 1) else none) = _
  rw [htake, hdrop]
  exact if_pos ⟨type.ne_nil, rfl⟩

/-- The operand of a prefix operator is parsed with a binding power of `99`. -/
theorem nud_prefix (u : PrefixOp) {f : ℕ} {e : Expr} {toks rest : List Token}
    (h : parseFrom U f 99 toks = some (e, rest)) :
    nud U (f + 1) (u.tokens ++ toks) = some (u.apply e, rest) := by
  cases u with
  | cast type =>
    have htoks : (PrefixOp.cast type).tokens ++ toks
        = opToken (lit "(") :: (type.parts ++ opToken (lit ")") :: toks) := by
      simp [PrefixOp.tokens]
    rw [htoks, nud_paren, type.tryParseCastType_eq]
    show (parseFrom U f 99 toks >>= _) = _
    rw [h]
    rfl
  | neg | logNot | bitNot | addrOf | deref | preInc | preDec =>
    show (parseFrom U f 99 toks >>= fun p => some (_, p.2)) = _
    rw [h]
    rfl

/-! ### Prefix and binary operators -/

/-- Tokens that are read as the right operand of a binary operator, up to the end. -/
def ReadsOperand (U : CharTable) (op : BinOp) (toks : List Token) (e : Expr) : Prop :=
  ∀ f ≥ 2 * toks.length + 1, parseFrom U f (10 * op.level) toks = some (e, [])

/-- A postfix expression is an operand of all of them. -/
theorem PostfixExpr.readsOperand {toks : List Token} {e : Expr} (h : PostfixExpr U toks e)
    (op : BinOp) : ReadsOperand U op toks e := by
  intro f hf
  have hlevel : 10 * op.level < 10 * postfixLevel := by cases op <;> decide
  have hend : Continues U 1 (10 * op.level) e [] (e, []) := .stop e (Nat.zero_le _)
  have hwhole := h.reads hlevel Nat.one_pos hend
  rw [List.append_nil] at hwhole
  exact hwhole f (by omega)

/-- The operators that bind tighter than `99`. -/
def BinOp.isProduct (op : BinOp) : Bool := op ∈ [BinOp.mul, .div, .mod]

theorem BinOp.level_le_of_not_isProduct {op : BinOp} (h : op.isProduct = false) : op.level ≤ 9 := by
  cases op <;> first | decide | exact absurd h (by decide)

theorem BinOp.level_of_isProduct {op : BinOp} (h : op.isProduct = true) : op.level = 10 := by
  cases op <;> first | rfl | exact absurd h (by decide)

section Prefixed

variable (u : PrefixOp) {xs ys : List Token} {x y : Expr} (op : BinOp)

/-- The tree of a prefix operator, an expression and a binary operator with its right operand. -/
theorem parses_prefixed (hx : PostfixExpr U xs x) (hy : ReadsOperand U op ys y) :
    Parses U (2 * xs.length + 2 * ys.length + 7) 0 (u.tokens ++ (xs ++ opToken op.symbol :: ys))
      (if op.isProduct then u.apply (.bin op x y) else .bin op (u.apply x) y, []) := by
  have hled : ∀ left, ∀ f ≥ 2 * ys.length + 2,
      led U f left (opToken op.symbol) ys = some (.bin op left y, []) := by
    intro left f hf
    obtain ⟨f, rfl⟩ := Nat.exists_eq_add_of_le' (by omega : 1 ≤ f)
    exact led_bin (hy f (by omega))
  have hpower : leftBindingPower (opToken op.symbol).value = 10 * op.level :=
    leftBindingPower_symbol op
  have hclose : ∀ m left, Continues U (2 * ys.length + 2) m left [] (left, []) := fun m left f hf =>
    Continues.stop left (Nat.zero_le _) f (by omega)
  cases hop : op.isProduct with
  | false =>
    have hlevel := BinOp.level_le_of_not_isProduct hop
    -- the operand ends before the operator
    have hstop : Continues U 1 99 x (opToken op.symbol :: ys) (x, opToken op.symbol :: ys) :=
      .stop x (hpower.trans_le (by omega))
    have hoperand := hx.reads (by decide : 99 < 10 * postfixLevel) Nat.one_pos hstop
    refine (Continues.parses (N := 2 * xs.length + 2 * ys.length + 6) (fun f hf => ?_) fun f hf =>
      Continues.step (hpower ▸ ?_) (hled (u.apply x)) (hclose 0 _) f (by omega)).mono (by omega)
    · obtain ⟨f, rfl⟩ := Nat.exists_eq_add_of_le' (by omega : 1 ≤ f)
      exact nud_prefix u (hoperand f (by omega))
    · cases op <;> decide
  | true =>
    have hlevel := BinOp.level_of_isProduct hop
    -- the operand goes on behind the operator
    have hoperand := hx.reads (by decide : 99 < 10 * postfixLevel) (Nat.succ_pos _)
      (Continues.step (by rw [hpower, hlevel]; decide) (hled x) (hclose 99 _))
    refine (Continues.parses (N := 2 * xs.length + 2 * ys.length + 6) (fun f hf => ?_) fun f hf =>
      hclose 0 _ f (by omega)).mono (by omega)
    obtain ⟨f, rfl⟩ := Nat.exists_eq_add_of_le' (by omega : 1 ≤ f)
    exact nud_prefix u (hoperand f (by omega))

/-- A prefix operator on a binary one is not a binary operator on a prefix one. -/
theorem PrefixOp.apply_ne_bin (e left right : Expr) : u.apply e ≠ .bin op left right := by
  cases u <;> exact nofun

theorem PrefixOp.tokens_ne_nil : u.tokens ≠ [] := by
  cases u <;> exact List.cons_ne_nil _ _

end Prefixed

/-- The text of an expression, as `parseExpr` takes it. -/
def exprText (src : Text) : Text := strip (rstripChar ';' (strip src))

/-- The tree of a text whose tokens are these. -/
theorem parseExpr_prefixed (u : PrefixOp) {xs ys : List Token} {x y : Expr} (op : BinOp)
    (hx : PostfixExpr U xs x) (hy : ReadsOperand U op ys y) {src : Text}
    (hsrc : exprTokens U (exprText src) = u.tokens ++ (xs ++ opToken op.symbol :: ys)) :
    parseExpr U src
      = some (if op.isProduct then u.apply (.bin op x y) else .bin op (u.apply x) y) := by
  have hne : exprText src ≠ [] := by
    intro h
    rw [h] at hsrc
    exact u.tokens_ne_nil (List.append_eq_nil_iff.mp hsrc.symm).1
  have hlength := congrArg List.length hsrc
  rw [List.length_append, List.length_append, List.length_cons] at hlength
  have hparse := parses_prefixed u op hx hy (4 * (exprTokens U (exprText src)).length + 4)
    (by have := List.length_pos_iff.mpr u.tokens_ne_nil; omega)
  rw [← hsrc] at hparse
  unfold exprText at hne hparse
  rw [parseExpr, if_neg hne]
  dsimp only
  rw [hparse]

/-- **A prefix operator binds tighter than all operators but `*`, `/` and `%`.** -/
theorem prefixBinds_iff (u : PrefixOp) {xs ys : List Token} {x y : Expr} (op : BinOp)
    (hx : PostfixExpr U xs x) (hy : ReadsOperand U op ys y) {src : Text}
    (hsrc : exprTokens U (exprText src) = u.tokens ++ (xs ++ opToken op.symbol :: ys)) :
    parseExpr U src = some (.bin op (u.apply x) y) ↔ op ∉ [BinOp.mul, .div, .mod] := by
  rw [parseExpr_prefixed u op hx hy hsrc]
  cases hop : op.isProduct with
  | false => exact ⟨fun _ => of_decide_eq_false hop, fun _ => rfl⟩
  | true =>
    refine ⟨fun h => ?_, fun h => absurd (of_decide_eq_true hop) h⟩
    exact absurd (Option.some.inj h) (u.apply_ne_bin op _ _ _)

theorem prefixBinds_iff_sample : parseExpr .ascii (lit "(char *) x + x++")
    = some (.bin .add (.cast (lit "char *") (.name (lit "x")))
        (.step .postInc (.name (lit "x")))) := by
  let type : CastType := ⟨[⟨.name, lit "char"⟩, opToken (lit "*")], by decide, by decide⟩
  have hx : PostfixExpr .ascii [letterX.token] (.name (lit "x")) := .name letterX
  exact (prefixBinds_iff (.cast type) .add hx (hx.postInc.readsOperand _)
    (by decide +kernel)).mpr (by decide)

/-- **The negation of a product.** -/
theorem not_prefixBinds : ¬ ∀ (u : PrefixOp) (op : BinOp) (xs ys : List Token) (x y : Expr)
    (src : Text), PostfixExpr .ascii xs x → ReadsOperand .ascii op ys y →
      exprTokens .ascii (exprText src) = u.tokens ++ (xs ++ opToken op.symbol :: ys) →
      parseExpr .ascii src = some (.bin op (u.apply x) y) := by
  intro h
  have hx : PostfixExpr .ascii [letterX.token] (.name (lit "x")) := .name letterX
  have htokens : exprTokens .ascii (exprText (lit "- x * x"))
      = PrefixOp.neg.tokens ++ ([letterX.token] ++ opToken BinOp.mul.symbol :: [letterX.token]) := by
    decide +kernel
  have htree := h .neg .mul _ _ _ _ (lit "- x * x") hx (hx.readsOperand _) htokens
  rw [parseExpr_prefixed .neg .mul hx (hx.readsOperand _) htokens] at htree
  cases htree

end Csc512
