import Csc512.Cdup.ExprPrinter

/-!
# Reading printed expressions back

The parser reads a printed expression as the tree that it was printed from. What carries the proof
is that the parser, given the tokens of an expression and what follows, comes to the loop that looks
for operators with the tree of the expression on its left, whenever what follows does not bind
tighter than the expression itself.

There is one exception. A parenthesis behind which there are nothing but type names and stars is
taken for a cast, even if the type names are variables, which is possible for names such as
`size_t`.

## Main results

* `Plain.parse_tokens` — the parser comes to the operator loop
* `parseExpr_print` — the round trip
* `not_roundTrip` — a product of variables that are called `size_t`
-/

namespace Csc512

/-! ### Casts -/

/-- Can a token be a part of the type of a cast? -/
def isCastToken (t : Token) : Bool :=
  t.type = .name && t.value ∈ castTypes || t.type = .op && t.value = lit "*"

/-- Products of names that are type names of casts. -/
inductive Plain.TypeProduct : Plain → Prop
  | name (n : Identifier) (h : n.text ∈ castTypes) : TypeProduct (.name n)
  | mul {left : Plain} (n : Identifier) (hleft : TypeProduct left) (h : n.text ∈ castTypes) :
    TypeProduct (.bin .mul left (.name n))

/-- An operand that is in parentheses where `level` is asked for is not such a product. -/
def Plain.NotCast (level : ℕ) (e : Plain) : Prop := e.level < level → ¬ e.TypeProduct

mutual

/-- No product of type names is in parentheses. -/
def Plain.CastFree : Plain → Prop
  | .name _ => True
  | .number _ => True
  | .bin op left right => (left.NotCast op.level ∧ left.CastFree) ∧
    right.NotCast (op.level + 1) ∧ right.CastFree
  | .index arr idx => (arr.NotCast postfixLevel ∧ arr.CastFree) ∧ idx.CastFree
  | .field _ obj _ => obj.NotCast postfixLevel ∧ obj.CastFree
  | .call _ args => Plain.CastFreeArgs args
  | .postInc arg => arg.NotCast postfixLevel ∧ arg.CastFree
  | .postDec arg => arg.NotCast postfixLevel ∧ arg.CastFree

/-- The same for arguments. -/
def Plain.CastFreeArgs : List Plain → Prop
  | [] => True
  | e :: es => e.CastFree ∧ Plain.CastFreeArgs es

end

/-- The first token that cannot be a part of a type is not a closing parenthesis. -/
def StopsCast (toks : List Token) : Prop :=
  ∃ parts t rest, toks = parts ++ t :: rest ∧ (∀ u ∈ parts, isCastToken u = true) ∧
    isCastToken t = false ∧ t.value ≠ lit ")"

theorem StopsCast.append {toks : List Token} (h : StopsCast toks) (rest : List Token) :
    StopsCast (toks ++ rest) := by
  obtain ⟨parts, t, rest', rfl, hparts, ht, hvalue⟩ := h
  exact ⟨parts, t, rest' ++ rest, by simp, hparts, ht, hvalue⟩

theorem StopsCast.append_left {pre toks : List Token} (h : StopsCast toks)
    (hpre : ∀ u ∈ pre, isCastToken u = true) : StopsCast (pre ++ toks) := by
  obtain ⟨parts, t, rest, rfl, hparts, ht, hvalue⟩ := h
  exact ⟨pre ++ parts, t, rest, by simp, List.forall_mem_append.mpr ⟨hpre, hparts⟩, ht, hvalue⟩

theorem stopsCast_cons {t : Token} (ht : isCastToken t = false) (hvalue : t.value ≠ lit ")")
    (rest : List Token) : StopsCast (t :: rest) :=
  ⟨[], t, rest, rfl, by simp, ht, hvalue⟩

theorem StopsCast.tryParseCastType_eq {toks : List Token} (h : StopsCast toks) :
    tryParseCastType toks = none := by
  obtain ⟨parts, t, rest, rfl, hparts, ht, hvalue⟩ := h
  have hdrop : (parts ++ t :: rest).dropWhile isCastToken = t :: rest := by
    rw [List.dropWhile_append_of_pos hparts, List.dropWhile_cons_of_neg (by simp [ht])]
  refine if_neg fun hcast => hvalue ?_
  have hpeek : peekValue ((parts ++ t :: rest).dropWhile isCastToken) = lit ")" := hcast.2
  rwa [hdrop] at hpeek

theorem stopsCast_parens {b : Bool} {toks : List Token} (hb : b = true) :
    StopsCast (parens b toks) := by
  subst hb
  exact stopsCast_cons (by decide) (by decide) _

theorem stopsCast_parens_of {b : Bool} {toks : List Token} (h : StopsCast toks) :
    StopsCast (parens b toks) := by
  cases b with
  | true => exact stopsCast_parens rfl
  | false => exact h

theorem Identifier.value_ne (n : Identifier) : n.token.value ≠ lit ")" := by
  intro h
  have hshape := n.shape
  rw [show n.text = lit ")" from h] at hshape
  exact absurd hshape (by decide)

theorem isCastToken_number (n : ℕ) : isCastToken ⟨.num, natText n⟩ = false := rfl

theorem value_number_ne (n : ℕ) : natText n ≠ lit ")" := by
  intro h
  have hdigit : (')' : Char).isDigit := isDigit_of_mem_natText (n := n) (by rw [h]; decide)
  exact absurd hdigit (by decide)

/-- What is written behind an operand, if it cannot be a part of a type. -/
theorem stopsCast_operand {b : Bool} {toks rest : List Token} {t : Token} {P : Prop}
    (h : StopsCast toks ∨ (∀ t ∈ toks, isCastToken t = true) ∧ P) (ht : isCastToken t = false)
    (hvalue : t.value ≠ lit ")") : StopsCast (parens b toks ++ t :: rest) := by
  cases b with
  | true => exact (stopsCast_parens rfl).append _
  | false =>
    rcases h with h | ⟨hall, -⟩
    · exact StopsCast.append h _
    · exact (stopsCast_cons ht hvalue rest).append_left hall

/-- The tokens of an expression stop the search for a cast, or are a product of type names. -/
theorem Plain.stopsCast_or (e : Plain) :
    StopsCast e.tokens ∨ (∀ t ∈ e.tokens, isCastToken t = true) ∧ e.TypeProduct := by
  cases e with
  | name n =>
    by_cases h : n.text ∈ castTypes
    · refine .inr ⟨List.forall_mem_singleton.mpr ?_, .name n h⟩
      simp [isCastToken, Identifier.token, h]
    · exact .inl (stopsCast_cons (by simp [isCastToken, Identifier.token, h]) n.value_ne _)
  | number n => exact .inl (stopsCast_cons (isCastToken_number n) (value_number_ne n) _)
  | bin op left right =>
    have hleft := left.stopsCast_or
    by_cases hop : op = .mul
    · subst hop
      have hstar : isCastToken (opToken BinOp.mul.symbol) = true := by decide
      rcases hleft with hleft | ⟨hall, hproduct⟩
      · exact .inl ((stopsCast_parens_of hleft).append _)
      · by_cases hlevel : left.level < BinOp.mul.level
        · rw [tokens, decide_eq_true hlevel]
          exact .inl ((stopsCast_parens rfl).append _)
        · rw [tokens, decide_eq_false hlevel]
          have hparts : ∀ t ∈ left.tokens ++ [opToken BinOp.mul.symbol], isCastToken t = true :=
            List.forall_mem_append.mpr ⟨hall, List.forall_mem_singleton.mpr hstar⟩
          rw [parens, if_neg Bool.false_ne_true, ← List.singleton_append, ← List.append_assoc]
          by_cases hright : right.level < BinOp.mul.level + 1
          · exact .inl ((stopsCast_parens (decide_eq_true hright)).append_left hparts)
          · rw [decide_eq_false hright, parens, if_neg Bool.false_ne_true]
            rcases right.stopsCast_or with hstop | ⟨hall', hproduct'⟩
            · exact .inl (hstop.append_left hparts)
            · refine .inr ⟨List.forall_mem_append.mpr ⟨hparts, hall'⟩, ?_⟩
              cases hproduct' with
              | name n h => exact .mul n hproduct h
              | mul n _ _ => exact absurd (Nat.lt_succ_self _) hright
    · refine .inl (stopsCast_operand hleft ?_ ?_)
      · cases op <;> first | exact absurd rfl hop | decide
      · cases op <;> decide
  | index arr idx => exact .inl (stopsCast_operand arr.stopsCast_or (by decide) (by decide))
  | field arrow obj n =>
    refine .inl (stopsCast_operand obj.stopsCast_or ?_ ?_)
    · cases arrow <;> decide
    · cases arrow <;> decide
  | call fn args =>
    by_cases h : fn.text ∈ castTypes
    · have hpart : isCastToken fn.token = true := by simp [isCastToken, Identifier.token, h]
      have hopen : StopsCast (opToken (lit "(") :: (argTokens args ++ [opToken (lit ")")])) :=
        stopsCast_cons (by decide) (by decide) _
      exact .inl (hopen.append_left (List.forall_mem_singleton.mpr hpart))
    · exact .inl (stopsCast_cons (by simp [isCastToken, Identifier.token, h]) fn.value_ne _)
  | postInc arg => exact .inl (stopsCast_operand arg.stopsCast_or (by decide) (by decide))
  | postDec arg => exact .inl (stopsCast_operand arg.stopsCast_or (by decide) (by decide))

/-! ### Steps of the parser -/

variable (U : CharTable)

/-- With enough fuel, the parser reads tokens up to a rest. -/
def Parses (N m : ℕ) (toks : List Token) (r : Expr × List Token) : Prop :=
  ∀ f ≥ N, parseFrom U f m toks = some r

/-- With enough fuel, the loop goes on up to a rest. -/
def Continues (N m : ℕ) (left : Expr) (toks : List Token) (r : Expr × List Token) : Prop :=
  ∀ f ≥ N, ledLoop U f m left toks = some r

variable {U}

theorem Parses.mono {N N' m : ℕ} {toks : List Token} {r : Expr × List Token}
    (h : Parses U N m toks r) (hle : N ≤ N') : Parses U N' m toks r :=
  fun f hf => h f (hle.trans hf)

theorem Continues.stop {m : ℕ} {rest : List Token} (left : Expr)
    (h : leftBindingPower (peekValue rest) ≤ m) : Continues U 1 m left rest (left, rest) := by
  intro f hf
  obtain ⟨f, rfl⟩ := Nat.exists_eq_add_of_le' hf
  cases rest with
  | nil => rfl
  | cons t rest => exact if_pos h

theorem Continues.step {N m : ℕ} {left left' : Expr} {t : Token} {toks toks' : List Token}
    {r : Expr × List Token} (hm : m < leftBindingPower t.value)
    (hled : ∀ f ≥ N, led U f left t toks = some (left', toks'))
    (h : Continues U N m left' toks' r) : Continues U (N + 1) m left (t :: toks) r := by
  intro f hf
  obtain ⟨f, rfl⟩ := Nat.exists_eq_add_of_le' (Nat.le_of_add_left_le hf)
  have hle : N ≤ f := Nat.le_of_succ_le_succ hf
  rw [ledLoop, if_neg (Nat.not_le.mpr hm), hled f hle]
  exact h f hle

/-- An expression that begins with a token of its own. -/
theorem Continues.parses {N m : ℕ} {left : Expr} {toks toks' : List Token}
    {r : Expr × List Token} (hnud : ∀ f ≥ N, nud U f toks = some (left, toks'))
    (h : Continues U N m left toks' r) : Parses U (N + 1) m toks r := by
  intro f hf
  obtain ⟨f, rfl⟩ := Nat.exists_eq_add_of_le' (Nat.le_of_add_left_le hf)
  have hle : N ≤ f := Nat.le_of_succ_le_succ hf
  rw [parseFrom, hnud f hle]
  exact h f hle

theorem nud_name (n : Identifier) (f : ℕ) (rest : List Token) :
    nud U (f + 1) (n.token :: rest) = some (.name n.text, rest) := by
  have hsizeof : n.text ≠ lit "sizeof" := fun h => n.notKeyword (h ▸ by decide)
  exact if_neg hsizeof

theorem nud_number (n f : ℕ) (rest : List Token) :
    nud U (f + 1) (⟨.num, natText n⟩ :: rest) = some (.const (.int n), rest) := by
  show (numberExpr U (natText n) >>= fun e => some (e, rest)) = _
  rw [numberExpr_natText]
  rfl

/-- An expression in parentheses. -/
theorem nud_paren (f : ℕ) (toks : List Token) : nud U (f + 1) (opToken (lit "(") :: toks)
    = match tryParseCastType toks with
      | some (type, toks) => parseFrom U f 99 toks >>= fun p => some (.cast type p.1, p.2)
      | none => parseFrom U f 0 toks >>= fun p =>
        expectToken (lit ")") p.2 >>= fun toks => some (p.1, toks) := rfl

theorem nud_open {f : ℕ} {e : Expr} {toks rest : List Token} (hcast : tryParseCastType toks = none)
    (h : parseFrom U f 0 toks = some (e, opToken (lit ")") :: rest)) :
    nud U (f + 1) (opToken (lit "(") :: toks) = some (e, rest) := by
  rw [nud_paren, hcast]
  show (parseFrom U f 0 toks >>= _) = _
  rw [h]
  rfl

theorem leftBindingPower_symbol (op : BinOp) : leftBindingPower op.symbol = 10 * op.level := by
  cases op <;> decide

theorem led_bin {f : ℕ} {op : BinOp} {left right : Expr} {toks rest : List Token}
    (h : parseFrom U f (10 * op.level) toks = some (right, rest)) :
    led U (f + 1) left (opToken op.symbol) toks = some (.bin op left right, rest) := by
  have hop : binOps.lookup (opToken op.symbol).value = some op := by cases op <;> decide
  unfold led
  dsimp only
  rw [hop]
  show (parseFrom U f (leftBindingPower op.symbol) toks >>= _) = _
  rw [leftBindingPower_symbol, h]
  rfl

theorem led_index {f : ℕ} {left idx : Expr} {toks rest : List Token}
    (h : parseFrom U f 0 toks = some (idx, opToken (lit "]") :: rest)) :
    led U (f + 1) left (opToken (lit "[")) toks = some (.index left idx, rest) := by
  show (parseFrom U f 0 toks >>= fun p =>
    expectToken (lit "]") p.2 >>= fun toks => some (Expr.index left p.1, toks)) = _
  rw [h]
  rfl

theorem led_field (f : ℕ) (arrow : Bool) (left : Expr) (n : Identifier) (rest : List Token) :
    led U (f + 1) left (opToken (if arrow then lit "->" else lit ".")) (n.token :: rest)
      = some (.field left n.text, rest) := by
  cases arrow <;> rfl

theorem led_call_nil (f : ℕ) (left : Expr) (rest : List Token) :
    led U (f + 1) left (opToken (lit "(")) (opToken (lit ")") :: rest)
      = some (.call (calleeName left) [], rest) := rfl

theorem led_call {f : ℕ} {left : Expr} {args : List Expr} {toks rest : List Token}
    (hpeek : peekValue toks ≠ lit ")")
    (h : callArgs U f toks = some (args, opToken (lit ")") :: rest)) :
    led U (f + 1) left (opToken (lit "(")) toks = some (.call (calleeName left) args, rest) := by
  show (if peekValue toks = lit ")" then _ else callArgs U f toks >>= fun p =>
    expectToken (lit ")") p.2 >>= fun toks => some (Expr.call (calleeName left) p.1, toks)) = _
  rw [if_neg hpeek, h]
  rfl

theorem led_postInc (f : ℕ) (left : Expr) (rest : List Token) :
    led U (f + 1) left (opToken (lit "++")) rest = some (.step .postInc left, rest) := rfl

theorem led_postDec (f : ℕ) (left : Expr) (rest : List Token) :
    led U (f + 1) left (opToken (lit "--")) rest = some (.step .postDec left, rest) := rfl

theorem callArgs_last {f : ℕ} {e : Expr} {toks rest : List Token}
    (h : parseFrom U f 0 toks = some (e, opToken (lit ")") :: rest)) :
    callArgs U (f + 1) toks = some ([e], opToken (lit ")") :: rest) := by
  show (parseFrom U f 0 toks >>= _) = _
  rw [h]
  rfl

theorem callArgs_more {f : ℕ} {e : Expr} {es : List Expr} {toks toks' rest : List Token}
    (h : parseFrom U f 0 toks = some (e, opToken (lit ",") :: toks'))
    (hmore : callArgs U f toks' = some (es, rest)) :
    callArgs U (f + 1) toks = some (e :: es, rest) := by
  show (parseFrom U f 0 toks >>= fun p =>
    if peekValue p.2 = lit "," then
      callArgs U f (p.2.drop 1) >>= fun q => some (p.1 :: q.1, q.2)
    else some ([p.1], p.2)) = _
  rw [h]
  show (callArgs U f toks' >>= _) = _
  rw [hmore]
  rfl

/-! ### The round trip -/

/-- What may follow an expression: nothing that binds tighter. -/
def Plain.binds : Plain → ℕ
  | .bin op _ _ => 10 * op.level
  | _ => 130

theorem lookup_getD_le {bound : ℕ} (s : Text) {l : List (Text × ℕ)}
    (h : ∀ p ∈ l, p.2 ≤ bound) : (l.lookup s).getD 0 ≤ bound := by
  induction l with
  | nil => exact Nat.zero_le _
  | cons p l ih =>
    obtain ⟨hp, hl⟩ := List.forall_mem_cons.mp h
    rw [List.lookup_cons]
    cases s == p.1 with
    | true => exact hp
    | false => exact ih hl

theorem leftBindingPower_le (s : Text) : leftBindingPower s ≤ 130 :=
  lookup_getD_le s (by decide)

theorem Plain.level_pos (e : Plain) : 0 < e.level := by
  cases e with
  | bin op => exact (show 0 < op.level by cases op <;> decide)
  | name | number | index | field | call | postInc | postDec => exact Nat.succ_pos _

theorem Plain.le_binds {e : Plain} {level : ℕ} (h : level ≤ e.level) : 10 * level ≤ e.binds := by
  cases e with
  | bin => exact Nat.mul_le_mul_left 10 h
  | name | number | index | field | call | postInc | postDec =>
    exact (Nat.mul_le_mul_left 10 h).trans (show 10 * postfixLevel ≤ 130 by decide)

variable (U) in
/-- The parser, given the tokens of the expression and what follows, comes to the loop with the tree
on its left. -/
def Plain.Reads (e : Plain) : Prop :=
  ∀ {N m rest r}, m < 10 * e.level → leftBindingPower (peekValue rest) ≤ e.binds → 0 < N →
    Continues U N m e.toExpr rest r →
    Parses U (N + 2 * e.tokens.length) m (e.tokens ++ rest) r

/-- The same for an operand, in parentheses if they are needed. -/
theorem Plain.Reads.inParens {e : Plain} (h : e.Reads U) {level : ℕ} (hcast : e.NotCast level)
    {N m : ℕ} {rest : List Token} {r : Expr × List Token} (hm : m < 10 * level)
    (hrest : level ≤ e.level → leftBindingPower (peekValue rest) ≤ e.binds) (hN : 0 < N)
    (hnext : Continues U N m e.toExpr rest r) :
    Parses U (N + 2 * (parens (e.level < level) e.tokens).length) m
      (parens (e.level < level) e.tokens ++ rest) r := by
  by_cases hlevel : e.level < level
  · have hopen : tryParseCastType (e.tokens ++ opToken (lit ")") :: rest) = none :=
      ((e.stopsCast_or.resolve_right fun h => hcast hlevel h.2).append _).tryParseCastType_eq
    have hinner : Parses U (1 + 2 * e.tokens.length) 0 (e.tokens ++ opToken (lit ")") :: rest)
        (e.toExpr, opToken (lit ")") :: rest) :=
      h (Nat.mul_pos (by decide) e.level_pos) (Nat.zero_le _) Nat.one_pos (.stop _ le_rfl)
    have htoks : parens true e.tokens ++ rest
        = opToken (lit "(") :: (e.tokens ++ opToken (lit ")") :: rest) := by
      simp [parens]
    have hlength : (parens true e.tokens).length = e.tokens.length + 2 := by simp [parens]
    rw [decide_eq_true hlevel, htoks, hlength]
    have hnud : ∀ f ≥ N + 2 * e.tokens.length + 2,
        nud U f (opToken (lit "(") :: (e.tokens ++ opToken (lit ")") :: rest))
          = some (e.toExpr, rest) := by
      intro f hf
      obtain ⟨f, rfl⟩ := Nat.exists_eq_add_of_le' (by omega : 1 ≤ f)
      exact nud_open hopen (hinner f (by omega))
    exact (Continues.parses hnud fun f hf => hnext f (by omega)).mono (by omega)
  · have hle := Nat.le_of_not_lt hlevel
    rw [decide_eq_false hlevel]
    exact h (hm.trans_le (Nat.mul_le_mul_left 10 hle)) (hrest hle) hN hnext

/-- A postfix form, or what else follows an operand that must not be an operator expression. -/
theorem Plain.Reads.operand {e : Plain} (h : e.Reads U) (hcast : e.NotCast postfixLevel) {N m : ℕ}
    {rest : List Token} {r : Expr × List Token} (hm : m < 10 * postfixLevel) (hN : 0 < N)
    (hnext : Continues U N m e.toExpr rest r) :
    Parses U (N + 2 * (parens (e.level < postfixLevel) e.tokens).length) m
      (parens (e.level < postfixLevel) e.tokens ++ rest) r := by
  refine h.inParens hcast hm (fun hlevel => ?_) hN hnext
  cases e with
  | bin op => exact absurd hlevel (show ¬ postfixLevel ≤ op.level by cases op <;> decide)
  | name | number | index | field | call | postInc | postDec => exact leftBindingPower_le _

theorem Plain.reads_bin {op : BinOp} {left right : Plain} (hleft : left.Reads U)
    (hright : right.Reads U) (hcast : left.NotCast op.level)
    (hcast' : right.NotCast (op.level + 1)) : (Plain.bin op left right).Reads U := by
  intro N m rest r hm hrest hN hnext
  have hrest' : leftBindingPower (peekValue rest) ≤ 10 * op.level := hrest
  have hoperand := hright.inParens hcast' (m := 10 * op.level) (by omega)
    (fun hle => hrest'.trans ((by omega : 10 * op.level ≤ 10 * (op.level + 1)).trans
      (Plain.le_binds hle))) Nat.one_pos (.stop _ hrest')
  generalize hr : parens (right.level < op.level + 1) right.tokens = rightToks at hoperand
  have hled : ∀ f ≥ N + 2 * rightToks.length + 1,
      led U f left.toExpr (opToken op.symbol) (rightToks ++ rest)
        = some (.bin op left.toExpr right.toExpr, rest) := by
    intro f hf
    obtain ⟨f, rfl⟩ := Nat.exists_eq_add_of_le' (by omega : 1 ≤ f)
    exact led_bin (hoperand f (by omega))
  have hsymbol : m < leftBindingPower (opToken op.symbol).value := by
    rw [show (opToken op.symbol).value = op.symbol from rfl, leftBindingPower_symbol]
    exact hm
  have hloop := Continues.step hsymbol hled fun f hf => hnext f (by omega)
  have hwhole := hleft.inParens hcast hm (fun hle => ?_) (by omega) hloop
  · rw [Plain.tokens, hr, List.append_assoc, List.cons_append, List.length_append, List.length_cons]
    exact hwhole.mono (by omega)
  · show leftBindingPower op.symbol ≤ _
    rw [leftBindingPower_symbol]
    exact Plain.le_binds hle

/-- What is behind an operand and does not ask for more than it has, in one step. -/
theorem Plain.Reads.step {e : Plain} (h : e.Reads U) (hcast : e.NotCast postfixLevel) {N m : ℕ}
    {t : Token} (toks : List Token) {rest : List Token} {left : Expr} {r : Expr × List Token}
    (hm : m < 10 * postfixLevel) (ht : 10 * postfixLevel ≤ leftBindingPower t.value) (hN : 0 < N)
    (hled : ∀ f ≥ N + 2 * toks.length, led U f e.toExpr t (toks ++ rest) = some (left, rest))
    (hnext : Continues U N m left rest r) :
    Parses U (N + 2 * (parens (e.level < postfixLevel) e.tokens ++ t :: toks).length) m
      (parens (e.level < postfixLevel) e.tokens ++ t :: toks ++ rest) r := by
  have hloop := Continues.step (hm.trans_le ht) hled fun f hf => hnext f (by omega)
  have hwhole := h.operand hcast hm (by omega) hloop
  rw [List.append_assoc, List.cons_append, List.length_append, List.length_cons]
  exact hwhole.mono (by omega)

theorem Plain.reads_index {arr idx : Plain} (harr : arr.Reads U) (hidx : idx.Reads U)
    (hcast : arr.NotCast postfixLevel) : (Plain.index arr idx).Reads U := by
  intro N m rest r hm _ hN hnext
  have hinner : Parses U (1 + 2 * idx.tokens.length) 0 (idx.tokens ++ opToken (lit "]") :: rest)
      (idx.toExpr, opToken (lit "]") :: rest) :=
    hidx (Nat.mul_pos (by decide) idx.level_pos) (Nat.zero_le _) Nat.one_pos (.stop _ le_rfl)
  refine harr.step hcast (idx.tokens ++ [opToken (lit "]")]) hm (by decide) hN ?_ hnext
  intro f hf
  rw [List.length_append, List.length_singleton] at hf
  obtain ⟨f, rfl⟩ := Nat.exists_eq_add_of_le' (by omega : 1 ≤ f)
  rw [List.append_assoc]
  exact led_index (hinner f (by omega))

theorem Plain.reads_field {obj : Plain} (hobj : obj.Reads U) (arrow : Bool) (n : Identifier)
    (hcast : obj.NotCast postfixLevel) : (Plain.field arrow obj n).Reads U := by
  intro N m rest r hm _ hN hnext
  refine hobj.step hcast [n.token] hm (by cases arrow <;> decide) hN ?_ hnext
  intro f hf
  obtain ⟨f, rfl⟩ := Nat.exists_eq_add_of_le' (by omega : 1 ≤ f)
  exact led_field f arrow _ n rest

theorem Plain.reads_postInc {arg : Plain} (harg : arg.Reads U) (hcast : arg.NotCast postfixLevel) :
    (Plain.postInc arg).Reads U := by
  intro N m rest r hm _ hN hnext
  refine harg.step hcast [] hm (by decide) hN (fun f hf => ?_) hnext
  obtain ⟨f, rfl⟩ := Nat.exists_eq_add_of_le' (by omega : 1 ≤ f)
  exact led_postInc f _ rest

theorem Plain.reads_postDec {arg : Plain} (harg : arg.Reads U) (hcast : arg.NotCast postfixLevel) :
    (Plain.postDec arg).Reads U := by
  intro N m rest r hm _ hN hnext
  refine harg.step hcast [] hm (by decide) hN (fun f hf => ?_) hnext
  obtain ⟨f, rfl⟩ := Nat.exists_eq_add_of_le' (by omega : 1 ≤ f)
  exact led_postDec f _ rest

theorem Plain.reads_name (n : Identifier) : (Plain.name n).Reads U := by
  intro N m rest r _ _ hN hnext
  refine (Continues.parses (fun f hf => ?_) hnext).mono (Nat.le_succ _)
  obtain ⟨f, rfl⟩ := Nat.exists_eq_add_of_le' (hN.trans_le hf)
  exact nud_name n f rest

theorem Plain.reads_number (n : ℕ) : (Plain.number n).Reads U := by
  intro N m rest r _ _ hN hnext
  refine (Continues.parses (fun f hf => ?_) hnext).mono (Nat.le_succ _)
  obtain ⟨f, rfl⟩ := Nat.exists_eq_add_of_le' (hN.trans_le hf)
  exact nud_number n f rest

/-- No expression begins with a closing parenthesis. -/
theorem Plain.peekValue_tokens_ne (e : Plain) (rest : List Token) :
    peekValue (e.tokens ++ rest) ≠ lit ")" := by
  have hpart : ∀ t, isCastToken t = true → t.value ≠ lit ")" := by
    intro t ht hvalue
    simp only [isCastToken, hvalue] at ht
    revert ht
    cases t.type <;> decide
  rcases e.stopsCast_or with ⟨parts, t, rest', htoks, hparts, -, hvalue⟩ | ⟨hall, -⟩
  · rw [htoks]
    cases parts with
    | nil => exact hvalue
    | cons u parts => exact hpart u (hparts u List.mem_cons_self)
  · obtain ⟨t, toks, htoks⟩ := List.exists_cons_of_ne_nil e.tokens_ne_nil
    rw [htoks]
    exact hpart t (hall t (htoks ▸ List.mem_cons_self))

/-- The parser reads a list of arguments. -/
def ReadsArgs (U : CharTable) (es : List Plain) : Prop :=
  ∀ f ≥ 2 + 2 * (Plain.argTokens es).length, ∀ rest,
    callArgs U f (Plain.argTokens es ++ opToken (lit ")") :: rest)
      = some (Plain.toExprs es, opToken (lit ")") :: rest)

theorem Plain.reads_call (fn : Identifier) {args : List Plain}
    (hargs : args ≠ [] → ReadsArgs U args) : (Plain.call fn args).Reads U := by
  intro N m rest r hm _ hN hnext
  have hloop : Continues U (N + 2 * (Plain.argTokens args).length + 3) m (.name fn.text)
      (opToken (lit "(") :: (Plain.argTokens args ++ opToken (lit ")") :: rest)) r := by
    have hopen : 10 * postfixLevel ≤ leftBindingPower (opToken (lit "(")).value := by decide
    refine Continues.step (hm.trans_le hopen) (fun f hf => ?_) fun f hf => hnext f (by omega)
    obtain ⟨f, rfl⟩ := Nat.exists_eq_add_of_le' (by omega : 1 ≤ f)
    cases args with
    | nil => exact led_call_nil f _ rest
    | cons e es =>
      have hpeek : peekValue (Plain.argTokens (e :: es) ++ opToken (lit ")") :: rest) ≠ lit ")" := by
        rw [Plain.argTokens, List.append_assoc]
        exact e.peekValue_tokens_ne _
      exact led_call hpeek
        (hargs (List.cons_ne_nil _ _) f (by omega) rest)
  have hnud : ∀ f ≥ N + 2 * (Plain.argTokens args).length + 3, nud U f
      (fn.token :: opToken (lit "(") :: (Plain.argTokens args ++ opToken (lit ")") :: rest))
        = some (.name fn.text,
          opToken (lit "(") :: (Plain.argTokens args ++ opToken (lit ")") :: rest)) := by
    intro f hf
    obtain ⟨f, rfl⟩ := Nat.exists_eq_add_of_le' (by omega : 1 ≤ f)
    exact nud_name fn f _
  rw [Plain.tokens, List.length_cons, List.length_cons, List.length_append, List.length_singleton,
    List.cons_append, List.cons_append, List.append_assoc]
  exact (Continues.parses hnud hloop).mono (by omega)

theorem Plain.readsArgs_cons {e : Plain} {es : List Plain} (he : e.Reads U)
    (hes : es ≠ [] → ReadsArgs U es) : ReadsArgs U (e :: es) := by
  intro f hf rest
  have hread : ∀ {rest}, leftBindingPower (peekValue rest) = 0 →
      Parses U (1 + 2 * e.tokens.length) 0 (e.tokens ++ rest) (e.toExpr, rest) := fun hrest =>
    he (Nat.mul_pos (by decide) e.level_pos) (hrest ▸ Nat.zero_le _) Nat.one_pos
      (.stop _ hrest.le)
  obtain ⟨f, rfl⟩ := Nat.exists_eq_add_of_le' (by omega : 1 ≤ f)
  cases es with
  | nil =>
    rw [Plain.argTokens, Plain.moreArgTokens, List.append_nil] at hf ⊢
    exact callArgs_last (hread rfl f (by omega))
  | cons e' es =>
    rw [Plain.argTokens, Plain.moreArgTokens, List.length_append, List.length_cons] at hf
    rw [Plain.argTokens, Plain.moreArgTokens, List.append_assoc, List.cons_append]
    exact callArgs_more (hread rfl f (by omega))
      (hes (List.cons_ne_nil _ _) f (by rw [Plain.argTokens]; omega) rest)

mutual

/-- **The parser comes to the operator loop**, for every expression. -/
theorem Plain.parse_tokens : ∀ e : Plain, e.CastFree → e.Reads U
  | .name n, _ => Plain.reads_name n
  | .number n, _ => Plain.reads_number n
  | .bin _ left right, h =>
    Plain.reads_bin (left.parse_tokens h.1.2) (right.parse_tokens h.2.2) h.1.1 h.2.1
  | .index arr idx, h => Plain.reads_index (arr.parse_tokens h.1.2) (idx.parse_tokens h.2) h.1.1
  | .field arrow obj n, h => Plain.reads_field (obj.parse_tokens h.2) arrow n h.1
  | .call fn args, h => Plain.reads_call fn (Plain.parse_args args h)
  | .postInc arg, h => Plain.reads_postInc (arg.parse_tokens h.2) h.1
  | .postDec arg, h => Plain.reads_postDec (arg.parse_tokens h.2) h.1

theorem Plain.parse_args : ∀ es : List Plain, Plain.CastFreeArgs es → es ≠ [] → ReadsArgs U es
  | [], _, hne => absurd rfl hne
  | e :: es, h, _ => Plain.readsArgs_cons (e.parse_tokens h.1) (Plain.parse_args es h.2)

end

/-- **The round trip.** An expression in which no product of type names is in parentheses, printed
and parsed, is the tree that it was. -/
theorem parseExpr_print (U : CharTable) (e : Plain) (h : e.CastFree) :
    parseExpr U e.print = some e.toExpr := by
  obtain ⟨hbare, hne⟩ := bareStmt_print U e
  have hparse : parseFrom U (4 * e.tokens.length + 4) 0 e.tokens = some (e.toExpr, []) := by
    have hwhole : Parses U (1 + 2 * e.tokens.length) 0 (e.tokens ++ []) (e.toExpr, []) :=
      e.parse_tokens h (Nat.mul_pos (by decide) e.level_pos) (Nat.zero_le _) Nat.one_pos
        (.stop _ le_rfl)
    rw [List.append_nil] at hwhole
    exact hwhole _ (by omega)
  have htrim : strip (rstripChar ';' (strip e.print)) = e.print := hbare
  rw [parseExpr, htrim, if_neg hne, exprTokens_print]
  dsimp only
  rw [hparse]

/-- A name of one letter. -/
def letterX : Identifier := ⟨lit "x", by decide, by decide⟩

/-- A name that is a type name of casts, but no keyword. -/
def sizeT : Identifier := ⟨lit "size_t", by decide, by decide⟩

theorem parseExpr_print_sample :
    (Plain.bin .mul (.name letterX) (.bin .add (.name sizeT) (.number 1))).print
      = lit "x * ( size_t + 1 )" ∧
    parseExpr .ascii (lit "x * ( size_t + 1 )")
      = some (.bin .mul (.name (lit "x")) (.bin .add (.name (lit "size_t")) (.const (.int 1)))) := by
  let e := Plain.bin .mul (.name letterX) (.bin .add (.name sizeT) (.number 1))
  have hprint : e.print = lit "x * ( size_t + 1 )" := by decide +kernel
  have hfree : e.CastFree := by
    refine ⟨⟨fun h => absurd h (by decide), trivial⟩, fun _ h => ?_,
      ⟨fun h => absurd h (by decide), trivial⟩, fun h => absurd h (by decide), trivial⟩
    cases h
  exact ⟨hprint, hprint ▸ parseExpr_print .ascii e hfree⟩

/-- **The exception.** A product of variables that are called like a type is taken for a cast. -/
theorem not_roundTrip : ¬ ∀ e : Plain, parseExpr .ascii e.print = some e.toExpr := by
  intro h
  have hproduct := h (.bin .mul (.name letterX) (.bin .mul (.name sizeT) (.name sizeT)))
  have hnone : (parseExpr .ascii (Plain.bin .mul (.name letterX)
      (.bin .mul (.name sizeT) (.name sizeT))).print).isNone = true := by decide +kernel
  rw [hproduct] at hnone
  cases hnone

end Csc512
