import Csc512.Cdup.ExprParser

/-!
# Printing expressions

The expressions that consist of names, numbers, binary operators and postfix forms, and how they are
written: with single blanks between the tokens, and with parentheses only where precedence and left
associativity ask for them. The printer knows the precedence levels of C, and nothing of the tables
of the parser.

## Main results

* `exprTokens_print` — the tokens of a printed expression are those that it was printed from
* `numberExpr_natText` — decimal numbers are read as they are
-/

namespace Csc512

/-! ### Names -/

/-- The keywords of C. -/
def keywords : List Text :=
  ["auto", "break", "case", "char", "const", "continue", "default", "do", "double", "else", "enum",
    "extern", "float", "for", "goto", "if", "inline", "int", "long", "register", "restrict",
    "return", "short", "signed", "sizeof", "static", "struct", "switch", "typedef", "union",
    "unsigned", "void", "volatile", "while"].map String.toList

/-- Does a text have the form of an identifier? -/
def isIdentifier : Text → Bool
  | [] => false
  | c :: s => (c.isAlpha || c = '_') && s.all fun d => d.isAlphanum || d = '_'

/-- An identifier. -/
structure Identifier where
  text : Text
  shape : isIdentifier text = true
  notKeyword : text ∉ keywords

/-! ### Expressions -/

/-- Expressions without prefix operators. A field is behind a dot or behind an arrow. -/
inductive Plain where
  | name (n : Identifier)
  | number (n : ℕ)
  | bin (op : BinOp) (left right : Plain)
  | index (arr idx : Plain)
  | field (arrow : Bool) (obj : Plain) (n : Identifier)
  | call (fn : Identifier) (args : List Plain)
  | postInc (arg : Plain)
  | postDec (arg : Plain)

mutual

/-- The tree of an expression. -/
def Plain.toExpr : Plain → Expr
  | .name n => .name n.text
  | .number n => .const (.int n)
  | .bin op left right => .bin op left.toExpr right.toExpr
  | .index arr idx => .index arr.toExpr idx.toExpr
  | .field _ obj n => .field obj.toExpr n.text
  | .call fn args => .call fn.text (Plain.toExprs args)
  | .postInc arg => .step .postInc arg.toExpr
  | .postDec arg => .step .postDec arg.toExpr

/-- The trees of expressions. -/
def Plain.toExprs : List Plain → List Expr
  | [] => []
  | e :: es => e.toExpr :: Plain.toExprs es

end

/-- How a binary operator is written. -/
def BinOp.symbol : BinOp → Text
  | .add => lit "+" | .sub => lit "-" | .mul => lit "*" | .div => lit "/" | .mod => lit "%"
  | .bitAnd => lit "&" | .bitOr => lit "|" | .bitXor => lit "^"
  | .shl => lit "<<" | .shr => lit ">>"
  | .cmpEq => lit "==" | .cmpNe => lit "!="
  | .cmpLt => lit "<" | .cmpGt => lit ">" | .cmpLe => lit "<=" | .cmpGe => lit ">="
  | .logAnd => lit "&&" | .logOr => lit "||"

/-- The precedence level of a binary operator. -/
def BinOp.level : BinOp → ℕ
  | .logOr => 1
  | .logAnd => 2
  | .bitOr => 3
  | .bitXor => 4
  | .bitAnd => 5
  | .cmpEq | .cmpNe => 6
  | .cmpLt | .cmpGt | .cmpLe | .cmpGe => 7
  | .shl | .shr => 8
  | .add | .sub => 9
  | .mul | .div | .mod => 10

/-- The precedence level of postfix forms. -/
def postfixLevel : ℕ := 11

/-- The precedence level of an expression. -/
def Plain.level : Plain → ℕ
  | .bin op _ _ => op.level
  | _ => postfixLevel

/-! ### The printer -/

/-- A punctuator. -/
def opToken (symbol : Text) : Token := ⟨.op, symbol⟩

/-- The token of an identifier. -/
def Identifier.token (n : Identifier) : Token := ⟨.name, n.text⟩

/-- Tokens, in parentheses if that is needed. -/
def parens (needed : Bool) (tokens : List Token) : List Token :=
  if needed then opToken (lit "(") :: (tokens ++ [opToken (lit ")")]) else tokens

mutual

/-- The tokens of an expression. The left operand of an operator may be on its level, the right one
must be above it, and what a postfix form is applied to must be of one, too. -/
def Plain.tokens : Plain → List Token
  | .name n => [n.token]
  | .number n => [⟨.num, natText n⟩]
  | .bin op left right =>
    parens (left.level < op.level) left.tokens ++
      opToken op.symbol :: parens (right.level < op.level + 1) right.tokens
  | .index arr idx =>
    parens (arr.level < postfixLevel) arr.tokens ++
      opToken (lit "[") :: (idx.tokens ++ [opToken (lit "]")])
  | .field arrow obj n =>
    parens (obj.level < postfixLevel) obj.tokens ++
      [opToken (if arrow then lit "->" else lit "."), n.token]
  | .call fn args =>
    fn.token :: opToken (lit "(") :: (Plain.argTokens args ++ [opToken (lit ")")])
  | .postInc arg => parens (arg.level < postfixLevel) arg.tokens ++ [opToken (lit "++")]
  | .postDec arg => parens (arg.level < postfixLevel) arg.tokens ++ [opToken (lit "--")]

/-- The tokens of arguments. -/
def Plain.argTokens : List Plain → List Token
  | [] => []
  | e :: es => e.tokens ++ Plain.moreArgTokens es

/-- The tokens of further arguments. -/
def Plain.moreArgTokens : List Plain → List Token
  | [] => []
  | e :: es => opToken (lit ",") :: (e.tokens ++ Plain.moreArgTokens es)

end

/-- Print an expression. -/
def Plain.print (e : Plain) : Text := [' '].intercalate (e.tokens.map Token.value)

/-! ### Reading tokens back -/

section Lexing

variable (U : CharTable)

/-- A token is read as itself where a blank or the end follows. -/
def Lexes (t : Token) : Prop :=
  ∃ c v, t.value = c :: v ∧ c ∉ [' ', '\t', '\r', '\n'] ∧
    ∀ s : Text, (∀ d ∈ s.head?, d = ' ') → firstToken U c (v ++ s) = t

/-- Neither a blank nor a semicolon. -/
def isInk (c : Char) : Bool := !isSpace c && c ≠ ';'

theorem takeWhile_append_of_stop {p : Char → Bool} {v s : Text} (hv : ∀ c ∈ v, p c)
    (hs : ∀ d ∈ s.head?, p d = false) : (v ++ s).takeWhile p = v := by
  rw [List.takeWhile_append_of_pos hv]
  cases s with
  | nil => rw [List.takeWhile_nil, List.append_nil]
  | cons d s => rw [List.takeWhile_cons_of_neg (by simp [hs d rfl]), List.append_nil]

theorem exprTokensFrom_lexes {t : Token} (ht : Lexes U t) {s : Text} (hs : ∀ d ∈ s.head?, d = ' ')
    (n : ℕ) : exprTokensFrom U (n + 1) (t.value ++ s) = t :: exprTokensFrom U n s := by
  obtain ⟨c, v, hvalue, hc, hfirst⟩ := ht
  have hdrop : (c :: (v ++ s)).drop t.value.length = s := by
    rw [hvalue, ← List.cons_append, List.drop_left]
  rw [hvalue, List.cons_append, exprTokensFrom, if_neg hc, hfirst s hs]
  exact congrArg (t :: exprTokensFrom U n ·) hdrop

/-- Tokens that are written with single blanks between them are read as they are. -/
theorem exprTokensFrom_intercalate {l : List Token} (hl : ∀ t ∈ l, Lexes U t) {n : ℕ}
    (hn : ([' '].intercalate (l.map Token.value)).length ≤ n) :
    exprTokensFrom U n ([' '].intercalate (l.map Token.value)) = l := by
  induction l generalizing n with
  | nil => cases n <;> rfl
  | cons t l ih =>
    have ht := hl t List.mem_cons_self
    have hpos : 0 < t.value.length := by
      obtain ⟨c, v, hvalue, -⟩ := ht
      rw [hvalue]
      exact Nat.succ_pos _
    cases l with
    | nil =>
      have htext : [' '].intercalate ([t].map Token.value) = t.value ++ [] := rfl
      rw [htext] at hn ⊢
      rw [List.append_nil] at hn
      obtain ⟨n, rfl⟩ := Nat.exists_eq_succ_of_ne_zero (by omega : n ≠ 0)
      rw [Nat.succ_eq_add_one, exprTokensFrom_lexes U ht (by simp)]
      cases n <;> rfl
    | cons u l =>
      have htext : [' '].intercalate ((t :: u :: l).map Token.value)
          = t.value ++ ' ' :: [' '].intercalate ((u :: l).map Token.value) := rfl
      rw [htext] at hn ⊢
      rw [List.length_append, List.length_cons] at hn
      obtain ⟨n, rfl⟩ := Nat.exists_eq_add_of_le' (by omega : 2 ≤ n)
      rw [exprTokensFrom_lexes U ht fun d hd => (Option.mem_some_iff.mp hd).symm]
      refine congrArg (t :: ·) ?_
      rw [exprTokensFrom, if_pos List.mem_cons_self]
      exact ih (fun u hu => hl u (List.mem_cons_of_mem _ hu)) (by omega)

/-! ### Names, numbers and punctuators -/

theorem lt_of_isAlphanum {c : Char} (h : c.isAlphanum) : c.toNat < 128 := by
  simp only [Char.isAlphanum, isAlpha_iff, isUpper_iff, isLower_iff, Char.isDigit,
    Bool.or_eq_true, Bool.and_eq_true, decide_eq_true_eq, UInt32.le_iff_toNat_le, ge_iff_le] at h
  have hval : c.toNat = c.val.toNat := rfl
  have hdigit : '9'.val.toNat = 57 := rfl
  omega

theorem not_isDigit_of_isAlpha {c : Char} (h : c.isAlpha) : c.isDigit = false := by
  simp only [isAlpha_iff, isUpper_iff, isLower_iff, Char.isDigit, UInt32.le_iff_toNat_le, ge_iff_le,
    Bool.and_eq_false_iff, decide_eq_false_iff_not, not_le] at h ⊢
  have hval : c.toNat = c.val.toNat := rfl
  have hdigit : '9'.val.toNat = 57 := rfl
  omega

theorem lexes_name (n : Identifier) : Lexes U n.token := by
  obtain ⟨text, hshape, -⟩ := n
  cases text with
  | nil => cases hshape
  | cons c v =>
    obtain ⟨hc, hv⟩ := Bool.and_eq_true_iff.mp hshape
    have hlt : c.toNat < 128 := by
      rcases Bool.or_eq_true_iff.mp hc with h | h
      · exact lt_of_isAlphanum (by simp [Char.isAlphanum, h])
      · rw [of_decide_eq_true h]
        decide
    have hdigit : U.isDigit c = false := by
      rw [U.isDigit_ascii c hlt]
      rcases Bool.or_eq_true_iff.mp hc with h | h
      · exact not_isDigit_of_isAlpha h
      · rw [of_decide_eq_true h]
        decide
    have hfirst : ∀ x, x.isAlpha = false → x ≠ '_' → c ≠ x := by
      rintro x hx hne rfl
      simp [hx, hne] at hc
    refine ⟨c, v, rfl, ?_, fun s hs => ?_⟩
    · simp only [List.mem_cons, List.not_mem_nil, or_false, not_or]
      exact ⟨hfirst _ (by decide) (by decide), hfirst _ (by decide) (by decide),
        hfirst _ (by decide) (by decide), hfirst _ (by decide) (by decide)⟩
    · have hquote : ¬ (c = '"' ∨ c = '\'') :=
        not_or.mpr ⟨hfirst _ (by decide) (by decide), hfirst _ (by decide) (by decide)⟩
      have hnum : ¬ (U.isDigit c = true ∨ c = '.' ∧ (v ++ s).head?.any U.isDigit = true) := by
        rw [hdigit]
        exact not_or.mpr ⟨Bool.false_ne_true, fun h => hfirst _ (by decide) (by decide) h.1⟩
      have halpha : U.isAlpha c = true ∨ c = '_' := by
        rw [U.isAlpha_ascii c hlt]
        simpa using hc
      rw [firstToken, if_neg hquote, if_neg hnum, if_pos halpha, takeWhile_append_of_stop]
      · rfl
      · intro d hd
        have halnum := List.all_eq_true.mp hv d hd
        rcases Bool.or_eq_true_iff.mp halnum with h | h
        · rw [U.isAlnum_ascii d (lt_of_isAlphanum h), h]
          rfl
        · simp [of_decide_eq_true h]
      · intro d hd
        rw [hs d hd, U.isAlnum_ascii ' ' (by decide)]
        rfl

theorem isAlphanum_of_isDigit {c : Char} (h : c.isDigit) : c.isAlphanum := by
  simp [Char.isAlphanum, h]

theorem lexes_number (n : ℕ) : Lexes U ⟨.num, natText n⟩ := by
  obtain ⟨c, v, htext⟩ : ∃ c v, natText n = c :: v :=
    List.exists_cons_of_ne_nil Nat.toDigits_ne_nil
  have hdigits : ∀ d ∈ c :: v, d.isDigit := fun d hd => isDigit_of_mem_natText (htext ▸ hd)
  have hc := hdigits c List.mem_cons_self
  have hU : ∀ d ∈ c :: v, U.isDigit d = true := fun d hd => by
    rw [U.isDigit_ascii d (lt_of_isAlphanum (isAlphanum_of_isDigit (hdigits d hd)))]
    exact hdigits d hd
  have hfirst : ∀ x, x.isDigit = false → c ≠ x := by
    rintro x hx rfl
    rw [hx] at hc
    cases hc
  refine ⟨c, v, htext, ?_, fun s hs => ?_⟩
  · simp only [List.mem_cons, List.not_mem_nil, or_false, not_or]
    exact ⟨hfirst _ (by decide), hfirst _ (by decide), hfirst _ (by decide), hfirst _ (by decide)⟩
  · have hquote : ¬ (c = '"' ∨ c = '\'') :=
      not_or.mpr ⟨hfirst _ (by decide), hfirst _ (by decide)⟩
    rw [firstToken, if_neg hquote, if_pos (.inl (hU c List.mem_cons_self)), takeWhile_append_of_stop]
    · rw [htext]
    · intro d hd
      rw [hU d (List.mem_cons_of_mem _ hd)]
      rfl
    · intro d hd
      rw [hs d hd, U.isDigit_ascii ' ' (by decide)]
      decide

/-- Neither a blank nor the first character of a name, a number or a literal. -/
def isPlainChar (c : Char) : Bool :=
  c.toNat < 128 && !c.isAlphanum && c ∉ ['_', '"', '\'', ' ', '\t', '\r', '\n']

/-- Is a text read as a punctuator, whatever is behind the blank that follows it? -/
def isPunctuator : Text → Bool
  | [c] => isPlainChar c && [c] ∉ twoCharOps && [c, ' '] ∉ twoCharOps
  | [c, d] => isPlainChar c && c ≠ '.' && [c, d] ∈ twoCharOps
  | _ => false

theorem firstToken_plain {c : Char} (h : isPlainChar c = true) {s : Text}
    (hdot : c = '.' → ∀ d ∈ s.head?, d = ' ') :
    firstToken U c s = if (c :: s).take 2 ∈ twoCharOps then ⟨.op, (c :: s).take 2⟩
      else ⟨.op, [c]⟩ := by
  simp only [isPlainChar, Bool.and_eq_true, decide_eq_true_eq, Bool.not_eq_true',
    List.mem_cons, List.not_mem_nil, or_false, not_or] at h
  obtain ⟨⟨hlt, halnum⟩, hunder, hquote, hchar, -⟩ := h
  simp only [Char.isAlphanum, Bool.or_eq_false_iff] at halnum
  have hnum : ¬ (U.isDigit c = true ∨ c = '.' ∧ s.head?.any U.isDigit = true) := by
    rw [U.isDigit_ascii c hlt, halnum.2]
    rintro (h | ⟨h, hany⟩)
    · cases h
    · cases s with
      | nil => cases hany
      | cons d s =>
        rw [hdot h d rfl] at hany
        exact absurd ((U.isDigit_ascii ' ' (by decide)).symm.trans hany) (by decide)
  have halpha : ¬ (U.isAlpha c = true ∨ c = '_') := by
    rw [U.isAlpha_ascii c hlt, halnum.1]
    exact not_or.mpr ⟨Bool.false_ne_true, hunder⟩
  rw [firstToken, if_neg (not_or.mpr ⟨hquote, hchar⟩), if_neg hnum, if_neg halpha]

theorem notMem_blanks_of_isPlainChar {c : Char} (h : isPlainChar c = true) :
    c ∉ [' ', '\t', '\r', '\n'] := by
  simp only [isPlainChar, Bool.and_eq_true, decide_eq_true_eq, List.mem_cons, List.not_mem_nil,
    or_false, not_or] at h ⊢
  exact h.2.2.2.2

theorem lexes_op {p : Text} (h : isPunctuator p = true) : Lexes U (opToken p) := by
  match p, h with
  | [c], h =>
    simp only [isPunctuator, Bool.and_eq_true, decide_eq_true_eq] at h
    obtain ⟨⟨hplain, hone⟩, htwo⟩ := h
    refine ⟨c, [], rfl, notMem_blanks_of_isPlainChar hplain, fun s hs => ?_⟩
    rw [List.nil_append, firstToken_plain U hplain fun _ => hs, if_neg]
    · rfl
    · cases s with
      | nil => exact hone
      | cons d s =>
        rw [hs d rfl]
        exact htwo
  | [c, d], h =>
    simp only [isPunctuator, Bool.and_eq_true, decide_eq_true_eq] at h
    obtain ⟨⟨hplain, hdot⟩, htwo⟩ := h
    refine ⟨c, [d], rfl, notMem_blanks_of_isPlainChar hplain, fun s _ => ?_⟩
    rw [firstToken_plain U hplain fun h => absurd h hdot]
    exact if_pos htwo

/-! ### Printed expressions -/

/-- What is needed of the tokens of an expression to read them back. -/
structure Readable (t : Token) : Prop where
  lexes : Lexes U t
  ink : ∀ c ∈ t.value, isInk c = true

theorem isInk_of_isAlphanum {c : Char} (h : c.isAlphanum) : isInk c = true := by
  have hall : ∀ n < 128, (Char.ofNat n).isAlphanum → isInk (Char.ofNat n) = true := by
    decide +kernel
  have hc := hall c.toNat (lt_of_isAlphanum h)
  rw [Char.ofNat_toNat] at hc
  exact hc h

theorem readable_name (n : Identifier) : Readable U n.token where
  lexes := lexes_name U n
  ink := by
    obtain ⟨text, hshape, -⟩ := n
    cases text with
    | nil => nofun
    | cons c v =>
      obtain ⟨hc, hv⟩ := Bool.and_eq_true_iff.mp hshape
      have hword : ∀ d, (d.isAlphanum || d = '_') = true → isInk d = true := by
        intro d hd
        rcases Bool.or_eq_true_iff.mp hd with h | h
        · exact isInk_of_isAlphanum h
        · rw [of_decide_eq_true h]
          decide
      refine List.forall_mem_cons.mpr ⟨hword c ?_, fun d hd => hword d (List.all_eq_true.mp hv d hd)⟩
      rcases Bool.or_eq_true_iff.mp hc with h | h
      · simp [Char.isAlphanum, h]
      · simp [h]

theorem readable_number (n : ℕ) : Readable U ⟨.num, natText n⟩ where
  lexes := lexes_number U n
  ink _ hd := isInk_of_isAlphanum (isAlphanum_of_isDigit (isDigit_of_mem_natText hd))

theorem readable_op {p : Text} (h : (isPunctuator p && p.all isInk) = true) :
    Readable U (opToken p) := by
  obtain ⟨hpunct, hink⟩ := Bool.and_eq_true_iff.mp h
  exact ⟨lexes_op U hpunct, List.all_eq_true.mp hink⟩

theorem readable_symbol (op : BinOp) : Readable U (opToken op.symbol) := by
  cases op <;> exact readable_op U (by decide)

theorem readable_parens {needed : Bool} {l : List Token} (h : ∀ t ∈ l, Readable U t) :
    ∀ t ∈ parens needed l, Readable U t := by
  cases needed with
  | false => exact h
  | true =>
    show ∀ t ∈ opToken (lit "(") :: (l ++ [opToken (lit ")")]), Readable U t
    rw [List.forall_mem_cons, List.forall_mem_append, List.forall_mem_singleton]
    exact ⟨readable_op U (by decide), h, readable_op U (by decide)⟩

mutual

theorem Plain.readable : ∀ e : Plain, ∀ t ∈ e.tokens, Readable U t
  | .name n => List.forall_mem_singleton.mpr (readable_name U n)
  | .number n => List.forall_mem_singleton.mpr (readable_number U n)
  | .bin op left right => by
    rw [Plain.tokens, List.forall_mem_append, List.forall_mem_cons]
    exact ⟨readable_parens U left.readable, readable_symbol U op,
      readable_parens U right.readable⟩
  | .index arr idx => by
    rw [Plain.tokens, List.forall_mem_append, List.forall_mem_cons, List.forall_mem_append,
      List.forall_mem_singleton]
    exact ⟨readable_parens U arr.readable, readable_op U (by decide), idx.readable,
      readable_op U (by decide)⟩
  | .field arrow obj n => by
    rw [Plain.tokens, List.forall_mem_append, List.forall_mem_cons, List.forall_mem_singleton]
    refine ⟨readable_parens U obj.readable, readable_op U ?_, readable_name U n⟩
    cases arrow <;> decide
  | .call fn args => by
    rw [Plain.tokens, List.forall_mem_cons, List.forall_mem_cons, List.forall_mem_append,
      List.forall_mem_singleton]
    exact ⟨readable_name U fn, readable_op U (by decide), Plain.readable_args args,
      readable_op U (by decide)⟩
  | .postInc arg | .postDec arg => by
    rw [Plain.tokens, List.forall_mem_append, List.forall_mem_singleton]
    exact ⟨readable_parens U arg.readable, readable_op U (by decide)⟩

theorem Plain.readable_args : ∀ es : List Plain, ∀ t ∈ Plain.argTokens es, Readable U t
  | [] => by simp [Plain.argTokens]
  | e :: es => by
    rw [Plain.argTokens, List.forall_mem_append]
    exact ⟨e.readable, Plain.readable_moreArgs es⟩

theorem Plain.readable_moreArgs : ∀ es : List Plain, ∀ t ∈ Plain.moreArgTokens es, Readable U t
  | [] => by simp [Plain.moreArgTokens]
  | e :: es => by
    rw [Plain.moreArgTokens, List.forall_mem_cons, List.forall_mem_append]
    exact ⟨readable_op U (by decide), e.readable, Plain.readable_moreArgs es⟩

end

/-- **The tokens of a printed expression.** -/
theorem exprTokens_print (e : Plain) : exprTokens U e.print = e.tokens :=
  exprTokensFrom_intercalate U (fun t ht => (e.readable U t ht).lexes) le_rfl

/-! ### Numbers -/

theorem digitChar_of_isDigit {c : Char} (h : c.isDigit) : Nat.digitChar (c.toNat - 48) = c := by
  have hall : ∀ n < 128, (Char.ofNat n).isDigit →
      Nat.digitChar ((Char.ofNat n).toNat - 48) = Char.ofNat n := by decide +kernel
  have hc := hall c.toNat (lt_of_isAlphanum (isAlphanum_of_isDigit h))
  rw [Char.ofNat_toNat] at hc
  exact hc h

theorem asciiDigits_natText (n : ℕ) : asciiDigits U (natText n) = natText n := by
  have hmap : ∀ c ∈ natText n,
      (if U.isDecimal c then Nat.digitChar (U.decimalValue c) else c) = id c := by
    intro c hc
    have hdigit := isDigit_of_mem_natText hc
    rw [U.isDecimal_ascii c (lt_of_isAlphanum (isAlphanum_of_isDigit hdigit)), if_pos hdigit,
      U.decimalValue_ascii c hdigit]
    exact digitChar_of_isDigit hdigit
  exact (List.map_congr_left hmap).trans (List.map_id _)

theorem digitValue_of_isDigit {c : Char} (h : c.isDigit) :
    digitValue c = some (c.toNat - '0'.toNat) ∧ c.toNat - '0'.toNat < 10 := by
  refine ⟨if_pos h, ?_⟩
  simp only [Char.isDigit, Bool.and_eq_true, decide_eq_true_eq, UInt32.le_iff_toNat_le,
    ge_iff_le] at h
  have hval : c.toNat = c.val.toNat := rfl
  have hnine : '9'.val.toNat = 57 := rfl
  have hzero : '0'.toNat = 48 := rfl
  omega

theorem ofDigits_natText (n : ℕ) : ofDigits 10 (natText n) = some n := by
  have hfold : ∀ (s : Text) (a : ℕ), (∀ c ∈ s, c.isDigit) →
      s.foldl (fun acc c => do
        let n ← acc
        let d ← digitValue c
        if d < 10 then some (n * 10 + d) else none) (some a) = some (Nat.ofDigitChars 10 s a) := by
    intro s a hs
    induction s generalizing a with
    | nil => rfl
    | cons c s ih =>
      obtain ⟨hvalue, hlt⟩ := digitValue_of_isDigit (hs c List.mem_cons_self)
      rw [List.foldl_cons, Nat.ofDigitChars_cons]
      simp only [Option.bind_eq_bind, Option.bind_some, hvalue, if_pos hlt]
      rw [Nat.mul_comm a 10]
      exact ih _ fun c hc => hs c (List.mem_cons_of_mem _ hc)
  have hne : natText n ≠ [] := Nat.toDigits_ne_nil
  rw [ofDigits, if_neg hne, hfold _ 0 fun _ => isDigit_of_mem_natText]
  exact congrArg some Nat.ofDigitChars_ten_toDigits

theorem intAnyBase_natText (n : ℕ) : intAnyBase U (natText n) = some n := by
  rw [intAnyBase, asciiDigits_natText]
  split
  case h_1 x ds htext =>
    rcases Nat.eq_zero_or_pos n with rfl | hpos
    · cases htext
    · exact absurd (congrArg List.head? htext) (head?_natText_ne hpos)
  case h_2 => exact ofDigits_natText n

/-- **Decimal numbers are read as they are.** -/
theorem numberExpr_natText (n : ℕ) : numberExpr U (natText n) = some (.const (.int n)) := by
  have hletter : ∀ c ∈ natText n, ∀ x, x.isDigit = false → c ≠ x := by
    rintro c hc x hx rfl
    rw [isDigit_of_mem_natText hc] at hx
    cases hx
  have hfloat : ((natText n).any fun c => c = '.' || c = 'e' || c = 'E') = false := by
    refine List.any_eq_false.mpr fun c hc => ?_
    simp [hletter c hc '.' (by decide), hletter c hc 'e' (by decide), hletter c hc 'E' (by decide)]
  have hclean : (natText n).rdropWhile (· ∈ lit "uUlL") = natText n := by
    refine List.rdropWhile_eq_self_iff.mpr fun hne => ?_
    have hlast := hletter _ (List.getLast_mem hne)
    simp [lit, hlast]
  rw [numberExpr, if_neg (by simp [hfloat]), intToken]
  simp only [hclean, intAnyBase_natText]
  rfl

/-! ### Trimming -/

variable {U}

theorem Readable.exists_cons {t : Token} (h : Readable U t) :
    ∃ c v, t.value = c :: v ∧ isInk c = true := by
  obtain ⟨c, v, hvalue, -⟩ := h.lexes
  exact ⟨c, v, hvalue, h.ink c (hvalue ▸ List.mem_cons_self)⟩

theorem exists_ink_head {l : List Token} (hl : ∀ t ∈ l, Readable U t) (hne : l ≠ []) :
    ∃ c s, [' '].intercalate (l.map Token.value) = c :: s ∧ isInk c = true := by
  match l, hne with
  | [t], _ =>
    obtain ⟨c, v, hvalue, hc⟩ := (hl t List.mem_cons_self).exists_cons
    have htext : [' '].intercalate ([t].map Token.value) = t.value ++ [] := rfl
    exact ⟨c, v ++ [], by rw [htext, hvalue, List.cons_append], hc⟩
  | t :: u :: l, _ =>
    obtain ⟨c, v, hvalue, hc⟩ := (hl t List.mem_cons_self).exists_cons
    have htext : [' '].intercalate ((t :: u :: l).map Token.value)
        = t.value ++ ' ' :: [' '].intercalate ((u :: l).map Token.value) := rfl
    exact ⟨c, _, by rw [htext, hvalue, List.cons_append], hc⟩

theorem exists_ink_last {l : List Token} (hl : ∀ t ∈ l, Readable U t) (hne : l ≠ []) :
    ∃ s d, [' '].intercalate (l.map Token.value) = s ++ [d] ∧ isInk d = true := by
  induction l with
  | nil => exact absurd rfl hne
  | cons t l ih =>
    cases l with
    | nil =>
      have ht := hl t List.mem_cons_self
      obtain ⟨c, v, hvalue, -⟩ := ht.exists_cons
      have hlast : t.value ≠ [] := by simp [hvalue]
      have htext : [' '].intercalate ([t].map Token.value) = t.value ++ [] := rfl
      refine ⟨t.value.dropLast, t.value.getLast hlast, ?_, ht.ink _ (List.getLast_mem hlast)⟩
      rw [htext, List.append_nil, List.dropLast_append_getLast]
    | cons u l =>
      obtain ⟨s, d, hs, hd⟩ := ih (fun u hu => hl u (List.mem_cons_of_mem _ hu)) (by simp)
      have htext : [' '].intercalate ((t :: u :: l).map Token.value)
          = t.value ++ ' ' :: [' '].intercalate ((u :: l).map Token.value) := rfl
      exact ⟨t.value ++ ' ' :: s, d, by rw [htext, hs, List.append_assoc, List.cons_append], hd⟩

theorem strip_of_ink {c d : Char} {r s : Text} (h : c :: s = r ++ [d]) (hc : isInk c = true)
    (hd : isInk d = true) : bareStmt (c :: s) = c :: s := by
  simp only [isInk, Bool.and_eq_true, Bool.not_eq_true', decide_eq_true_eq] at hc hd
  have hstrip : strip (c :: s) = c :: s := by
    rw [strip, lstrip_cons (by simp [hc.1]), h]
    exact rstrip_append_singleton r (by simp [hd.1])
  have hsemi : rstripChar ';' (c :: s) = c :: s := by
    rw [h]
    exact List.rdropWhile_concat_neg _ _ _ (by simpa using hd.2)
  rw [bareStmt, hstrip, hsemi, hstrip]

theorem Plain.tokens_ne_nil (e : Plain) : e.tokens ≠ [] := by
  cases e <;> simp [Plain.tokens]

/-- A printed expression has nothing to trim. -/
theorem bareStmt_print (U : CharTable) (e : Plain) :
    bareStmt e.print = e.print ∧ e.print ≠ [] := by
  obtain ⟨c, s, hhead, hc⟩ := exists_ink_head (e.readable U) e.tokens_ne_nil
  obtain ⟨r, d, hlast, hd⟩ := exists_ink_last (e.readable U) e.tokens_ne_nil
  have htext : e.print = c :: s := hhead
  rw [htext]
  exact ⟨strip_of_ink (hhead.symm.trans hlast) hc hd, List.cons_ne_nil _ _⟩

end Lexing

end Csc512
