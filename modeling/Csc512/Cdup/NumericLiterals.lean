import Csc512.Cdup.ArrayText
import Csc512.Cdup.ExprRoundTrip
import Csc512.Cdup.Kernel

/-!
# Numeric literals

An integer is written with decimal, octal or hexadecimal digits and a suffix, and a floating point
number with a point, an exponent or both. The parser takes one run of letters and digits for a
number, and a number with a point or an `e` for one with floating point.

## Main results

* `NumLiteral.readsAs_iff` — when a literal is read as what it writes, alone and in a sum
* `not_readsAs` — `010` is read as ten
-/

namespace Csc512

/-! ### Literals -/

/-- A text of digits of a base. -/
def DigitsOf (base : ℕ) (ds : Text) : Prop := ∀ c ∈ ds, ∃ d, digitValue c = some d ∧ d < base

/-- The number that digits write. -/
def digitsValue (base : ℕ) (ds : Text) : ℕ :=
  ds.foldl (fun n c => n * base + (digitValue c).getD 0) 0

/-- The suffixes of integers. -/
def intSuffixes : List Text :=
  ["", "u", "U"].flatMap fun u => ["", "l", "L", "ll", "LL"].flatMap fun l =>
    [u.toList ++ l.toList, l.toList ++ u.toList]

/-- The exponent of a floating point number. -/
structure Exponent where
  letter : Char
  sign : Option Char
  digits : Text

namespace Exponent

/-- The letter is an `e`, and there are digits. -/
def Valid (e : Exponent) : Prop :=
  e.letter ∈ ['e', 'E'] ∧ (∀ s ∈ e.sign, s = '+' ∨ s = '-') ∧ e.digits ≠ [] ∧ DigitsOf 10 e.digits

/-- What follows the letter. -/
def tail (e : Exponent) : Text := e.sign.toList ++ e.digits

/-- The exponent. -/
def value (e : Exponent) : ℤ :=
  if e.sign = some '-' then -digitsValue 10 e.digits else digitsValue 10 e.digits

end Exponent

/-- A numeric literal. -/
inductive NumLiteral where
  | dec (ds suffix : Text)
  | oct (ds suffix : Text)
  | hex (x : Char) (ds suffix : Text)
  | float (whole : Text) (places : Option Text) (exponent : Option Exponent) (suffix : Text)

namespace NumLiteral

/-- What C asks of a literal. -/
def Valid : NumLiteral → Prop
  | dec ds suffix => ds ≠ [] ∧ ds.head? ≠ some '0' ∧ DigitsOf 10 ds ∧ suffix ∈ intSuffixes
  | oct ds suffix => DigitsOf 8 ds ∧ suffix ∈ intSuffixes
  | hex x ds suffix => x ∈ ['x', 'X'] ∧ ds ≠ [] ∧ DigitsOf 16 ds ∧ suffix ∈ intSuffixes
  | float whole places exponent suffix =>
    (DigitsOf 10 whole ∧ DigitsOf 10 (places.getD []) ∧ whole ++ places.getD [] ≠ []) ∧
      (places.isSome ∨ exponent.isSome) ∧ (∀ e ∈ exponent, e.Valid) ∧
      suffix ∈ [[], ['f'], ['F']]

/-- The digits of a floating point number, with its point. -/
def mantissa (whole : Text) (places : Option Text) : Text :=
  whole ++ places.elim [] fun p => '.' :: p

/-- The text of a literal. -/
def text : NumLiteral → Text
  | dec ds suffix => ds ++ suffix
  | oct ds suffix => '0' :: ds ++ suffix
  | hex x ds suffix => '0' :: x :: ds ++ suffix
  | float whole places exponent suffix =>
    mantissa whole places ++ (exponent.elim [] fun e => e.letter :: e.tail) ++ suffix

/-- The value that C gives to a literal. -/
def value : NumLiteral → Value
  | dec ds _ => .int (digitsValue 10 ds)
  | oct ds _ => .int (digitsValue 8 ds)
  | hex _ ds _ => .int (digitsValue 16 ds)
  | float whole places exponent _ =>
    .float (Double.round ((digitsValue 10 (whole ++ places.getD []) : ℚ) *
      powTen (exponent.elim 0 Exponent.value - (places.getD []).length)))

/-- The literals that the parser understands. -/
def Understood : NumLiteral → Prop
  | dec _ _ => True
  | oct ds _ => digitsValue 8 ds < 8
  | hex _ ds _ => 'e' ∉ ds ∧ 'E' ∉ ds
  | float _ _ exponent suffix => suffix = [] ∧ ∀ e ∈ exponent, e.sign = none

/-- A literal is read as a constant with its value, alone and in sums. -/
def ReadsAs (U : CharTable) (x : Identifier) (l : NumLiteral) : Prop :=
  ∃ k, (∀ s, constValue U k s = (.ok l.value, s)) ∧ parseExpr U l.text = some (.const k) ∧
    parseExpr U (x.text ++ lit " + " ++ l.text) = some (.bin .add (.name x.text) (.const k)) ∧
    parseExpr U (l.text ++ lit " + " ++ x.text) = some (.bin .add (.const k) (.name x.text))

end NumLiteral

/-! ### Digits -/

section Digits

variable (U : CharTable) {base : ℕ} {c : Char} {ds t : Text}

theorem DigitsOf.head (h : DigitsOf base (c :: ds)) : ∃ d, digitValue c = some d ∧ d < base :=
  h c List.mem_cons_self

theorem DigitsOf.tail (h : DigitsOf base (c :: ds)) : DigitsOf base ds :=
  fun d hd => h d (List.mem_cons_of_mem c hd)

/-- The characters that `digitValue` has a value for. -/
theorem digitValue_char {d : ℕ} (h : digitValue c = some d) :
    c.toNat < 128 ∧ (d < 10 → c.isDigit = true) ∧ c ∈ lit "0123456789abcdefABCDEF" := by
  have hlt : c.toNat < 128 := by
    rw [digitValue] at h
    split_ifs at h with hdigit hlower hupper
    · exact lt_of_isAlphanum (isAlphanum_of_isDigit hdigit)
    · exact Nat.lt_of_le_of_lt (Char.le_def.mp hlower.2) (by decide)
    · exact Nat.lt_of_le_of_lt (Char.le_def.mp hupper.2) (by decide)
  have hall : ∀ n < 128, (digitValue (Char.ofNat n)).all (fun d =>
      (!decide (d < 10) || (Char.ofNat n).isDigit) &&
        Char.ofNat n ∈ lit "0123456789abcdefABCDEF") = true := by decide +kernel
  have hc := hall c.toNat hlt
  rw [Char.ofNat_toNat, h] at hc
  simp only [Option.all_some, Bool.and_eq_true, Bool.or_eq_true, Bool.not_eq_true',
    decide_eq_false_iff_not, decide_eq_true_eq] at hc
  exact ⟨hlt, fun hd => hc.1.resolve_left fun h => h hd, hc.2⟩

theorem ofDigits_eq (hne : ds ≠ []) (h : DigitsOf base ds) :
    ofDigits base ds = some (digitsValue base ds) := by
  have hfold : ∀ (ds : Text) (a : ℕ), DigitsOf base ds → ds.foldl (fun acc c => do
      let n ← acc
      let d ← digitValue c
      if d < base then some (n * base + d) else none) (some a)
        = some (ds.foldl (fun n c => n * base + (digitValue c).getD 0) a) := by
    intro ds
    induction ds with
    | nil => exact fun _ _ => rfl
    | cons c ds ih =>
      intro a h
      obtain ⟨d, hd, hlt⟩ := h.head
      rw [List.foldl_cons, List.foldl_cons]
      simp only [Option.bind_eq_bind, Option.bind_some, hd, if_pos hlt, Option.getD_some]
      exact ih _ h.tail
  rw [ofDigits, if_neg hne]
  exact hfold ds 0 h

theorem asciiDigits_eq (h : ∀ c ∈ t, c.toNat < 128) : asciiDigits U t = t := by
  have hmap : ∀ c ∈ t, (if U.isDecimal c then Nat.digitChar (U.decimalValue c) else c) = id c := by
    intro c hc
    rw [U.isDecimal_ascii c (h c hc)]
    split_ifs with hdigit
    · rw [U.decimalValue_ascii c hdigit]
      exact digitChar_of_isDigit hdigit
    · rfl
  exact (List.map_congr_left hmap).trans (List.map_id _)

/-- The letters and digits of a number. -/
def isNumChar (c : Char) : Bool := c.isDigit || c ∈ lit ".eExXabcdefABCDEFuUlL"

theorem lt_of_isNumChar (h : isNumChar c = true) : c.toNat < 128 := by
  rcases Bool.or_eq_true_iff.mp h with h | h
  · exact lt_of_isAlphanum (isAlphanum_of_isDigit h)
  · exact (by decide : ∀ c ∈ lit ".eExXabcdefABCDEFuUlL", c.toNat < 128) c (of_decide_eq_true h)

theorem isInk_of_isNumChar (h : isNumChar c = true) : isInk c = true := by
  rcases Bool.or_eq_true_iff.mp h with h | h
  · exact isInk_of_isAlphanum (isAlphanum_of_isDigit h)
  · exact (by decide : ∀ c ∈ lit ".eExXabcdefABCDEFuUlL", isInk c = true) c (of_decide_eq_true h)

theorem DigitsOf.isNumChar (h : DigitsOf base ds) : ∀ c ∈ ds, isNumChar c = true := by
  intro c hc
  obtain ⟨d, hd, -⟩ := h c hc
  exact (by decide : ∀ c ∈ lit "0123456789abcdefABCDEF", Csc512.isNumChar c = true) c
    (digitValue_char hd).2.2

theorem DigitsOf.isDigit (h : DigitsOf base ds) (hbase : base ≤ 10) : ∀ c ∈ ds, c.isDigit = true := by
  intro c hc
  obtain ⟨d, hd, hlt⟩ := h c hc
  exact (digitValue_char hd).2.1 (Nat.lt_of_lt_of_le hlt hbase)

theorem DigitsOf.mono {base' : ℕ} (h : DigitsOf base ds) (hle : base ≤ base') : DigitsOf base' ds :=
  fun c hc => (h c hc).imp fun _ hd => ⟨hd.1, Nat.lt_of_lt_of_le hd.2 hle⟩

theorem DigitsOf.append {es : Text} (h : DigitsOf base ds) (h' : DigitsOf base es) :
    DigitsOf base (ds ++ es) := fun c hc => (List.mem_append.mp hc).elim (h c) (h' c)

theorem isNumChar_of_mem_suffix {suffix : Text} (h : suffix ∈ intSuffixes) :
    ∀ c ∈ suffix, c ∈ lit "uUlL" := by
  revert suffix
  decide

/-- **A number** is read up to the next character that is none of a number. -/
theorem firstToken_number {v s : Text} (hc : c.isDigit = true ∨ c = '.' ∧ v.head?.any Char.isDigit)
    (hv : ∀ d ∈ v, isNumChar d = true) (hs : ∀ d ∈ s.head?, d.toNat < 128 ∧ isNumChar d = false) :
    firstToken U c (v ++ s) = ⟨.num, c :: v⟩ := by
  have hU : ∀ d : Char, d.toNat < 128 →
      (U.isDigit d || decide (d ∈ lit ".eExXabcdefABCDEFuUlL")) = isNumChar d := by
    intro d hd
    rw [U.isDigit_ascii d hd, isNumChar]
  have hstart : U.isDigit c = true ∨ c = '.' ∧ (v ++ s).head?.any U.isDigit = true := by
    rcases hc with hc | ⟨rfl, hhead⟩
    · exact .inl ((U.isDigit_ascii c (lt_of_isAlphanum (isAlphanum_of_isDigit hc))).trans hc)
    · cases v with
      | nil => cases hhead
      | cons d v =>
        have hd : d.isDigit = true := hhead
        exact .inr ⟨rfl, (U.isDigit_ascii d (lt_of_isAlphanum (isAlphanum_of_isDigit hd))).trans hd⟩
  have hquote : ¬ (c = '"' ∨ c = '\'') := by
    rcases hc with hc | ⟨rfl, -⟩
    · rintro (rfl | rfl) <;> cases hc
    · decide
  rw [firstToken, if_neg hquote, if_pos hstart, takeWhile_append_of_stop]
  · exact fun d hd => (hU d (lt_of_isNumChar (hv d hd))).trans (hv d hd)
  · exact fun d hd => (hU d (hs d hd).1).trans (hs d hd).2

end Digits

/-! ### Tokens -/

/-- The text of a number that can be read as a token. -/
structure NumText (t : Text) : Prop where
  start : ∃ c v, t = c :: v ∧ (c.isDigit = true ∨ c = '.' ∧ v.head?.any Char.isDigit)
  chars : ∀ c ∈ t, isNumChar c = true

section Tokens

variable (U : CharTable) {t s : Text}

theorem NumText.ink (h : NumText t) : ∀ c ∈ t, isInk c = true := fun c hc =>
  isInk_of_isNumChar (h.chars c hc)

/-- A text of visible characters has nothing to trim. -/
theorem bareStmt_ink (hne : t ≠ []) (hink : ∀ c ∈ t, isInk c = true) : bareStmt t = t := by
  obtain ⟨c, s, rfl⟩ := List.exists_cons_of_ne_nil hne
  obtain ⟨r, d, hlast⟩ := (List.eq_nil_or_concat (c :: s)).resolve_left hne
  rw [List.concat_eq_append] at hlast
  exact strip_of_ink hlast (hink c List.mem_cons_self)
    (hink d (hlast ▸ List.mem_append_right r List.mem_cons_self))

/-- A number does not begin with a blank. -/
theorem not_blank_of_isNumChar {c : Char} (h : isNumChar c = true) : c ∉ [' ', '\t', '\r', '\n'] := by
  intro hmem
  have hblanks : ∀ x ∈ [' ', '\t', '\r', '\n'], isNumChar x = false := by decide
  rw [hblanks c hmem] at h
  cases h

/-- A number is the first token of a text that goes on with another character. -/
theorem NumText.exprTokensFrom_append (h : NumText t)
    (hs : ∀ d ∈ s.head?, d.toNat < 128 ∧ isNumChar d = false) (n : ℕ) :
    exprTokensFrom U (n + 1) (t ++ s) = ⟨.num, t⟩ :: exprTokensFrom U n s := by
  obtain ⟨⟨c, v, rfl, hstart⟩, hchars⟩ := h
  have hfirst := firstToken_number U hstart (fun d hd => hchars d (List.mem_cons_of_mem c hd)) hs
  have hdrop : (c :: (v ++ s)).drop (c :: v).length = s := @List.drop_left _ (c :: v) s
  rw [List.cons_append, exprTokensFrom,
    if_neg (not_blank_of_isNumChar (hchars c List.mem_cons_self))]
  dsimp only
  rw [hfirst]
  exact congrArg (fun rest => _ :: exprTokensFrom U n rest) hdrop

theorem NumText.readable (h : NumText t) : Readable U ⟨.num, t⟩ where
  ink := h.ink
  lexes := by
    obtain ⟨⟨c, v, rfl, hstart⟩, hchars⟩ := h
    refine ⟨c, v, rfl, not_blank_of_isNumChar (hchars c List.mem_cons_self), fun s hs => ?_⟩
    refine firstToken_number U hstart (fun d hd => hchars d (List.mem_cons_of_mem c hd)) ?_
    intro d hd
    rw [hs d hd]
    decide

/-! ### Parsing -/

variable {U}

theorem parseFrom_number (f m : ℕ) (rest : List Token) :
    parseFrom U (f + 2) m (⟨.num, t⟩ :: rest)
      = (numberExpr U t).bind fun e => ledLoop U (f + 1) m e rest := by
  have hnud : nud U (f + 1) (⟨.num, t⟩ :: rest) = (numberExpr U t).bind fun e => some (e, rest) := rfl
  rw [parseFrom, hnud]
  cases numberExpr U t <;> rfl

/-- A number that is not understood makes the whole text none. -/
theorem NumText.parseExpr_of_none (h : NumText t)
    (hs : ∀ d ∈ s.head?, d.toNat < 128 ∧ isNumChar d = false) (hink : ∀ c ∈ s, isInk c = true)
    (hnone : numberExpr U t = none) : parseExpr U (t ++ s) = none := by
  have hne : t ++ s ≠ [] := by
    obtain ⟨c, v, rfl, -⟩ := h.start
    exact List.cons_ne_nil _ _
  have hbare : strip (rstripChar ';' (strip (t ++ s))) = t ++ s := bareStmt_ink hne fun c hc =>
    (List.mem_append.mp hc).elim (h.ink c) (hink c)
  obtain ⟨n, hn⟩ := Nat.exists_eq_succ_of_ne_zero (List.length_pos_of_ne_nil hne).ne'
  rw [parseExpr, hbare, if_neg hne, exprTokens, hn, Nat.succ_eq_add_one,
    h.exprTokensFrom_append U hs]
  dsimp only
  rw [parseFrom_number, hnone]
  rfl

/-- A text of tokens is read as the parser reads the tokens. -/
theorem parseExpr_tokens {l : List Token} (hl : ∀ t ∈ l, Readable U t) (hne : l ≠ []) {e : Expr}
    (h : parseFrom U (4 * l.length + 4) 0 l = some (e, [])) :
    parseExpr U ([' '].intercalate (l.map Token.value)) = some e := by
  obtain ⟨c, s, hhead, hc⟩ := exists_ink_head hl hne
  obtain ⟨r, d, hlast, hd⟩ := exists_ink_last hl hne
  have htokens := exprTokensFrom_intercalate U (fun t ht => (hl t ht).lexes) le_rfl
  rw [hhead] at htokens ⊢
  have hbare : strip (rstripChar ';' (strip (c :: s))) = c :: s :=
    strip_of_ink (hhead.symm.trans hlast) hc hd
  rw [parseExpr, hbare, if_neg (List.cons_ne_nil c s), exprTokens, htokens]
  dsimp only
  rw [h]

/-- A sum of two operands. -/
theorem ledLoop_add {f : ℕ} {left right : Expr} {t : Token}
    (h : parseFrom U f 90 [t] = some (right, [])) :
    ledLoop U (f + 2) 0 left [opToken (lit "+"), t] = some (.bin .add left right, []) := by
  have hled : led U (f + 1) left (opToken (lit "+")) [t] = some (.bin .add left right, []) :=
    @led_bin U f .add left right [t] [] h
  rw [ledLoop, if_neg (by decide), hled]
  rfl

/-- The tree of a number is that of its text, alone and in sums. -/
theorem NumText.parseExpr_of_some (h : NumText t) {e : Expr} (hsome : numberExpr U t = some e)
    (x : Identifier) : parseExpr U t = some e ∧
      parseExpr U (x.text ++ lit " + " ++ t) = some (.bin .add (.name x.text) e) ∧
      parseExpr U (t ++ lit " + " ++ x.text) = some (.bin .add e (.name x.text)) := by
  have hplus : Readable U (opToken (lit "+")) := readable_op U (by decide)
  have hname := readable_name U x
  have hnumber := h.readable U
  have hparse : ∀ f m, parseFrom U (f + 2) m [⟨.num, t⟩] = some (e, []) := by
    intro f m
    rw [parseFrom_number, hsome]
    rfl
  refine ⟨?_, ?_, ?_⟩
  · have hread := parseExpr_tokens (l := [⟨.num, t⟩])
      (fun u hu => List.mem_singleton.mp hu ▸ hnumber) (List.cons_ne_nil _ _) (hparse 6 0)
    simpa using hread
  · have hread := parseExpr_tokens (U := U) (l := [x.token, opToken (lit "+"), ⟨.num, t⟩])
      (e := .bin .add (.name x.text) e) (by simp [hplus, hname, hnumber]) (List.cons_ne_nil _ _)
      (by
        show parseFrom U 16 0 _ = _
        rw [parseFrom, nud_name]
        exact ledLoop_add (hparse 11 90))
    simpa [Identifier.token, opToken, List.intercalate, lit] using hread
  · have hread := parseExpr_tokens (U := U) (l := [⟨.num, t⟩, opToken (lit "+"), x.token])
      (e := .bin .add e (.name x.text)) (by simp [hplus, hname, hnumber]) (List.cons_ne_nil _ _)
      (by
        show parseFrom U 16 0 _ = _
        rw [parseFrom_number, hsome]
        refine ledLoop_add ?_
        rw [parseFrom, nud_name]
        rfl)
    simpa [Identifier.token, opToken, List.intercalate, lit] using hread

end Tokens

/-! ### The number of a token -/

section Numbers

variable (U : CharTable) {base : ℕ} {ds suffix : Text}

/-- The letters that make a number one with floating point. -/
def hasFloatChar (t : Text) : Bool := t.any fun c => c = '.' || c = 'e' || c = 'E'

theorem hasFloatChar_append (s t : Text) :
    hasFloatChar (s ++ t) = (hasFloatChar s || hasFloatChar t) := List.any_append

theorem hasFloatChar_eq_false_iff {t : Text} :
    hasFloatChar t = false ↔ '.' ∉ t ∧ 'e' ∉ t ∧ 'E' ∉ t := by
  rw [hasFloatChar, List.any_eq_false]
  constructor
  · intro h
    exact ⟨fun hc => h _ hc rfl, fun hc => h _ hc rfl, fun hc => h _ hc rfl⟩
  · rintro ⟨hdot, he, hE⟩ c hc hfloat
    rcases Bool.or_eq_true_iff.mp hfloat with hfloat | hfloat
    · rcases Bool.or_eq_true_iff.mp hfloat with hfloat | hfloat
      · exact hdot (of_decide_eq_true hfloat ▸ hc)
      · exact he (of_decide_eq_true hfloat ▸ hc)
    · exact hE (of_decide_eq_true hfloat ▸ hc)

theorem hasFloatChar_suffix (h : suffix ∈ intSuffixes) : hasFloatChar suffix = false := by
  revert suffix
  decide

theorem hasFloatChar_of_isDigit {t : Text} (h : ∀ c ∈ t, c.isDigit = true) :
    hasFloatChar t = false :=
  hasFloatChar_eq_false_iff.mpr ⟨fun hc => absurd (h _ hc) (by decide),
    fun hc => absurd (h _ hc) (by decide), fun hc => absurd (h _ hc) (by decide)⟩

/-- The suffix is dropped. -/
theorem rdropWhile_suffix {t : Text} {c : Char} (hc : c ∉ lit "uUlL") (h : suffix ∈ intSuffixes) :
    (t ++ [c] ++ suffix).rdropWhile (fun c => decide (c ∈ lit "uUlL")) = t ++ [c] := by
  have hsuffix := isNumChar_of_mem_suffix h
  clear h
  induction suffix using List.reverseRecOn with
  | nil =>
    rw [List.append_nil]
    exact List.rdropWhile_concat_neg _ _ _ (by simpa using hc)
  | append_singleton s d ih =>
    have hd : decide (d ∈ lit "uUlL") = true :=
      decide_eq_true (hsuffix d (List.mem_append_right s List.mem_cons_self))
    rw [← List.append_assoc, List.rdropWhile_concat_pos (fun c => decide (c ∈ lit "uUlL")) _ _ hd]
    exact ih fun x hx => hsuffix x (List.mem_append_left _ hx)

/-- The last digit is no suffix. -/
theorem exists_concat_digits (hne : ds ≠ []) (h : DigitsOf base ds) (front : Text) :
    ∃ r c, front ++ ds = r ++ [c] ∧ c ∉ lit "uUlL" := by
  obtain ⟨r, c, rfl⟩ := (List.eq_nil_or_concat ds).resolve_left hne
  rw [List.concat_eq_append] at h ⊢
  obtain ⟨d, hd, -⟩ := h c (List.mem_append_right r List.mem_cons_self)
  refine ⟨front ++ r, c, (List.append_assoc ..).symm, ?_⟩
  exact (by decide : ∀ c ∈ lit "0123456789abcdefABCDEF", c ∉ lit "uUlL") c (digitValue_char hd).2.2

/-- An integer token is read by its digits. -/
theorem numberExpr_int {body : Text} (hsuffix : suffix ∈ intSuffixes)
    (hlast : ∃ r c, body = r ++ [c] ∧ c ∉ lit "uUlL") (hfloat : hasFloatChar body = false) :
    numberExpr U (body ++ suffix) = (match intAnyBase U body with
      | some n => some (n : ℤ)
      | none => if body ≠ [] ∧ body.all U.isDigit then (intBaseTen U body).map fun n => (n : ℤ)
        else some 0).map fun n => .const (.int n) := by
  obtain ⟨r, c, rfl, hc⟩ := hlast
  have hany : (r ++ [c] ++ suffix).any (fun c => c = '.' || c = 'e' || c = 'E') = false := by
    show hasFloatChar _ = false
    rw [hasFloatChar_append, hfloat, hasFloatChar_suffix hsuffix]
    rfl
  rw [numberExpr, hany, if_neg Bool.false_ne_true, intToken]
  simp only [rdropWhile_suffix hc hsuffix] <;> rfl

theorem lt_of_digitsOf (h : DigitsOf base ds) : ∀ c ∈ ds, c.toNat < 128 := by
  intro c hc
  obtain ⟨d, hd, -⟩ := h c hc
  exact (digitValue_char hd).1

/-- Decimal digits. -/
theorem numberExpr_dec (hne : ds ≠ []) (hhead : ds.head? ≠ some '0') (h : DigitsOf 10 ds)
    (hsuffix : suffix ∈ intSuffixes) :
    numberExpr U (ds ++ suffix) = some (.const (.int (digitsValue 10 ds))) := by
  have hany : intAnyBase U ds = some (digitsValue 10 ds) := by
    rw [intAnyBase, asciiDigits_eq U (lt_of_digitsOf h)]
    split
    · exact absurd rfl hhead
    · exact ofDigits_eq hne h
  have hlast : ∃ r c, ds = r ++ [c] ∧ c ∉ lit "uUlL" := exists_concat_digits hne h []
  rw [numberExpr_int U hsuffix hlast (hasFloatChar_of_isDigit (h.isDigit le_rfl)), hany]
  rfl

theorem digitsValue_zero_cons (base : ℕ) (ds : Text) :
    digitsValue base ('0' :: ds) = digitsValue base ds := by
  rw [digitsValue, List.foldl_cons, Nat.zero_mul]
  rfl

theorem intAnyBase_zero_cons {x : Char} (h : ∀ c ∈ '0' :: x :: ds, c.toNat < 128) :
    intAnyBase U ('0' :: x :: ds) = if x = 'x' ∨ x = 'X' then ofDigits 16 ds
      else if x = 'b' ∨ x = 'B' then ofDigits 2 ds
      else (ofDigits 10 (x :: ds)).filter (· = 0) := by
  rw [intAnyBase, asciiDigits_eq U h]
  rfl

/-- Octal digits are read as decimal ones. -/
theorem numberExpr_oct (h : DigitsOf 8 ds) (hsuffix : suffix ∈ intSuffixes) :
    numberExpr U ('0' :: ds ++ suffix) = some (.const (.int (digitsValue 10 ds))) := by
  have hdigits : DigitsOf 10 ('0' :: ds) :=
    List.forall_mem_cons.mpr ⟨⟨0, rfl, by decide⟩, h.mono (by decide)⟩
  have hlast : ∃ r c, '0' :: ds = r ++ [c] ∧ c ∉ lit "uUlL" :=
    exists_concat_digits (List.cons_ne_nil _ _) hdigits []
  rw [numberExpr_int U hsuffix hlast (hasFloatChar_of_isDigit (hdigits.isDigit le_rfl))]
  have hten : intBaseTen U ('0' :: ds) = some (digitsValue 10 ds) := by
    rw [intBaseTen, asciiDigits_eq U (lt_of_digitsOf hdigits),
      ofDigits_eq (List.cons_ne_nil _ _) hdigits, digitsValue_zero_cons]
  cases ds with
  | nil =>
    rw [intAnyBase, asciiDigits_eq U (lt_of_digitsOf hdigits)]
    rfl
  | cons x ds =>
    have hx : x.isDigit = true := h.isDigit (by decide) x List.mem_cons_self
    have hne : ∀ y, y.isDigit = false → x ≠ y := by
      rintro y hy rfl
      rw [hx] at hy
      cases hy
    have hall : ('0' :: x :: ds) ≠ [] ∧ ('0' :: x :: ds).all U.isDigit = true := by
      refine ⟨List.cons_ne_nil _ _, List.all_eq_true.mpr fun c hc => ?_⟩
      rw [U.isDigit_ascii c (lt_of_digitsOf hdigits c hc)]
      exact hdigits.isDigit le_rfl c hc
    rw [intAnyBase_zero_cons U (lt_of_digitsOf hdigits), if_neg (not_or.mpr ⟨hne 'x' (by decide), hne 'X' (by decide)⟩),
      if_neg (not_or.mpr ⟨hne 'b' (by decide), hne 'B' (by decide)⟩),
      ofDigits_eq (List.cons_ne_nil _ _) hdigits.tail, Option.filter_some]
    by_cases hzero : digitsValue 10 (x :: ds) = 0
    · rw [if_pos (decide_eq_true hzero), hzero]
      rfl
    · rw [if_neg (by simpa using hzero)]
      dsimp only
      rw [if_pos hall, hten]
      rfl

/-- Hexadecimal digits without an `e`. -/
theorem numberExpr_hex {x : Char} (hx : x ∈ ['x', 'X']) (hne : ds ≠ []) (h : DigitsOf 16 ds)
    (he : 'e' ∉ ds ∧ 'E' ∉ ds) (hsuffix : suffix ∈ intSuffixes) :
    numberExpr U ('0' :: x :: ds ++ suffix) = some (.const (.int (digitsValue 16 ds))) := by
  have hx' : x = 'x' ∨ x = 'X' := by simpa using hx
  have hlast : ∃ r c, '0' :: x :: ds = r ++ [c] ∧ c ∉ lit "uUlL" :=
    exists_concat_digits hne h ['0', x]
  have hdot : '.' ∉ ds := by
    intro hdot
    obtain ⟨d, hd, -⟩ := h _ hdot
    cases hd
  have hfloat : hasFloatChar ('0' :: x :: ds) = false := by
    refine hasFloatChar_eq_false_iff.mpr ?_
    rcases hx' with rfl | rfl <;> simp [hdot, he.1, he.2]
  have hascii : ∀ c ∈ '0' :: x :: ds, c.toNat < 128 := by
    refine List.forall_mem_cons.mpr ⟨by decide, List.forall_mem_cons.mpr ⟨?_, lt_of_digitsOf h⟩⟩
    rcases hx' with rfl | rfl <;> decide
  rw [numberExpr_int U hsuffix hlast hfloat, intAnyBase_zero_cons U hascii, if_pos hx', ofDigits_eq hne h]
  rfl

/-! #### Floating point -/

/-- Digits with a point, or without one. -/
def mantissaPattern : Pattern :=
  .alt (.seq (digitsPattern U) (.opt (.seq (.one '.') (.opt (digitsPattern U)))))
    (.seq (.one '.') (digitsPattern U))

/-- An exponent without a sign. -/
def exponentPattern : Pattern :=
  .seq (.char fun c => c = 'e' || c = 'E') (digitsPattern U)

theorem isFloatToken_iff {t : Text} : isFloatToken U t = true ↔
    Pattern.Reads (.seq (mantissaPattern U) (.opt (exponentPattern U))) t :=
  Pattern.isSome_fullMatch_iff rfl

theorem reads_digits (hne : ds ≠ []) (h : ∀ c ∈ ds, U.isDecimal c = true) :
    Pattern.Reads (digitsPattern U) ds := by
  have hstar : ∀ t : Text, (∀ c ∈ t, U.isDecimal c = true) →
      Pattern.Reads (.star (.char U.isDecimal)) t := by
    intro t
    induction t with
    | nil => exact fun _ => .done
    | cons c t ih =>
      intro ht
      have hrest := ih fun d hd => ht d (List.mem_cons_of_mem c hd)
      exact .more (s := [c]) (.char (ht c List.mem_cons_self)) hrest
  obtain ⟨c, s, rfl⟩ := List.exists_cons_of_ne_nil hne
  exact .seq (s := [c]) (.char (h c List.mem_cons_self))
    (hstar s fun d hd => h d (List.mem_cons_of_mem c hd))

theorem isDecimal_of_reads {t : Text} (h : Pattern.Reads (digitsPattern U) t) :
    t ≠ [] ∧ ∀ c ∈ t, U.isDecimal c = true := by
  cases h with
  | seq hp hq =>
    cases hp with
    | char hc => exact ⟨List.cons_ne_nil _ _, List.forall_mem_cons.mpr ⟨hc, hq.forall_of_star_char⟩⟩

theorem isDecimal_eq_false {c : Char} (hlt : c.toNat < 128) (hc : c.isDigit = false) :
    U.isDecimal c = false := (U.isDecimal_ascii c hlt).trans hc

/-- A character that is none of a floating point number. -/
theorem isFloatToken_of_mem {t : Text} {x : Char} (hx : x ∈ ['x', 'X', 'f', 'F']) (h : x ∈ t) :
    isFloatToken U t = false := by
  have havoids : Pattern.avoids x (.seq (mantissaPattern U) (.opt (exponentPattern U))) = true := by
    have hdecimal : U.isDecimal x = false := by
      have hall : ∀ x ∈ ['x', 'X', 'f', 'F'], x.toNat < 128 ∧ x.isDigit = false := by decide
      exact isDecimal_eq_false U (hall x hx).1 (hall x hx).2
    have hdigits : (digitsPattern U).avoids x = true := by
      simp [digitsPattern, Pattern.plus, Pattern.avoids, hdecimal]
    have hne : x ≠ '.' ∧ x ≠ 'e' ∧ x ≠ 'E' :=
      (by decide : ∀ x ∈ ['x', 'X', 'f', 'F'], x ≠ '.' ∧ x ≠ 'e' ∧ x ≠ 'E') x hx
    simp [mantissaPattern, exponentPattern, Pattern.opt, Pattern.one, Pattern.avoids, hdigits, hne]
  rw [← Bool.not_eq_true, isFloatToken_iff]
  exact fun hreads => hreads.notMem havoids h

/-- An exponent without digits. -/
theorem isFloatToken_concat {t : Text} {e : Char} (he : e ∈ ['e', 'E']) :
    isFloatToken U (t ++ [e]) = false := by
  have hdecimal : U.isDecimal e = false := by
    have hall : ∀ e ∈ ['e', 'E'], e.toNat < 128 ∧ e.isDigit = false := by decide
    exact isDecimal_eq_false U (hall e he).1 (hall e he).2
  have hmantissa : (mantissaPattern U).avoids e = true := by
    have hdot : e ≠ '.' := by
      rintro rfl
      exact absurd he (by decide)
    simp [mantissaPattern, digitsPattern, Pattern.plus, Pattern.opt, Pattern.one, Pattern.avoids,
      hdecimal, hdot]
  rw [← Bool.not_eq_true, isFloatToken_iff]
  intro h
  generalize hu : t ++ [e] = u at h
  cases h with
  | @seq _ _ s v hp hq =>
    have hlast : e ∈ s ++ v := hu ▸ List.mem_append_right t List.mem_cons_self
    cases hq with
    | left hq =>
      cases hq with
      | @seq _ _ s' v' hletter hdigits =>
        obtain ⟨hne, hall⟩ := isDecimal_of_reads U hdigits
        obtain ⟨r, d, rfl⟩ := (List.eq_nil_or_concat v').resolve_left hne
        have hend := congrArg List.getLast? hu
        rw [List.getLast?_concat, List.concat_eq_append, ← List.append_assoc, ← List.append_assoc,
          List.getLast?_concat] at hend
        obtain rfl := Option.some.inj hend
        have hd := hall e (by simp)
        rw [hdecimal] at hd
        cases hd
    | right hq =>
      cases hq
      rw [List.append_nil] at hlast
      exact hp.notMem hmantissa hlast

/-- A hexadecimal number with an `e` is taken for one with floating point. -/
theorem numberExpr_hex_of_mem {x : Char} (hx : x ∈ ['x', 'X']) (he : 'e' ∈ ds ∨ 'E' ∈ ds) :
    numberExpr U ('0' :: x :: ds ++ suffix) = none := by
  have hfloat : hasFloatChar ('0' :: x :: ds ++ suffix) = true := by
    rw [← Bool.not_eq_false, hasFloatChar_eq_false_iff]
    rintro ⟨-, hlower, hupper⟩
    rcases he with he | he
    · exact hlower (by simp [he])
    · exact hupper (by simp [he])
  have htoken : isFloatToken U ('0' :: x :: ds ++ suffix) = false :=
    isFloatToken_of_mem U (x := x)
      ((by decide : ∀ x ∈ ['x', 'X'], x ∈ ['x', 'X', 'f', 'F']) x hx) (by simp)
  have hany : ('0' :: x :: ds ++ suffix).any (fun c => c = '.' || c = 'e' || c = 'E') = true := hfloat
  rw [numberExpr, hany, if_pos rfl, htoken]
  rfl

section Float

open NumLiteral

variable {whole : Text} {places : Option Text}

/-- The digits of a floating point number. -/
def FloatDigits (whole : Text) (places : Option Text) : Prop :=
  DigitsOf 10 whole ∧ DigitsOf 10 (places.getD []) ∧ whole ++ places.getD [] ≠ []

theorem isDecimal_of_digitsOf (h : DigitsOf 10 ds) : ∀ c ∈ ds, U.isDecimal c = true := fun c hc =>
  (U.isDecimal_ascii c (lt_of_digitsOf h c hc)).trans (h.isDigit le_rfl c hc)

theorem FloatDigits.isNumChar (h : FloatDigits whole places) :
    ∀ c ∈ mantissa whole places, isNumChar c = true := by
  intro c hc
  rcases List.mem_append.mp hc with hc | hc
  · exact h.1.isNumChar c hc
  · cases places with
    | none => cases hc
    | some p =>
      rcases List.mem_cons.mp hc with rfl | hc
      · decide
      · exact h.2.1.isNumChar c hc

theorem FloatDigits.numText (h : FloatDigits whole places) {t : Text}
    (ht : ∀ c ∈ t, Csc512.isNumChar c = true) : NumText (mantissa whole places ++ t) where
  start := by
    cases whole with
    | cons c w => exact ⟨c, _, rfl, .inl (h.1.isDigit le_rfl c List.mem_cons_self)⟩
    | nil =>
      cases places with
      | none => exact absurd rfl h.2.2
      | some p =>
        obtain ⟨d, p, rfl⟩ := List.exists_cons_of_ne_nil (show p ≠ [] from h.2.2)
        exact ⟨'.', d :: (p ++ t), rfl, .inr ⟨rfl, h.2.1.isDigit le_rfl d List.mem_cons_self⟩⟩
  chars := fun c hc => (List.mem_append.mp hc).elim (h.isNumChar c) (ht c)

theorem FloatDigits.reads (h : FloatDigits whole places) :
    Pattern.Reads (mantissaPattern U) (mantissa whole places) := by
  by_cases hwhole : whole = []
  · subst hwhole
    cases places with
    | none => exact absurd rfl h.2.2
    | some p =>
      exact .right (.seq (s := ['.']) (.char rfl)
        (reads_digits U h.2.2 (isDecimal_of_digitsOf U h.2.1)))
  · refine .left (.seq (reads_digits U hwhole (isDecimal_of_digitsOf U h.1)) ?_)
    cases places with
    | none => exact .right .empty
    | some p =>
      refine .left (.seq (s := ['.']) (.char rfl) ?_)
      by_cases hp : p = []
      · rw [hp]
        exact .right .empty
      · exact .left (reads_digits U hp (isDecimal_of_digitsOf U h.2.1))

/-- The text of an exponent without a sign. -/
def plainExponent (exponent : Option Exponent) : Text :=
  exponent.elim [] fun e => e.letter :: e.digits

theorem isFloatToken_float (h : FloatDigits whole places) {exponent : Option Exponent}
    (he : ∀ e ∈ exponent, e.Valid) :
    isFloatToken U (mantissa whole places ++ plainExponent exponent) = true := by
  rw [isFloatToken_iff]
  refine .seq (h.reads U) ?_
  cases exponent with
  | none => exact .right .empty
  | some e =>
    obtain ⟨hletter, -, hne, hdigits⟩ := he e rfl
    have hchar : (fun c => decide (c = 'e') || decide (c = 'E')) e.letter = true := by
      simpa using hletter
    exact .left (.seq (s := [e.letter]) (.char hchar)
      (reads_digits U hne (isDecimal_of_digitsOf U hdigits)))

theorem hasFloatChar_float {exponent : Option Exponent} (he : ∀ e ∈ exponent, e.Valid)
    (hpoint : places.isSome ∨ exponent.isSome) :
    hasFloatChar (mantissa whole places ++ plainExponent exponent) = true := by
  rw [← Bool.not_eq_false, hasFloatChar_eq_false_iff]
  rintro ⟨hdot, hlower, hupper⟩
  rcases hpoint with hsome | hsome
  · obtain ⟨p, rfl⟩ := Option.isSome_iff_exists.mp hsome
    exact hdot (by simp [mantissa])
  · obtain ⟨e, rfl⟩ := Option.isSome_iff_exists.mp hsome
    obtain ⟨hletter, -⟩ := he e rfl
    rcases (by simpa using hletter : e.letter = 'e' ∨ e.letter = 'E') with hletter | hletter
    · exact hlower (by simp [plainExponent, hletter])
    · exact hupper (by simp [plainExponent, hletter])

/-- A number with floating point that is written as C does is kept. -/
theorem numberExpr_float (h : FloatDigits whole places) {exponent : Option Exponent}
    (he : ∀ e ∈ exponent, e.Valid) (hpoint : places.isSome ∨ exponent.isSome) :
    numberExpr U (mantissa whole places ++ plainExponent exponent)
      = some (.const (.float (mantissa whole places ++ plainExponent exponent))) := by
  have hany : (mantissa whole places ++ plainExponent exponent).any
      (fun c => c = '.' || c = 'e' || c = 'E') = true := hasFloatChar_float he hpoint
  rw [numberExpr, hany, if_pos rfl, isFloatToken_float U h he, if_pos rfl]

/-- A token that is no floating point number makes none. -/
theorem numberExpr_none {t : Text} (hfloat : hasFloatChar t = true)
    (htoken : isFloatToken U t = false) : numberExpr U t = none := by
  have hany : t.any (fun c => c = '.' || c = 'e' || c = 'E') = true := hfloat
  rw [numberExpr, hany, if_pos rfl, htoken]
  rfl

theorem dropUnderscores_digits (hne : ds ≠ []) (h : DigitsOf 10 ds) :
    dropUnderscores ds = some ds := by
  have hsplit : ds.splitOn '_' = [ds] := by
    refine List.splitOnP_eq_singleton fun c hc => ?_
    have hdigit := h.isDigit le_rfl c hc
    have hunder : c ≠ '_' := by
      rintro rfl
      cases hdigit
    simpa using hunder
  have hempty : ds.isEmpty = false := List.isEmpty_eq_false_iff.mpr hne
  rw [dropUnderscores, hsplit]
  simp [hempty]

theorem intBaseTen_digits (hne : ds ≠ []) (h : DigitsOf 10 ds) :
    intBaseTen U ds = some (digitsValue 10 ds) := by
  rw [intBaseTen, asciiDigits_eq U (lt_of_digitsOf h), ofDigits_eq hne h]

theorem splitSign_cons {c : Char} (hc : Csc512.isNumChar c = true) (s : Text) :
    splitSign (c :: s) = (false, c :: s) := by
  rw [splitSign]
  · rintro s' heq
    rw [(List.cons.inj heq).1] at hc
    cases hc
  · rintro s' heq
    rw [(List.cons.inj heq).1] at hc
    cases hc

theorem decimalInt_digits (hne : ds ≠ []) (h : DigitsOf 10 ds) :
    decimalInt U ds = some (digitsValue 10 ds : ℤ) := by
  have hstrip : strip ds = ds := by
    refine (trimmed_of_isInk hne fun c hc => ?_).strip_eq
    exact isInk_of_isAlphanum (isAlphanum_of_isDigit (h.isDigit le_rfl c hc))
  have hsign : splitSign ds = (false, ds) := by
    obtain ⟨c, s, rfl⟩ := List.exists_cons_of_ne_nil hne
    exact splitSign_cons (h.isNumChar c List.mem_cons_self) s
  rw [decimalInt, hstrip, hsign]
  dsimp only
  rw [dropUnderscores_digits hne h, Option.bind_some, intBaseTen_digits U hne h]
  rfl

/-- The characters of an exponent. -/
def isExpChar (c : Char) : Bool := c = 'e' || c = 'E'

theorem isExpChar_mantissa (h : FloatDigits whole places) :
    ∀ c ∈ mantissa whole places, isExpChar c = false := by
  have hdigit : ∀ c : Char, c.isDigit = true → isExpChar c = false := by
    intro c hc
    by_contra hexp
    rcases Bool.or_eq_true_iff.mp (Bool.eq_true_of_not_eq_false hexp) with heq | heq
    · exact absurd (of_decide_eq_true heq ▸ hc) (by decide)
    · exact absurd (of_decide_eq_true heq ▸ hc) (by decide)
  intro c hc
  rcases List.mem_append.mp hc with hc | hc
  · exact hdigit c (h.1.isDigit le_rfl c hc)
  · cases places with
    | none => cases hc
    | some p =>
      rcases List.mem_cons.mp hc with rfl | hc
      · rfl
      · exact hdigit c (h.2.1.isDigit le_rfl c hc)

/-- The parts of a mantissa. -/
theorem parts_mantissa (h : FloatDigits whole places) :
    (mantissa whole places).takeWhile (· ≠ '.') = whole ∧
      ((mantissa whole places).dropWhile (· ≠ '.')).drop 1 = places.getD [] := by
  have hwhole : ∀ c ∈ whole, decide (c ≠ '.') = true := by
    intro c hc
    rw [decide_eq_true_iff]
    rintro rfl
    exact absurd (h.1.isDigit le_rfl _ hc) (by decide)
  rw [mantissa, List.takeWhile_append_of_pos hwhole, List.dropWhile_append_of_pos hwhole]
  cases places with
  | none => exact ⟨List.append_nil _, rfl⟩
  | some p => exact ⟨List.append_nil _, rfl⟩

/-- The mantissa and the exponent of a text. -/
theorem parts_float (h : FloatDigits whole places) {exponent : Option Exponent}
    (he : ∀ e ∈ exponent, e.Valid) :
    (mantissa whole places ++ plainExponent exponent).takeWhile (fun c => !isExpChar c)
        = mantissa whole places ∧
      (mantissa whole places ++ plainExponent exponent).any isExpChar = exponent.isSome ∧
      (mantissa whole places ++ plainExponent exponent).drop
          ((mantissa whole places).length + 1) = exponent.elim [] Exponent.digits := by
  have hmantissa : ∀ c ∈ mantissa whole places, (!isExpChar c) = true := fun c hc => by
    rw [isExpChar_mantissa h c hc]
    rfl
  have hany : (mantissa whole places).any isExpChar = false := List.any_eq_false.mpr fun c hc => by
    rw [isExpChar_mantissa h c hc]
    exact Bool.false_ne_true
  rw [List.takeWhile_append_of_pos hmantissa, List.any_append, hany, Bool.false_or, List.drop_append,
    List.drop_eq_nil_of_le (Nat.le_succ _), Nat.add_sub_cancel_left, List.nil_append]
  cases exponent with
  | none => exact ⟨List.append_nil _, rfl, rfl⟩
  | some e =>
    obtain ⟨hletter, -⟩ := he e rfl
    have hexp : isExpChar e.letter = true := by simpa [isExpChar] using hletter
    refine ⟨?_, ?_, rfl⟩
    · show _ ++ (e.letter :: e.digits).takeWhile _ = _
      rw [List.takeWhile_cons_of_neg (by simp [hexp]), List.append_nil]
    · show (e.letter :: e.digits).any isExpChar = true
      rw [List.any_cons, hexp, Bool.true_or]

theorem isNumChar_plainExponent {exponent : Option Exponent} (he : ∀ e ∈ exponent, e.Valid) :
    ∀ c ∈ plainExponent exponent, isNumChar c = true := by
  cases exponent with
  | none => exact fun _ hc => nomatch hc
  | some e =>
    obtain ⟨hletter, -, -, hdigits⟩ := he e rfl
    have hletters : ∀ c ∈ ['e', 'E'], isNumChar c = true := by decide
    exact List.forall_mem_cons.mpr ⟨hletters e.letter hletter, hdigits.isNumChar⟩

/-- **The number of a text with floating point.** -/
theorem floatOfText_float (h : FloatDigits whole places) {exponent : Option Exponent}
    (he : ∀ e ∈ exponent, e.Valid) (hsign : ∀ e ∈ exponent, e.sign = none) :
    floatOfText U (mantissa whole places ++ plainExponent exponent)
      = some (Double.round ((digitsValue 10 (whole ++ places.getD []) : ℚ) *
        powTen (exponent.elim 0 Exponent.value - (places.getD []).length))) := by
  have hnum := h.numText (isNumChar_plainExponent he)
  obtain ⟨hmantissa, hany, hdrop⟩ := parts_float h he
  obtain ⟨hwhole, hplaces⟩ := parts_mantissa h
  generalize htext : mantissa whole places ++ plainExponent exponent = t at *
  obtain ⟨c, v, rfl, hstart⟩ := hnum.start
  have hstrip : strip (c :: v) = c :: v :=
    (trimmed_of_isInk (List.cons_ne_nil c v) hnum.ink).strip_eq
  have hsplit := splitSign_cons (hnum.chars c List.mem_cons_self) v
  have hlower : c.toLower = c ∧ c ≠ 'i' ∧ c ≠ 'n' := by
    rcases hstart with hc | ⟨rfl, -⟩
    · refine ⟨toLower_of_not_isUpper fun hupper => ?_, ?_, ?_⟩
      · have hdigit := not_isDigit_of_isAlpha (c := c) (isAlpha_iff.mpr (.inl hupper))
        rw [hc] at hdigit
        cases hdigit
      · rintro rfl
        cases hc
      · rintro rfl
        cases hc
    · decide
  have hname : ∀ (d : Char) (s : Text), c ≠ d → (c :: v).map Char.toLower ≠ d :: s := by
    intro d s hne heq
    exact hne (hlower.1.symm.trans (List.cons.inj heq).1)
  rw [floatOfText, hstrip, hsplit]
  dsimp only
  have hinf : (c :: v).map Char.toLower ≠ lit "inf" := hname 'i' _ hlower.2.1
  have hinfinity : (c :: v).map Char.toLower ≠ lit "infinity" := hname 'i' _ hlower.2.1
  have hnan : (c :: v).map Char.toLower ≠ lit "nan" := hname 'n' _ hlower.2.2
  have hdigits : ∀ t : Text, DigitsOf 10 t → (if t = [] then some []
      else (dropUnderscores t).filter fun t => t.all U.isDecimal) = some t := by
    intro t ht
    split_ifs with hnil
    · rw [hnil]
    · rw [dropUnderscores_digits hnil ht]
      exact if_pos (List.all_eq_true.mpr (isDecimal_of_digitsOf U ht))
  have hexponent : (if exponent.isSome = true then decimalInt U (exponent.elim [] Exponent.digits)
      else some 0) = some (exponent.elim 0 Exponent.value) := by
    cases exponent with
    | none => rfl
    | some e =>
      obtain ⟨-, -, hne, hdigits⟩ := he e rfl
      have hvalue : e.value = (digitsValue 10 e.digits : ℤ) := by
        rw [Exponent.value, hsign e rfl]
        exact if_neg nofun
      exact (decimalInt_digits U hne hdigits).trans (congrArg some hvalue.symm)
  have hmantissa' : (c :: v).takeWhile (fun c => !(decide (c = 'e') || decide (c = 'E')))
      = mantissa whole places := hmantissa
  have hany' : ((c :: v).any fun c => decide (c = 'e') || decide (c = 'E')) = exponent.isSome := hany
  rw [if_neg (not_or.mpr ⟨hinf, hinfinity⟩), if_neg hnan, hmantissa', hany', hwhole, hplaces, hdrop,
    hdigits whole h.1, hdigits _ h.2.1, hexponent]
  dsimp only [Option.bind_some]
  rw [intBaseTen_digits U h.2.2 (h.1.append h.2.1)]
  rfl

end Float

end Numbers

/-! ### Octal digits -/

section Octal

variable {ds : Text}

theorem digitsValue_concat (base : ℕ) (ds : Text) (c : Char) :
    digitsValue base (ds ++ [c]) = digitsValue base ds * base + (digitValue c).getD 0 := by
  rw [digitsValue, List.foldl_append]
  rfl

/-- Digits are worth more in base ten, unless all of them are zero. -/
theorem digitsValue_le (ds : Text) : digitsValue 8 ds ≤ digitsValue 10 ds ∧
    (digitsValue 8 ds = 0 ↔ digitsValue 10 ds = 0) := by
  induction ds using List.reverseRecOn with
  | nil => exact ⟨Nat.le_refl _, Iff.rfl⟩
  | append_singleton ds c ih =>
    rw [digitsValue_concat, digitsValue_concat]
    omega

/-- Octal digits are worth the same in base ten, if there is only one that is not zero, the last. -/
theorem digitsValue_eq_iff (h : DigitsOf 8 ds) :
    digitsValue 10 ds = digitsValue 8 ds ↔ digitsValue 8 ds < 8 := by
  rcases List.eq_nil_or_concat ds with rfl | ⟨ds, c, rfl⟩
  · decide
  · rw [List.concat_eq_append] at h ⊢
    obtain ⟨d, hd, hlt⟩ := h c (List.mem_append_right ds List.mem_cons_self)
    obtain ⟨hle, hzero⟩ := digitsValue_le ds
    rw [digitsValue_concat, digitsValue_concat, hd, Option.getD_some]
    omega

end Octal

/-! ### When a literal is read -/

namespace NumLiteral

variable {U : CharTable} {x : Identifier} {l : NumLiteral}

theorem readsAs_of_some (hnum : NumText l.text) {k : Const}
    (hsome : numberExpr U l.text = some (.const k)) (hvalue : ∀ s, constValue U k s = (.ok l.value, s)) :
    l.ReadsAs U x :=
  ⟨k, hvalue, hnum.parseExpr_of_some hsome x⟩

theorem not_readsAs_of_none (h : parseExpr U l.text = none) : ¬ l.ReadsAs U x := by
  rintro ⟨k, -, hparse, -⟩
  rw [h] at hparse
  cases hparse

theorem numText_of_isDigit {c : Char} {t : Text} (hc : c.isDigit = true)
    (h : ∀ d ∈ t, isNumChar d = true) : NumText (c :: t) where
  start := ⟨c, t, rfl, .inl hc⟩
  chars := List.forall_mem_cons.mpr ⟨by rw [isNumChar, hc, Bool.true_or], h⟩

theorem isNumChar_append_suffix {t suffix : Text} (h : ∀ c ∈ t, isNumChar c = true)
    (hsuffix : suffix ∈ intSuffixes) : ∀ c ∈ t ++ suffix, isNumChar c = true := by
  have hletters : ∀ c ∈ lit "uUlL", isNumChar c = true := by decide
  exact fun c hc => (List.mem_append.mp hc).elim (h c) fun hc =>
    hletters c (isNumChar_of_mem_suffix hsuffix c hc)

/-- A number with floating point that has a sign in its exponent, or a suffix, is not read. -/
theorem parseExpr_float_of_not {whole suffix : Text} {places : Option Text}
    {exponent : Option Exponent} (h : (float whole places exponent suffix).Valid)
    (hnot : ¬ (suffix = [] ∧ ∀ e ∈ exponent, e.sign = none)) :
    parseExpr U (float whole places exponent suffix).text = none := by
  obtain ⟨hdigits, hpoint, he, hsuffix⟩ := h
  have hdigits : FloatDigits whole places := hdigits
  have hsuffixes : ∀ t ∈ [[], ['f'], ['F']], ∀ c ∈ t, isNumChar c = true ∧ isInk c = true ∧
      c ∈ ['x', 'X', 'f', 'F'] := by decide
  have hplain : (∀ e ∈ exponent, e.sign = none) →
      parseExpr U (float whole places exponent suffix).text = none := by
    intro hsign
    have hne : suffix ≠ [] := fun hnil => hnot ⟨hnil, hsign⟩
    obtain ⟨c, t, rfl⟩ := List.exists_cons_of_ne_nil hne
    have htext : (float whole places exponent (c :: t)).text
        = mantissa whole places ++ (plainExponent exponent ++ c :: t) := by
      rw [text, List.append_assoc]
      cases exponent with
      | none => rfl
      | some e => simp [plainExponent, Exponent.tail, hsign e rfl]
    have hnum : NumText (mantissa whole places ++ (plainExponent exponent ++ c :: t)) :=
      hdigits.numText fun d hd => (List.mem_append.mp hd).elim (isNumChar_plainExponent he d)
        fun hd => (hsuffixes _ hsuffix d hd).1
    have hnone : numberExpr U (mantissa whole places ++ (plainExponent exponent ++ c :: t)) = none := by
      refine numberExpr_none U ?_ (isFloatToken_of_mem U
        (hsuffixes _ hsuffix c List.mem_cons_self).2.2 (by simp))
      rw [← List.append_assoc, hasFloatChar_append, hasFloatChar_float he hpoint]
      rfl
    have hparse := hnum.parseExpr_of_none (U := U) (s := []) (by simp) (by simp) hnone
    rwa [List.append_nil, ← htext] at hparse
  cases exponent with
  | none => exact hplain nofun
  | some e =>
    cases hsign : e.sign with
    | none => exact hplain fun e' he' => by rwa [← Option.some.inj he']
    | some sg =>
      obtain ⟨hletter, hsg, hne, hexp⟩ := he e rfl
      have hsg' := hsg sg hsign
      have hletters : ∀ c ∈ ['e', 'E'], isNumChar c = true ∧ hasFloatChar [c] = true := by decide
      have hnum : NumText (mantissa whole places ++ [e.letter]) :=
        hdigits.numText (List.forall_mem_singleton.mpr (hletters e.letter hletter).1)
      have htext : (float whole places (some e) suffix).text
          = mantissa whole places ++ [e.letter] ++ sg :: (e.digits ++ suffix) := by
        rw [text, Option.elim, Exponent.tail, hsign]
        simp
      have hfloat : hasFloatChar (mantissa whole places ++ [e.letter]) = true := by
        rw [hasFloatChar_append, (hletters e.letter hletter).2, Bool.or_true]
      rw [htext]
      refine hnum.parseExpr_of_none ?_ (List.forall_mem_cons.mpr ⟨?_, fun c hc => ?_⟩)
        (numberExpr_none U hfloat (isFloatToken_concat U hletter))
      · rintro d ⟨⟩
        rcases hsg' with rfl | rfl <;> decide
      · rcases hsg' with rfl | rfl <;> decide
      · rcases List.mem_append.mp hc with hc | hc
        · exact isInk_of_isNumChar (hexp.isNumChar c hc)
        · exact (hsuffixes _ hsuffix c hc).2.1

/-- **A literal is read as what it writes**, alone and in sums, if it is understood; and not
otherwise. -/
theorem readsAs_iff (U : CharTable) (x : Identifier) (h : l.Valid) :
    l.ReadsAs U x ↔ l.Understood := by
  cases l with
  | dec ds suffix =>
    obtain ⟨hne, hhead, hdigits, hsuffix⟩ := h
    refine iff_of_true ?_ trivial
    obtain ⟨c, ds, rfl⟩ := List.exists_cons_of_ne_nil hne
    refine readsAs_of_some (numText_of_isDigit (hdigits.isDigit le_rfl c List.mem_cons_self)
      (isNumChar_append_suffix hdigits.tail.isNumChar hsuffix))
      (numberExpr_dec U hne hhead hdigits hsuffix) fun s => rfl
  | oct ds suffix =>
    obtain ⟨hdigits, hsuffix⟩ := h
    have hnum : NumText (oct ds suffix).text := numText_of_isDigit (by decide)
      (isNumChar_append_suffix hdigits.isNumChar hsuffix)
    have hsome := numberExpr_oct U hdigits hsuffix
    rw [Understood, ← digitsValue_eq_iff hdigits]
    constructor
    · rintro ⟨k, hvalue, hparse, -⟩
      rw [(hnum.parseExpr_of_some hsome x).1] at hparse
      cases hparse
      have hint := congrArg Prod.fst (hvalue {})
      simpa [constValue, value] using hint
    · intro heq
      refine readsAs_of_some hnum hsome fun s => ?_
      rw [heq]
      rfl
  | hex y ds suffix =>
    obtain ⟨hy, hne, hdigits, hsuffix⟩ := h
    have hchar : ∀ y ∈ ['x', 'X'], isNumChar y = true := by decide
    have hnum : NumText (hex y ds suffix).text := numText_of_isDigit (by decide)
      (isNumChar_append_suffix (List.forall_mem_cons.mpr ⟨hchar y hy, hdigits.isNumChar⟩) hsuffix)
    by_cases he : 'e' ∉ ds ∧ 'E' ∉ ds
    · exact iff_of_true (readsAs_of_some hnum (numberExpr_hex U hy hne hdigits he hsuffix)
        fun s => rfl) he
    · have hmem : 'e' ∈ ds ∨ 'E' ∈ ds := by tauto
      have hnone := hnum.parseExpr_of_none (U := U) (s := []) (by simp) (by simp)
        (numberExpr_hex_of_mem U hy hmem)
      rw [List.append_nil] at hnone
      exact iff_of_false (not_readsAs_of_none hnone) he
  | float whole places exponent suffix =>
    by_cases hu : suffix = [] ∧ ∀ e ∈ exponent, e.sign = none
    · refine iff_of_true ?_ hu
      obtain ⟨hdigits, hpoint, he, -⟩ := h
      have hdigits : FloatDigits whole places := hdigits
      have htext : (float whole places exponent suffix).text
          = mantissa whole places ++ plainExponent exponent := by
        rw [text, hu.1, List.append_nil]
        cases exponent with
        | none => rfl
        | some e => simp [plainExponent, Exponent.tail, hu.2 e rfl]
      have hsome : numberExpr U (float whole places exponent suffix).text
          = some (.const (.float (float whole places exponent suffix).text)) := by
        rw [htext]
        exact numberExpr_float U hdigits he hpoint
      refine readsAs_of_some (htext ▸ hdigits.numText (isNumChar_plainExponent he)) hsome fun s => ?_
      rw [constValue, htext, floatOfText_float U hdigits he hu.2]
      rfl
    · exact iff_of_false (not_readsAs_of_none (parseExpr_float_of_not h hu)) hu

end NumLiteral

/-- `0x1F` is read as thirty-one. -/
theorem readsAs_sample : (NumLiteral.hex 'x' ['1', 'F'] []).ReadsAs .ascii letterX := by
  have hdigits : DigitsOf 16 ['1', 'F'] := by
    refine List.forall_mem_cons.mpr ⟨⟨1, by decide, by decide⟩, List.forall_mem_singleton.mpr ?_⟩
    exact ⟨15, by decide, by decide⟩
  have hvalid : (NumLiteral.hex 'x' ['1', 'F'] []).Valid :=
    And.intro (by decide) ⟨by decide, hdigits, by decide⟩
  exact (NumLiteral.readsAs_iff .ascii letterX hvalid).mpr (And.intro (by decide) (by decide))

/-- **`010`** is read as ten. -/
theorem not_readsAs : ¬ (NumLiteral.oct ['1', '0'] []).ReadsAs .ascii letterX := by
  have hdigits : DigitsOf 8 ['1', '0'] :=
    List.forall_mem_cons.mpr ⟨⟨1, by decide, by decide⟩, List.forall_mem_singleton.mpr
      ⟨0, by decide, by decide⟩⟩
  have hnum : NumText (NumLiteral.oct ['1', '0'] []).text :=
    NumLiteral.numText_of_isDigit (by decide) (by decide)
  have hten := (hnum.parseExpr_of_some (numberExpr_oct .ascii hdigits (by decide)) letterX).1
  rintro ⟨k, hvalue, hparse, -⟩
  rw [hten] at hparse
  cases hparse
  cases congrArg Prod.fst (hvalue {})

end Csc512
