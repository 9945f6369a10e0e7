import Csc512.Lib.Pattern

/-!
# Normal forms of statements

The two normal forms in which the clone detector compares statements: `normalizeStmt` collapses
white space and lower-cases, `normalizeStmtType2` keeps the sequence of tokens and abstracts
literals and identifiers.
-/

namespace Csc512

variable (U : CharTable)

/-- Collapse white space and lower-case. -/
def normalizeStmt (stmt : Text) : Text := U.lower (List.intercalate [' '] (words stmt))

/-! ### Tokens -/

/-- `\w`: letters, digits and the underscore. -/
def isWordChar (c : Char) : Bool := U.isAlnum c || c = '_'

/-- `[A-Za-z_]`. -/
def isIdentStart (c : Char) : Bool := c.isAlpha || c = '_'

theorem ascii_of_isIdentStart {c : Char} (h : isIdentStart c = true) : c.toNat < 128 := by
  simp only [isIdentStart, isAlpha_iff, isUpper_iff, isLower_iff, Bool.or_eq_true,
    decide_eq_true_eq] at h
  rcases h with (h | h) | rfl
  · exact Nat.lt_of_le_of_lt h.2 (by decide)
  · exact Nat.lt_of_le_of_lt h.2 (by decide)
  · decide

variable {U} in
theorem isWordChar_of_isIdentStart {c : Char} (h : isIdentStart c = true) :
    isWordChar U c = true := by
  have hascii := ascii_of_isIdentStart h
  have hall : ∀ n < 128, isIdentStart (Char.ofNat n) = true →
      ((Char.ofNat n).isAlphanum || Char.ofNat n = '_') = true := by decide
  have hc := hall c.toNat hascii
  rw [Char.ofNat_toNat] at hc
  rw [isWordChar, U.isAlnum_ascii c hascii]
  exact hc h

/-- `"[^"\\]*(?:\\.[^"\\]*)*"`. -/
def stringPattern : Pattern :=
  let plain := Pattern.char fun c => c ≠ '"' && c ≠ '\\'
  .seqs [.one '"', .star plain,
    .star (.seqs [.one '\\', .char (· ≠ '\n'), .star plain]), .one '"']

/-- `[A-Za-z_]\w*`. -/
def identPattern : Pattern := .seq (.char isIdentStart) (.star (.char (isWordChar U)))

/-- `\d+`. -/
def digitsPattern : Pattern := .plus (.char U.isDecimal)

/-- `\d+\.\d+`. -/
def decimalPattern : Pattern := .seqs [digitsPattern U, .one '.', digitsPattern U]

/-- Strings, identifiers, numbers and single other characters. -/
def tokenPattern : Pattern :=
  .alts [stringPattern, identPattern U, decimalPattern U, digitsPattern U,
    .char fun c => !isSpace c && !isWordChar U c]

/-- The tokens of a statement, in source order. -/
def tokenize (stmt : Text) : List Text := (tokenPattern U).findTexts stmt

/-- The words that the Type II normal form leaves alone. -/
def cKeywords : List Text :=
  ["auto", "break", "case", "char", "const", "continue", "default", "do",
    "double", "else", "enum", "extern", "float", "for", "goto", "if", "inline",
    "int", "long", "register", "restrict", "return", "short", "signed", "sizeof",
    "static", "struct", "switch", "typedef", "union", "unsigned", "void",
    "volatile", "while", "NULL", "true", "false"].map String.toList

/-- The abstraction of one token, with the identifiers seen so far in order of appearance. -/
def abstractToken (identifiers : List Text) (token : Text) : Text × List Text :=
  if token.head? = some '"' then (lit "STR_LIT", identifiers)
  else if ((Pattern.alt (decimalPattern U) (digitsPattern U)).fullMatch token).isSome then
    (lit "NUM_LIT", identifiers)
  else if token ∈ cKeywords then (token, identifiers)
  else if ((identPattern U).fullMatch token).isSome then
    let identifiers := if token ∈ identifiers then identifiers else identifiers ++ [token]
    (lit "VAR_" ++ natText (identifiers.idxOf token), identifiers)
  else (token, identifiers)

/-- The abstractions of the tokens, from the identifiers seen before. -/
def abstractTokens (identifiers : List Text) : List Text → List Text
  | [] => []
  | token :: tokens =>
    let r := abstractToken U identifiers token
    r.1 :: abstractTokens r.2 tokens

/-- String and number literals become `STR_LIT` and `NUM_LIT`, identifiers are numbered. -/
def normalizeStmtType2 (stmt : Text) : Text :=
  List.intercalate [' '] (abstractTokens U [] (tokenize U stmt))

/-! ### Tests -/

example : normalizeStmtType2 .ascii (lit "x1 = f(x1, \"a b\") + 2.50;")
    = lit "VAR_0 = VAR_1 ( VAR_0 , STR_LIT ) + NUM_LIT ;" := by decide +kernel

end Csc512
