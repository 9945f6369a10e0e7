import Csc512.Comments.Extractor

/-!
# Comments and literals

In a language of the C family, a text falls apart into code, literals and comments. The scanner
finds the comments by passing over the literals, but it ends a literal at the next quote, also if
that is escaped; and it takes three quotes and a backtick for the beginning of a literal, whatever
the language. Where this makes no difference, it finds exactly the comments of the text.

## Main results

* `findsComments_of_plain` — the texts in which literals end where the scanner ends them
* `not_findsComments` — an escaped quote, and a comment that is not found
-/

namespace Csc512

namespace Extractor

/-! ### Texts -/

/-- A character of a literal: any but the quote, a backslash and a line break; or any character
behind a backslash. -/
inductive LitChar where
  | plain (c : Char)
  | escaped (c : Char)

/-- How a character of a literal is written. -/
def LitChar.text : LitChar → Text
  | .plain c => [c]
  | .escaped c => ['\\', c]

/-- Can a character be in a literal with these quotes? -/
def LitChar.Ok (quote : Char) : LitChar → Prop
  | .plain c => c ≠ quote ∧ c ≠ '\\' ∧ c ≠ '\n'
  | .escaped _ => True

/-- The pieces of a text. -/
inductive Piece where
  | code (c : Char)
  | literal (quote : Char) (body : List LitChar)
  | block (body : Text)
  | line (body : Text)

/-- How the characters of a literal are written. -/
def litText (body : List LitChar) : Text := body.flatMap LitChar.text

/-- How a piece is written. -/
def Piece.text : Piece → Text
  | .code c => [c]
  | .literal quote body => quote :: (litText body ++ [quote])
  | .block body => lit "/*" ++ body ++ lit "*/"
  | .line body => lit "//" ++ body

theorem Piece.text_ne_nil (p : Piece) : p.text ≠ [] := by
  cases p <;> exact List.cons_ne_nil _ _

/-- A text that falls apart into pieces. -/
def render (ps : List Piece) : Text := ps.flatMap Piece.text

/-- A piece is what it is, given what follows: code begins no literal and no comment, a literal and
a block comment end where they are closed for the first time, and a line comment ends with the line.
-/
def Piece.Ok (next : Text) : Piece → Prop
  | .code c => c ≠ '"' ∧ c ≠ '\'' ∧ (c = '/' → ∀ d ∈ next.head?, d ≠ '/' ∧ d ≠ '*')
  | .literal quote body => (quote = '"' ∨ quote = '\'') ∧ ∀ x ∈ body, x.Ok quote
  | .block body => ¬ lit "*/" <:+: body ++ ['*']
  | .line body => '\n' ∉ body ∧ ∀ d ∈ next.head?, d = '\n'

/-- Every piece is what it is. -/
def Lexed : List Piece → Prop
  | [] => True
  | p :: ps => p.Ok (render ps) ∧ Lexed ps

/-- The comments of a text from a place on. -/
def commentsFrom : Place → List Piece → List Comment
  | _, [] => []
  | p, .block body :: ps =>
    ⟨strip body, p.line, p.column, .block⟩ :: commentsFrom (p.advance (Piece.block body).text) ps
  | p, .line body :: ps =>
    ⟨strip body, p.line, p.column, .line⟩ :: commentsFrom (p.advance (Piece.line body).text) ps
  | p, piece :: ps => commentsFrom (p.advance piece.text) ps

/-- The suffixes of the languages. -/
def cFamily : List Text := [lit ".c", lit ".h", lit ".cpp", lit ".java", lit ".js"]

/-- The comments that are found are the comments of the text. -/
def FindsComments (suffix : Text) (ps : List Piece) : Prop :=
  (findComments suffix (render ps)).map Found.comment = commentsFrom {} ps

/-! ### Literals that the scanner understands -/

/-- The scanner takes a piece for what it is: a literal does not contain its quotes, not even
escaped, and no quote follows an empty literal; and there are no backticks in the code. -/
def Piece.Plain (next : Text) : Piece → Prop
  | .code c => c ≠ '`'
  | .literal quote body => quote ∉ litText body ∧ (body = [] → ∀ d ∈ next.head?, d ≠ quote)
  | .block _ => True
  | .line _ => True

/-- The scanner takes all pieces for what they are. -/
def PlainPieces : List Piece → Prop
  | [] => True
  | p :: ps => p.Plain (render ps) ∧ PlainPieces ps

/-! ### Cutting -/

theorem cut_closed {body : Text} (h : ¬ lit "*/" <:+: body ++ ['*']) (rest : Text) :
    cut (lit "*/") (body ++ (lit "*/" ++ rest)) = some (body, rest) := by
  induction body with
  | nil => simp [cut, lit]
  | cons c body ih =>
    have htail : ¬ lit "*/" <:+: body ++ ['*'] := fun hin => h (List.infix_cons hin)
    have hstart : ¬ (lit "*/").isPrefixOf (c :: (body ++ (lit "*/" ++ rest))) = true := by
      intro hstart
      refine h (List.IsPrefix.isInfix ?_)
      cases body with
      | nil =>
        simp [lit] at hstart
      | cons d body =>
        simpa [lit] using hstart
    rw [List.cons_append, cut, if_neg hstart, ih htail]
    rfl

/-! ### The scanner -/

/-- The tokens of the C family. -/
def slashes : CommentTokens := ⟨[lit "//"], [(lit "/*", lit "*/")]⟩

/-- A character that begins no literal. -/
theorem find?_quoteTokens_eq_none {c : Char} (h : c ≠ '"' ∧ c ≠ '\'' ∧ c ≠ '`') (s : Text) :
    (quoteTokens.find? fun q => startsWith (c :: s) q) = none := by
  obtain ⟨hdouble, hsingle, htick⟩ := h
  simp [quoteTokens, startsWith, lit, List.isPrefixOf, hdouble.symm, hsingle.symm, htick.symm]

theorem startsWith_cons_of_ne {c d : Char} (h : d ≠ c) (s t : Text) :
    startsWith (c :: s) (d :: t) = false := by
  show (d == c && _) = false
  rw [beq_false_of_ne h]
  rfl

theorem startsWith_cons_self (c : Char) (s t : Text) :
    startsWith (c :: s) (c :: t) = startsWith s t := by
  show (c == c && t.isPrefixOf (text s)) = _
  rw [beq_self_eq_true]
  rfl

theorem scanFrom_code {c : Char} {next : Text} (hok : (Piece.code c).Ok next)
    (hplain : (Piece.code c).Plain next) (n : ℕ) (p : Place) :
    scanFrom slashes (n + 1) p (c :: next) = scanFrom slashes n (p.advance [c]) next := by
  obtain ⟨hdouble, hsingle, hslash⟩ := hok
  have hnone : ∀ d, d = '/' ∨ d = '*' → startsWith (c :: next) ['/', d] = false := by
    intro d hd
    by_cases hc : c = '/'
    · subst hc
      cases next with
      | nil => rfl
      | cons e next =>
        obtain ⟨hne, hne'⟩ := hslash rfl e rfl
        rw [startsWith_cons_self]
        rcases hd with rfl | rfl
        · exact startsWith_cons_of_ne (Ne.symm hne) _ _
        · exact startsWith_cons_of_ne (Ne.symm hne') _ _
    · exact startsWith_cons_of_ne (Ne.symm hc) _ _
  have hblock : (slashes.block.find? fun b => startsWith (c :: next) b.1) = none :=
    List.find?_eq_none.mpr (by simpa [slashes, lit] using hnone '*' (.inr rfl))
  have hline : (slashes.line.find? fun t => startsWith (c :: next) t) = none :=
    List.find?_eq_none.mpr (by simpa [slashes, lit] using hnone '/' (.inl rfl))
  rw [scanFrom, find?_quoteTokens_eq_none ⟨hdouble, hsingle, hplain⟩, hblock, hline]

/-- The quotes of a literal that does not look like the beginning of another one. -/
theorem find?_quoteTokens_literal {quote : Char} (hquote : quote = '"' ∨ quote = '\'')
    {s : Text} (hs : ¬ [quote, quote] <+: s) :
    (quoteTokens.find? fun q => startsWith (quote :: s) q) = some [quote] := by
  have hthree : startsWith (quote :: s) [quote, quote, quote] = false := by
    rw [startsWith_cons_self]
    exact Bool.eq_false_iff.mpr fun h => hs (by simpa [startsWith] using h)
  have hone : startsWith (quote :: s) [quote] = true := by
    rw [startsWith_cons_self]
    rfl
  rcases hquote with rfl | rfl
  · rw [quoteTokens, List.find?_cons_of_neg (by simpa [lit] using hthree),
      List.find?_cons_of_neg (by simp [lit, startsWith_cons_of_ne]),
      List.find?_cons_of_pos (by simpa [lit] using hone)]
    rfl
  · rw [quoteTokens, List.find?_cons_of_neg (by simp [lit, startsWith_cons_of_ne]),
      List.find?_cons_of_neg (by simpa [lit] using hthree),
      List.find?_cons_of_neg (by simp [lit, startsWith_cons_of_ne]),
      List.find?_cons_of_pos (by simpa [lit] using hone)]
    rfl

theorem eq_nil_of_litText {body : List LitChar} (h : litText body = []) : body = [] := by
  cases body with
  | nil => rfl
  | cons x body => cases x <;> cases h

theorem scanFrom_literal {quote : Char} {body : List LitChar} {next : Text}
    (hok : (Piece.literal quote body).Ok next) (hplain : (Piece.literal quote body).Plain next)
    (n : ℕ) (p : Place) :
    scanFrom slashes (n + 1) p ((Piece.literal quote body).text ++ next)
      = scanFrom slashes n (p.advance (Piece.literal quote body).text) next := by
  obtain ⟨hquote, -⟩ := hok
  obtain ⟨hbody, hempty⟩ := hplain
  have htext : (Piece.literal quote body).text ++ next
      = quote :: (litText body ++ quote :: next) := by
    simp [Piece.text]
  have hsource : [quote] ++ litText body ++ [quote] = (Piece.literal quote body).text := by
    simp [Piece.text]
  have hthree : ¬ [quote, quote] <+: litText body ++ quote :: next := by
    intro h
    cases hlit : litText body with
    | nil =>
      rw [hlit, List.nil_append, List.cons_prefix_cons] at h
      obtain ⟨rest, rfl⟩ := h.2
      exact hempty (eq_nil_of_litText hlit) quote rfl rfl
    | cons c s =>
      rw [hlit, List.cons_append, List.cons_prefix_cons] at h
      rw [hlit, h.1] at hbody
      exact hbody List.mem_cons_self
  have hcut : cut [quote] ((quote :: (litText body ++ quote :: next)).drop [quote].length)
      = some (litText body, next) := cut_singleton hbody next
  rw [htext, scanFrom, find?_quoteTokens_literal hquote hthree]
  dsimp only
  rw [hcut]
  dsimp only
  rw [hsource]

theorem scanFrom_block {body next : Text} (hok : (Piece.block body).Ok next) (n : ℕ) (p : Place) :
    scanFrom slashes (n + 1) p ((Piece.block body).text ++ next)
      = found p .block body (Piece.block body).text ::
        scanFrom slashes n (p.advance (Piece.block body).text) next := by
  have htext : (Piece.block body).text ++ next
      = '/' :: ('*' :: (body ++ (lit "*/" ++ next))) := by
    simp [Piece.text, lit]
  have hblock : slashes.block.find? (fun b => startsWith
      ('/' :: '*' :: (body ++ (lit "*/" ++ next))) b.1) = some (lit "/*", lit "*/") := rfl
  have hcut : cut (lit "*/") (('/' :: '*' :: (body ++ (lit "*/" ++ next))).drop (lit "/*").length)
      = some (body, next) := cut_closed hok next
  rw [htext, scanFrom, find?_quoteTokens_eq_none (by decide)]
  dsimp only
  rw [hblock]
  dsimp only
  rw [hcut]
  rfl

theorem scanFrom_line_end {body : Text} (hok : (Piece.line body).Ok []) (n : ℕ) (p : Place) :
    scanFrom slashes (n + 1) p (Piece.line body).text
      = [found p .line body (Piece.line body).text] := by
  have hcut : cut ['\n'] ('/' :: '/' :: body) = none := cut_eq_none (by simp [hok.1])
  have hblock : slashes.block.find? (fun b => startsWith ('/' :: '/' :: body) b.1) = none := rfl
  have hline : slashes.line.find? (startsWith ('/' :: '/' :: body)) = some (lit "//") := rfl
  show scanFrom slashes (n + 1) p ('/' :: '/' :: body) = _
  rw [scanFrom, find?_quoteTokens_eq_none (by decide)]
  dsimp only
  rw [hblock]
  dsimp only
  rw [hline]
  dsimp only
  rw [hcut]
  rfl

theorem scanFrom_newline (n : ℕ) (p : Place) (next : Text) :
    scanFrom slashes (n + 1) p ('\n' :: next) = scanFrom slashes n (p.advance ['\n']) next :=
  scanFrom_code ⟨by decide, by decide, fun h => absurd h (by decide)⟩
    (show '\n' ≠ '`' by decide) n p

theorem scanFrom_line {body next : Text} (hok : (Piece.line body).Ok ('\n' :: next)) (n : ℕ)
    (p : Place) : scanFrom slashes (n + 1) p ((Piece.line body).text ++ '\n' :: next)
      = found p .line body (Piece.line body).text ::
        scanFrom slashes (n + 1) (p.advance (Piece.line body).text) ('\n' :: next) := by
  have hcut : cut ['\n'] ('/' :: '/' :: (body ++ '\n' :: next)) = some ('/' :: '/' :: body, next) :=
    cut_singleton (s := '/' :: '/' :: body) (by simp [hok.1]) next
  have hblock : slashes.block.find? (fun b => startsWith
      ('/' :: '/' :: (body ++ '\n' :: next)) b.1) = none := rfl
  have hline : slashes.line.find? (startsWith ('/' :: '/' :: (body ++ '\n' :: next)))
      = some (lit "//") := rfl
  show scanFrom slashes (n + 1) p ('/' :: '/' :: (body ++ '\n' :: next)) = _
  rw [scanFrom, find?_quoteTokens_eq_none (by decide), scanFrom_newline]
  dsimp only
  rw [hblock]
  dsimp only
  rw [hline]
  dsimp only
  rw [hcut]
  rfl

/-- **The scanner finds the comments** of a text whose pieces it takes for what they are. -/
theorem scanFrom_render {ps : List Piece} (hlexed : Lexed ps) (hplain : PlainPieces ps) {n : ℕ}
    (hn : (render ps).length ≤ n) (p : Place) :
    (scanFrom slashes n p (render ps)).map Found.comment = commentsFrom p ps := by
  induction ps generalizing n p with
  | nil => cases n <;> rfl
  | cons piece ps ih =>
    obtain ⟨hok, hlexed⟩ := hlexed
    obtain ⟨hpiece, hplain⟩ := hplain
    have hrender : render (piece :: ps) = piece.text ++ render ps := rfl
    rw [hrender, List.length_append] at hn
    rw [hrender]
    cases piece with
    | code c =>
      rw [show (Piece.code c).text.length = 1 from rfl] at hn
      obtain ⟨n, rfl⟩ := Nat.exists_eq_add_of_le' (by omega : 1 ≤ n)
      exact (congrArg _ (scanFrom_code hok hpiece n p)).trans (ih hlexed hplain (by omega) _)
    | literal quote body =>
      have hpos : 0 < (Piece.literal quote body).text.length := Nat.succ_pos _
      obtain ⟨n, rfl⟩ := Nat.exists_eq_add_of_le' (by omega : 1 ≤ n)
      exact (congrArg _ (scanFrom_literal hok hpiece n p)).trans (ih hlexed hplain (by omega) _)
    | block body =>
      have hpos : 0 < (Piece.block body).text.length := Nat.succ_pos _
      obtain ⟨n, rfl⟩ := Nat.exists_eq_add_of_le' (by omega : 1 ≤ n)
      rw [scanFrom_block hok, List.map_cons, ih hlexed hplain (by omega)]
      rfl
    | line body =>
      have htwo : 2 ≤ (Piece.line body).text.length := by simp [Piece.text, lit]
      obtain ⟨n, rfl⟩ := Nat.exists_eq_add_of_le' (by omega : 1 ≤ n)
      cases hnext : render ps with
      | nil =>
        have hnil : ps = [] := by
          cases ps with
          | nil => rfl
          | cons piece ps => exact absurd (List.append_eq_nil_iff.mp hnext).1 piece.text_ne_nil
        rw [hnext] at hok
        subst hnil
        rw [List.append_nil, scanFrom_line_end hok]
        rfl
      | cons d next =>
        -- a line comment that is not at the end is followed by a line break
        have hd : d = '\n' := hok.2 d (by rw [hnext]; rfl)
        subst hd
        rw [hnext] at hok hn ih
        rw [scanFrom_line hok, List.map_cons, ih hlexed hplain (by omega)]
        rfl

/-- **Comments and literals.** In a text of the C family in which the scanner takes every piece for
what it is, it finds exactly the comments. -/
theorem findsComments_of_plain {suffix : Text} (hsuffix : suffix ∈ cFamily) {ps : List Piece}
    (hlexed : Lexed ps) (hplain : PlainPieces ps) : FindsComments suffix ps := by
  have hshell : suffix ∉ [lit ".sh", lit ".bash"] := by
    revert suffix
    decide
  have htokens : commentTokens suffix = slashes := by
    simp only [cFamily, List.mem_cons, List.not_mem_nil, or_false] at hsuffix
    rcases hsuffix with rfl | rfl | rfl | rfl | rfl <;> rfl
  rw [FindsComments, findComments, htokens, if_neg fun h => hshell h.2]
  exact scanFrom_render hlexed hplain le_rfl {}

/-- Code that consists of some characters. -/
def codePieces (s : Text) : List Piece := s.map .code

/-- `s = "//"; /* " */` -/
theorem findsComments_of_plain_sample :
    FindsComments (lit ".c") (codePieces (lit "s = ") ++
      [.literal '"' [.plain '/', .plain '/'], .code ';', .code ' ', .block (lit " \" ")]) := by
  refine findsComments_of_plain (by decide) ?_ ?_
  · simp [codePieces, Lexed, Piece.Ok, LitChar.Ok, lit, render, Piece.text]
    decide
  · simp [codePieces, PlainPieces, Piece.Plain, lit, litText, LitChar.text, render, Piece.text]

/-- `s = "\""; // x` -/
def escapedQuote : List Piece :=
  codePieces (lit "s = ") ++ [.literal '"' [.escaped '"'], .code ';', .code ' ', .line (lit " x")]

/-- **An escaped quote hides a comment.** -/
theorem not_findsComments : Lexed escapedQuote ∧ ¬ FindsComments (lit ".c") escapedQuote := by
  refine ⟨?_, fun h => ?_⟩
  · simp [escapedQuote, codePieces, Lexed, Piece.Ok, LitChar.Ok, lit, render, Piece.text]
  · have hfound : findComments (lit ".c") (render escapedQuote) = [] := by decide +kernel
    rw [FindsComments, hfound] at h
    cases h

end Extractor

end Csc512
