import Csc512.Lib.Text
import Mathlib.Algebra.GroupWithZero.Nat

/-!
# Comments of a source file

The scanner goes through a text and passes over what it takes for literals. Where a comment begins
it records the text of the comment with its line and column. Then runs of line comments are merged,
and white space in the texts is normalized. From the result, the report counts lines of comments,
and the scoring finds out which zones of the file have comments.

A place is a line, counted from one, and a column, counted from zero.
-/

namespace Csc512

namespace Extractor

/-! ### Languages -/

/-- The tokens that begin comments, for block comments with those that end them. -/
structure CommentTokens where
  line : List Text
  block : List (Text × Text)

/-- The tokens of the languages, by the suffix of the file name. -/
def langToCommentTokens : List (Text × CommentTokens) :=
  let slashes : CommentTokens := ⟨[lit "//"], [(lit "/*", lit "*/")]⟩
  let hash : CommentTokens := ⟨[lit "#"], []⟩
  [(lit ".py", hash), (lit ".js", slashes), (lit ".java", slashes), (lit ".c", slashes),
    (lit ".cpp", slashes), (lit ".h", slashes),
    (lit ".rs", ⟨[lit "///", lit "//!", lit "//"], [(lit "/*", lit "*/")]⟩), (lit ".go", slashes),
    (lit ".sh", hash), (lit ".bash", hash), (lit ".ts", slashes)]

/-- The tokens for a suffix in lower case. -/
def commentTokens (suffix : Text) : CommentTokens :=
  (langToCommentTokens.lookup suffix).getD ⟨[lit "#", lit "//"], [(lit "/*", lit "*/")]⟩

/-- The tokens that begin and end literals, whatever the language. -/
def quoteTokens : List Text := [lit "\"\"\"", lit "'''", lit "\"", lit "'", lit "`"]

/-! ### Comments -/

/-- The classes of comments. -/
inductive CommentType where
  | line | block | markdown
deriving DecidableEq, Repr

/-- A comment. -/
structure Comment where
  text : Text
  line : ℕ
  column : ℕ
  type : CommentType
deriving DecidableEq, Repr

/-- A place in a text. -/
structure Place where
  line : ℕ := 1
  column : ℕ := 0
deriving DecidableEq, Repr

/-- The place behind a piece of text. -/
def Place.advance (p : Place) (segment : Text) : Place :=
  if '\n' ∈ segment then
    ⟨p.line + segment.count '\n', (segment.reverse.takeWhile (· ≠ '\n')).length⟩
  else ⟨p.line, p.column + segment.length⟩

/-- A comment as it was found: what is recorded of it, and the source that the scanner passed over.
-/
structure Found where
  comment : Comment
  source : Text
deriving DecidableEq, Repr

/-- Record a comment at a place. -/
def found (p : Place) (type : CommentType) (content source : Text) : Found :=
  ⟨⟨strip content, p.line, p.column, type⟩, source⟩

/-- The comments of a text from a place on, reading `n` characters at most. A token of a literal
that does not occur again ends the scan, and so does a block comment that is not closed. -/
def scanFrom (T : CommentTokens) : ℕ → Place → Text → List Found
  | 0, _, _ => []
  | _, _, [] => []
  | n + 1, p, c :: s =>
    match quoteTokens.find? fun q => startsWith (c :: s) q with
    | some q =>
      match cut q ((c :: s).drop q.length) with
      | none => []
      | some (body, rest) => scanFrom T n (p.advance (q ++ body ++ q)) rest
    | none =>
      match T.block.find? fun b => startsWith (c :: s) b.1 with
      | some (start, stop) =>
        match cut stop ((c :: s).drop start.length) with
        | none => [found p .block ((c :: s).drop start.length) (c :: s)]
        | some (body, rest) =>
          let source := start ++ body ++ stop
          found p .block body source :: scanFrom T n (p.advance source) rest
      | none =>
        match T.line.find? fun t => startsWith (c :: s) t with
        | some token =>
          match cut ['\n'] (c :: s) with
          | none => [found p .line ((c :: s).drop token.length) (c :: s)]
          | some (source, rest) =>
            found p .line (source.drop token.length) source ::
              scanFrom T n ((p.advance source).advance ['\n']) rest
        | none => scanFrom T n (p.advance [c]) s

/-- The comments that are found in a text, without the first line of a shell script. -/
def findComments (suffix src : Text) : List Found :=
  let comments := scanFrom (commentTokens suffix) src.length {} src
  if startsWith src (lit "#!") ∧ suffix ∈ [lit ".sh", lit ".bash"] then
    comments.filter fun f => ¬ (f.comment.type = .line ∧ f.comment.line = 1)
  else comments

/-! ### Merging -/

/-- Is a line comment right below another one? -/
def Comment.Below (last c : Comment) : Prop :=
  c.type = .line ∧ last.type = .line ∧ c.line = last.line + 1 ∧ c.column = last.column

instance (last c : Comment) : Decidable (last.Below c) := by
  unfold Comment.Below
  infer_instance

/-- Merge comments into the last one, as long as they are right below it. The merged comment keeps
its line. -/
def mergeFrom (last : Comment) : List Comment → List Comment
  | [] => [last]
  | c :: cs =>
    if last.Below c then mergeFrom { last with text := last.text ++ '\n' :: c.text } cs
    else last :: mergeFrom c cs

/-- Merge consecutive line comments. -/
def mergeComments : List Comment → List Comment
  | [] => []
  | c :: cs => mergeFrom c cs

/-- Normalize the white space of a comment. -/
def Comment.normalize (c : Comment) : Comment :=
  { c with text := [' '].intercalate (words c.text) }

/-- The comments of a file with a suffix, in lower case. -/
def extractComments (suffix src : Text) : List Comment :=
  if suffix ∈ [lit ".md", lit ".markdown"] then
    if strip src = [] then [] else [⟨strip src, 1, 0, .markdown⟩]
  else (mergeComments ((findComments suffix src).map Found.comment)).map Comment.normalize

/-! ### Counting -/

/-- The lines of comments that the analysis of a file reports. -/
def commentLines (comments : List Comment) : ℕ :=
  (comments.map fun c => if c.text = [] then 0 else c.text.count '\n' + 1).sum

/-- The lines of comments that the coverage of a file is computed from. -/
def commentLineNums (comments : List Comment) : List ℕ :=
  comments.flatMap fun c =>
    List.range' c.line (if c.text = [] then 1 else max 1 (c.text.count '\n' + 1))

/-- How well the zones of a file of `lines` lines are covered. -/
inductive Coverage where
  | good | partly | low
deriving DecidableEq, Repr

/-- The coverage of a file. -/
def coverage (lines : ℕ) (comments : List Comment) : Coverage :=
  let zoneSize := 15
  let codeLines := max 1 (lines - commentLines comments)
  let numZones := max 1 ((codeLines + zoneSize - 1) / zoneSize)
  let zones := (((commentLineNums comments).filter (0 < ·)).map fun ln => (ln - 1) / zoneSize).dedup
  if numZones ≤ zones.length then .good else if 0 < zones.length then .partly else .low

end Extractor

end Csc512
