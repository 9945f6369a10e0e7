import Csc512.Comments.Extractor
import Csc512.Lib.Json

/-!
# Scores from a language model

The comments of a file, or the text of a document, are sent to a language model, and the tags in its
reply go into the record of the file. The reply is any text. It is read as JSON, as a whole, or else
what stands in a fence, or else from the first brace to the last one; what comes out is any JSON
value, which is then used as if it were an object with a list of strings.

## Main results

* `survivesReply_iff` — the replies after which there is a proper score
* `not_survivesReply` — the reply `5`
-/

namespace Csc512

namespace Scoring

open Extractor

/-! ### Records -/

/-- The record of a file. -/
structure FileRecord where
  path : Text
  lines : ℕ
  commentLines : ℕ
  comments : List Comment

/-- The record of a file with tags. -/
structure ScoredRecord where
  record : FileRecord
  tags : List Json

/-- What is raised: what the decoder raises but for its own error, or that a value is of the wrong
type, or has no attribute `get`. -/
inductive ScoreError where
  | decoder (e : Json.Error)
  | typeError
  | attributeError
deriving DecidableEq, Repr

/-- What is sent to the model, with one of two instructions. -/
inductive Prompt where
  | code (user : Text)
  | markdown (user : Text)

/-- A string of characters. -/
def tag (s : String) : CodePoints := codePoints (lit s)

/-! ### Reading a reply -/

/-- The name of a type of comments. -/
def typeName : CommentType → Text
  | .line => lit "line"
  | .block => lit "block"
  | .markdown => lit "markdown"

/-- The comments of a file as a prompt. -/
def buildPrompt (path : Text) (comments : List Comment) : Text :=
  ['\n'].intercalate ((lit "File: " ++ path ++ ['\n']) :: comments.zipIdx.map fun c =>
    '[' :: natText c.2 ++ lit "] (line " ++ natText c.1.line ++ lit ", " ++ typeName c.1.type
      ++ lit ") " ++ strip c.1.text)

/-- What stands in the first fence. -/
def fencedBlock (raw : Text) : Option Text :=
  (cut (lit "```") raw).bind fun p =>
    let word := lit "json"
    let inside := if startsWith p.2 word then p.2.drop word.length else p.2
    (cut (lit "```") (lstrip inside)).map Prod.fst

/-- What stands from the first opening brace to the last closing one behind it. -/
def bracedBlock (raw : Text) : Option Text :=
  let block := raw.dropWhile (· ≠ '\x7b')
  if '\x7d' ∈ block then some (block.rdropWhile (· ≠ '\x7d')) else none

section Replies

variable (limits : Json.Limits)

/-- Decode a text if there is one, and go on if it is no JSON. -/
def attempt (t : Option Text) (next : Except Json.Error Json) : Except Json.Error Json :=
  match t with
  | none => next
  | some t =>
    match Json.loads limits t with
    | .error .decode => next
    | r => r

/-- The value in a reply, or null. -/
def parseLlmJson (raw : Text) : Except Json.Error Json :=
  let raw := strip raw
  attempt limits (some raw) (attempt limits (fencedBlock raw)
    (attempt limits (bracedBlock raw) (.ok .null)))

/-- The number that a value is compared as. -/
def number? : Json → Option Double
  | .bool b => some (.rat (if b then 1 else 0))
  | .int n => some (.rat n)
  | .float x => some x
  | _ => none

/-- Are two values equal, as members of a set? A number that is not a number is only ever the same
object. -/
def same (a b : Json) : Bool :=
  match a, b with
  | .str s, .str t => s = t
  | .null, .null => true
  | a, b =>
    match number? a, number? b with
    | some x, some y => x.eq y || (x = .nan && y = .nan)
    | _, _ => false

/-- Can a value be a member of a set? -/
def hashable : Json → Bool
  | .list _ | .obj _ => false
  | _ => true

/-- The test `"tags" in v`. -/
def hasTags : Json → Except ScoreError Bool
  | .obj entries => .ok (tag "tags" ∈ entries.map Prod.fst)
  | .list items => .ok (items.any (same (.str (tag "tags"))))
  | .str s => .ok (contains (tag "tags") s)
  | _ => .error .typeError

/-- The value at a key. -/
def lookup (key : CodePoints) (entries : List (CodePoints × Json)) : Option Json :=
  (entries.find? fun e => e.1 = key).map Prod.snd

/-- The value `v.get("tags", [])`. -/
def getTags : Json → Except ScoreError Json
  | .obj entries => .ok ((lookup (tag "tags") entries).getD (.list []))
  | _ => .error .attributeError

/-- The elements of a value. -/
def elements : Json → Except ScoreError (List Json)
  | .list items => .ok items
  | .str s => .ok (s.map fun c => .str [c])
  | .obj entries => .ok (entries.map fun e => .str e.1)
  | _ => .error .typeError

variable (chat : Prompt → Option Text)

/-- The value in the reply to a prompt, or null. -/
def ask (prompt : Prompt) : Except ScoreError Json :=
  match chat prompt with
  | none => .ok .null
  | some reply => (parseLlmJson limits reply).mapError .decoder

/-- Let the model look at the comments of a file. -/
def analyzeComments (path : Text) (comments : List Comment) : Except ScoreError (Option Json) :=
  if comments = [] then .ok none
  else (ask limits chat (.code (buildPrompt path comments))).bind fun
    | .null => .ok none
    | v => (hasTags v).map fun found => if found then some v else none

/-- Let the model look at a document, unless it is very short. -/
def analyzeMarkdown (path text : Text) : Except ScoreError (Option Json) :=
  if (strip text).length < 10 then .ok none
  else (ask limits chat (.markdown (lit "File: " ++ path ++ lit "\n\n" ++ text))).map fun
    | .null => none
    | v => some v

/-! ### Scores -/

/-- The first ones of equal values. -/
def uniqueFrom (seen : List Json) : List Json → Except ScoreError (List Json)
  | [] => .ok []
  | t :: ts =>
    if hashable t then
      if seen.any (same t) then uniqueFrom seen ts
      else (uniqueFrom (t :: seen) ts).map (t :: ·)
    else .error .typeError

/-- The tags of a document without the model. -/
def staticScoreMarkdown (text : Text) : List CodePoints :=
  [tag "documentation", if strip text = [] then tag "text_empty" else tag "text_present"]

/-- The tags of a program file without the model. -/
def staticScoreCode (f : FileRecord) : List CodePoints :=
  if f.comments = [] then [tag "no_comments"] else [tag "has_comments"]

/-- The tag for the coverage of a file. -/
def coverageTag (f : FileRecord) : CodePoints :=
  let zoneSize := 15
  let codeLines := max 1 (f.lines - f.commentLines)
  let numZones := max 1 ((codeLines + zoneSize - 1) / zoneSize)
  let zones :=
    (((commentLineNums f.comments).filter (0 < ·)).map fun ln => (ln - 1) / zoneSize).dedup
  if numZones ≤ zones.length then tag "good_coverage"
  else if 0 < zones.length then tag "partial_coverage"
  else tag "low_coverage"

/-- The text of a document. -/
def markdownText (f : FileRecord) : Text := f.comments.head?.elim [] Comment.text

/-- Score a document. -/
def scoreMarkdown (f : FileRecord) : Except ScoreError (List Json) :=
  let text := markdownText f
  if strip text = [] then .ok ((staticScoreMarkdown text).map .str)
  else do
    match ← analyzeMarkdown limits chat f.path text with
    | none => .ok ((staticScoreMarkdown text).map .str)
    | some v =>
      let tags ← elements (← getTags v)
      uniqueFrom [] (.str (tag "documentation") :: tags)

/-- Score a program file. -/
def scoreCode (f : FileRecord) : Except ScoreError (List Json) :=
  if f.comments = [] then .ok ((staticScoreCode f).map .str)
  else do
    match ← analyzeComments limits chat f.path f.comments with
    | none => .ok ((staticScoreCode f).map .str)
    | some v =>
      let tags ← elements (← getTags v)
      uniqueFrom [] (.str (tag "has_comments") :: tags ++ [.str (coverageTag f)])

/-- The extension of a path: what follows the last point of the file name, and the point, if there
is something else than points before. -/
def extension (path : Text) : Text :=
  let name := path.rtakeWhile (· ≠ '/')
  let front := name.rdropWhile (· ≠ '.')
  if front.dropLast.any (· ≠ '.') then name.drop (front.length - 1) else []

/-- Is a file a document? -/
def isMarkdown (U : CharTable) (f : FileRecord) : Bool :=
  U.lower (extension f.path) ∈ [lit ".md", lit ".markdown"]

/-- Score a file. -/
def scoreFile (U : CharTable) (f : FileRecord) : Except ScoreError ScoredRecord :=
  (if isMarkdown U f then scoreMarkdown limits chat f else scoreCode limits chat f).map
    fun tags => ⟨f, tags⟩

end Replies

/-! ### Proper scores -/

/-- The tag that comes first. -/
def firstTag (U : CharTable) (f : FileRecord) : CodePoints :=
  if isMarkdown U f then tag "documentation" else tag "has_comments"

/-- The tags of a file without the model. -/
def staticTags (U : CharTable) (f : FileRecord) : List CodePoints :=
  if isMarkdown U f then staticScoreMarkdown (markdownText f) else staticScoreCode f

/-- What is sent for a file. -/
def promptOf (U : CharTable) (f : FileRecord) : Prompt :=
  if isMarkdown U f then .markdown (lit "File: " ++ f.path ++ lit "\n\n" ++ markdownText f)
  else .code (buildPrompt f.path f.comments)

/-- Strings without repetitions, `first` in front. -/
def AreTags (first : CodePoints) (tags : List Json) : Prop :=
  ∃ ss : List CodePoints, tags = ss.map .str ∧ ss.Nodup ∧ ss.head? = some first

/-- An object with a list of strings under `tags`. -/
def IsTagReply (v : Json) : Prop :=
  ∃ entries ss, v = .obj entries ∧
    lookup (tag "tags") entries = some (.list (List.map .str ss))

section Survival

variable (U : CharTable) (limits : Json.Limits) (chat : Prompt → Option Text)

/-- A file gets tags, whatever the model replies, and the static ones if its reply is no object with
a list of strings under `tags`. -/
def SurvivesReply (f : FileRecord) : Prop :=
  ∃ tags, scoreFile limits chat U f = .ok ⟨f, tags⟩ ∧ AreTags (firstTag U f) tags ∧
    ((∀ reply v, chat (promptOf U f) = some reply → parseLlmJson limits reply = .ok v →
      ¬ IsTagReply v) → tags = (staticTags U f).map .str)

/-- The values after which a program file gets proper tags: null, which also stands for no JSON at
all, an object with a list of strings under `tags`, and whatever shows no `tags` to a test with
`in`. -/
inductive CodeAcceptable : Json → Prop
  | null : CodeAcceptable .null
  | tags {v : Json} (h : IsTagReply v) : CodeAcceptable v
  | object {entries : List (CodePoints × Json)} (h : lookup (tag "tags") entries = none) :
      CodeAcceptable (.obj entries)
  | list {items : List Json} (h : .str (tag "tags") ∉ items) : CodeAcceptable (.list items)
  | text {s : CodePoints} (h : ¬ tag "tags" <:+: s) : CodeAcceptable (.str s)

/-- The values after which a document gets proper tags: null, an object with a list of strings under
`tags`, and one with an object there whose keys happen to be the static tags. -/
inductive MarkdownAcceptable : Json → Prop
  | null : MarkdownAcceptable .null
  | tags {v : Json} (h : IsTagReply v) : MarkdownAcceptable v
  | keys {entries inner : List (CodePoints × Json)}
      (h : lookup (tag "tags") entries = some (.obj inner))
      (hpresent : tag "text_present" ∈ inner.map Prod.fst)
      (honly : ∀ k ∈ inner.map Prod.fst, k = tag "documentation" ∨ k = tag "text_present") :
      MarkdownAcceptable (.obj entries)

/-- The reply can be decoded or is no JSON, and its value is acceptable. -/
def ReplyAcceptable (acceptable : Json → Prop) (prompt : Prompt) : Prop :=
  ∀ reply, chat prompt = some reply → ∃ v, parseLlmJson limits reply = .ok v ∧ acceptable v

/-- A short document is scored without the model; otherwise the reply has to be acceptable. -/
def FileAcceptable (f : FileRecord) : Prop :=
  if isMarkdown U f then
    (strip (markdownText f)).length < 10 ∨
      ReplyAcceptable limits chat MarkdownAcceptable (promptOf U f)
  else ReplyAcceptable limits chat CodeAcceptable (promptOf U f)

end Survival

/-! ### The coverage -/

/-- The tag of a coverage. -/
def coverageName : Coverage → CodePoints
  | .good => tag "good_coverage"
  | .partly => tag "partial_coverage"
  | .low => tag "low_coverage"

/-- Where the record counts the lines of its comments, the tag is the one of their coverage. -/
theorem coverageTag_eq {f : FileRecord} (h : f.commentLines = commentLines f.comments) :
    coverageTag f = coverageName (coverage f.lines f.comments) := by
  unfold coverageTag coverage
  rw [h]
  dsimp only
  split_ifs <;> rfl

/-! ### The decoder never runs out of fuel -/

theorem attempt_ne_outOfFuel {limits : Json.Limits} (t : Option Text)
    {next : Except Json.Error Json} (h : next ≠ .error .outOfFuel) :
    attempt limits t next ≠ .error .outOfFuel := by
  unfold attempt
  split
  · exact h
  · split
    · exact h
    · exact Json.loads_ne_outOfFuel limits _

theorem parseLlmJson_ne_outOfFuel (limits : Json.Limits) (raw : Text) :
    parseLlmJson limits raw ≠ .error .outOfFuel := by
  have hnull : (.ok .null : Except Json.Error Json) ≠ .error .outOfFuel := by
    intro h
    cases h
  unfold parseLlmJson
  exact attempt_ne_outOfFuel _ (attempt_ne_outOfFuel _ (attempt_ne_outOfFuel _ hnull))

/-! ### Equal values -/

theorem same_str_iff {s : CodePoints} {v : Json} : same (.str s) v = true ↔ v = .str s := by
  cases v with
  | str t =>
    show decide (s = t) = true ↔ _
    rw [decide_eq_true_iff, Json.str.injEq]
    exact eq_comm
  | _ => exact iff_of_false nofun nofun

theorem same_str_of_same {s : CodePoints} {v : Json} (h : same v (.str s) = true) : v = .str s := by
  cases v with
  | str t => rw [of_decide_eq_true h]
  | bool b => cases h
  | int n => cases h
  | float x => cases h
  | null => cases h
  | list items => cases h
  | obj entries => cases h

theorem any_same_iff {s : CodePoints} {seen : List CodePoints} :
    (seen.map Json.str).any (same (.str s)) = true ↔ s ∈ seen := by
  rw [List.any_eq_true]
  constructor
  · rintro ⟨v, hv, hsame⟩
    obtain ⟨t, ht, rfl⟩ := List.mem_map.mp hv
    obtain rfl := Json.str.inj (same_str_iff.mp hsame)
    exact ht
  · exact fun h => ⟨.str s, List.mem_map_of_mem h, same_str_iff.mpr rfl⟩

theorem hashable_str (s : CodePoints) : hashable (.str s) = true := rfl

/-- Of strings, the first ones are kept. -/
theorem uniqueFrom_map_str (seen ss : List CodePoints) : ∃ us : List CodePoints,
    uniqueFrom (seen.map .str) (ss.map .str) = .ok (us.map .str) ∧ us.Nodup ∧
      ∀ t, t ∈ us ↔ t ∈ ss ∧ t ∉ seen := by
  induction ss generalizing seen with
  | nil => exact ⟨[], rfl, List.nodup_nil, by simp⟩
  | cons s ss ih =>
    rw [List.map_cons, uniqueFrom, if_pos (hashable_str s)]
    by_cases hs : s ∈ seen
    · obtain ⟨us, hus, hnodup, hmem⟩ := ih seen
      rw [if_pos (any_same_iff.mpr hs)]
      refine ⟨us, hus, hnodup, fun t => ?_⟩
      rw [hmem, List.mem_cons]
      exact ⟨fun h => ⟨.inr h.1, h.2⟩, fun h => ⟨h.1.resolve_left fun heq => h.2 (heq ▸ hs), h.2⟩⟩
    · obtain ⟨us, hus, hnodup, hmem⟩ := ih (s :: seen)
      rw [if_neg fun h => hs (any_same_iff.mp h)]
      refine ⟨s :: us, ?_, List.nodup_cons.mpr ⟨fun h => ?_, hnodup⟩, fun t => ?_⟩
      · rw [List.map_cons] at hus
        rw [hus]
        rfl
      · exact ((hmem s).mp h).2 List.mem_cons_self
      · rw [List.mem_cons, hmem, List.mem_cons, List.mem_cons]
        constructor
        · rintro (rfl | ⟨ht, hseen⟩)
          · exact ⟨.inl rfl, hs⟩
          · exact ⟨.inr ht, fun h => hseen (.inr h)⟩
        · rintro ⟨rfl | ht, hseen⟩
          · exact .inl rfl
          · by_cases heq : t = s
            · exact .inl heq
            · exact .inr ⟨ht, fun h => h.elim heq hseen⟩

/-- The tags of a list of strings that begins with `first`. -/
theorem exists_unique_tags (first : CodePoints) (ss : List CodePoints) : ∃ us : List CodePoints,
    uniqueFrom [] (.str first :: ss.map .str) = .ok ((first :: us).map .str) ∧
      (first :: us).Nodup ∧ ∀ t, t ∈ us ↔ t ∈ ss ∧ t ≠ first := by
  obtain ⟨us, hus, hnodup, hmem⟩ := uniqueFrom_map_str [first] ss
  have hfirst : first ∉ us := fun h => ((hmem first).mp h).2 List.mem_cons_self
  refine ⟨us, ?_, List.nodup_cons.mpr ⟨hfirst, hnodup⟩, fun t => ?_⟩
  · rw [uniqueFrom, if_pos (hashable_str first), if_neg (by simp)]
    exact congrArg (Except.map _) hus
  · rw [hmem, List.mem_singleton]

/-- If only strings are kept, there were only strings. -/
theorem strings_of_uniqueFrom {seen us : List CodePoints} {ts : List Json}
    (h : uniqueFrom (seen.map .str) ts = .ok (us.map .str)) :
    ∃ ss : List CodePoints, ts = ss.map .str := by
  induction ts generalizing seen us with
  | nil => exact ⟨[], rfl⟩
  | cons t ts ih =>
    rw [uniqueFrom] at h
    split at h
    · split at h
      · rename_i hseen
        obtain ⟨v, hv, hsame⟩ := List.any_eq_true.mp hseen
        obtain ⟨s, -, rfl⟩ := List.mem_map.mp hv
        obtain ⟨ss, rfl⟩ := ih h
        exact ⟨s :: ss, by rw [same_str_of_same hsame, List.map_cons]⟩
      · cases hrest : uniqueFrom (t :: seen.map .str) ts with
        | error e =>
          rw [hrest] at h
          cases h
        | ok vs =>
          rw [hrest] at h
          have hkept : t :: vs = us.map .str := Except.ok.inj h
          cases us with
          | nil => cases hkept
          | cons u us =>
            rw [List.map_cons] at hkept
            obtain ⟨rfl, rfl⟩ := List.cons.inj hkept
            have hseen : uniqueFrom ((u :: seen).map .str) ts = .ok (us.map .str) := hrest
            obtain ⟨ss, rfl⟩ := ih hseen
            exact ⟨u :: ss, rfl⟩
    · cases h

/-! ### The score for a value -/

/-- What is made of a value: its tags, with `first` in front and some more behind. -/
def scoreOf (first : CodePoints) (more : List CodePoints) (v : Json) :
    Except ScoreError (List Json) := do
  let tags ← elements (← getTags v)
  uniqueFrom [] (.str first :: tags ++ more.map .str)

/-- A result is a proper score, and the static one unless the reply has tags. -/
def Survives (first : CodePoints) (static : List CodePoints) (tagReply : Prop)
    (r : Except ScoreError (List Json)) : Prop :=
  ∃ tags, r = .ok tags ∧ AreTags first tags ∧ (¬ tagReply → tags = static.map .str)

section Values

variable {first : CodePoints} {more static : List CodePoints} {tagReply : Prop}
  {entries : List (CodePoints × Json)} {w : Json}

theorem not_survives_error (e : ScoreError) : ¬ Survives first static tagReply (.error e) :=
  fun ⟨_, h, _⟩ => nomatch h

theorem survives_static (hstatic : AreTags first (static.map .str)) :
    Survives first static tagReply (.ok (static.map .str)) :=
  ⟨_, rfl, hstatic, fun _ => rfl⟩

theorem scoreOf_obj (hw : lookup (tag "tags") entries = some w) :
    scoreOf first more (.obj entries) = (elements w).bind fun tags =>
      uniqueFrom [] (.str first :: tags ++ more.map .str) := by
  rw [scoreOf, getTags, hw]
  rfl

theorem scoreOf_of_ne_obj {v : Json} (hv : ∀ entries, v ≠ .obj entries) :
    scoreOf first more v = .error .attributeError := by
  cases v with
  | obj entries => exact absurd rfl (hv entries)
  | _ => rfl

theorem elements_str (s : CodePoints) :
    elements (.str s) = .ok ((s.map fun c => [c]).map .str) := by
  rw [elements, List.map_map]
  rfl

theorem elements_obj (inner : List (CodePoints × Json)) :
    elements (.obj inner) = .ok ((inner.map Prod.fst).map .str) := by
  rw [elements, List.map_map]
  rfl

theorem not_survives_of_elements {e : ScoreError} (hw : lookup (tag "tags") entries = some w)
    (he : elements w = .error e) :
    ¬ Survives first static tagReply (scoreOf first more (.obj entries)) := by
  rw [scoreOf_obj hw, he]
  exact not_survives_error e

variable (first more) in
/-- Tags that are strings. -/
theorem exists_scoreOf {ss : List CodePoints} (hw : lookup (tag "tags") entries = some w)
    (hss : elements w = .ok (ss.map .str)) : ∃ us : List CodePoints,
      scoreOf first more (.obj entries) = .ok ((first :: us).map .str) ∧ (first :: us).Nodup ∧
        ∀ t, t ∈ us ↔ (t ∈ ss ∨ t ∈ more) ∧ t ≠ first := by
  obtain ⟨us, hus, hnodup, hmem⟩ := exists_unique_tags first (ss ++ more)
  refine ⟨us, ?_, hnodup, fun t => ?_⟩
  · rw [scoreOf_obj hw, hss, ← hus, List.map_append]
    rfl
  · rw [hmem, List.mem_append]

theorem survives_of_isTagReply {v : Json} (h : IsTagReply v) :
    Survives first static (IsTagReply v) (scoreOf first more v) := by
  have htags := h
  obtain ⟨entries, ss, rfl, hw⟩ := h
  obtain ⟨us, hus, hnodup, -⟩ := exists_scoreOf first more (w := .list (ss.map .str)) hw rfl
  exact ⟨_, hus, ⟨_, rfl, hnodup, rfl⟩, fun hnot => absurd htags hnot⟩

/-- Only a list of strings gives strings. -/
theorem isTagReply_of_survives {items : List Json}
    (hw : lookup (tag "tags") entries = some (.list items))
    (h : Survives first static tagReply (scoreOf first more (.obj entries))) :
    IsTagReply (.obj entries) := by
  obtain ⟨tags, htags, ⟨us, rfl, -⟩, -⟩ := h
  rw [scoreOf_obj hw] at htags
  have hunique : uniqueFrom (List.map .str []) (.str first :: items ++ more.map .str)
      = .ok (us.map .str) := htags
  obtain ⟨ss, hss⟩ := strings_of_uniqueFrom hunique
  have hitems : ∃ rest : List CodePoints, items = rest.map .str := by
    have hprefix : items <+: (ss.drop 1).map .str := by
      rw [List.map_drop, ← hss]
      exact List.prefix_append _ _
    obtain ⟨rest, -, hrest⟩ := List.prefix_map_iff.mp hprefix
    exact ⟨rest, hrest⟩
  obtain ⟨rest, rfl⟩ := hitems
  exact ⟨entries, rest, rfl, hw⟩

theorem not_isTagReply {v : Json} (hw : lookup (tag "tags") entries = some w)
    (hlist : ∀ items, w ≠ .list items) (hv : v = .obj entries) : ¬ IsTagReply v := by
  rintro ⟨entries', ss, hobj, hss⟩
  obtain rfl := Json.obj.inj (hv.symm.trans hobj)
  exact hlist _ (Option.some.inj (hw.symm.trans hss))

variable (first more static) in
/-- The tags that are made of strings that are no list have to be the static ones. -/
theorem survives_strings_iff {ss : List CodePoints}
    (hw : lookup (tag "tags") entries = some w) (hlist : ∀ items, w ≠ .list items)
    (hss : elements w = .ok (ss.map .str)) : ∃ us : List CodePoints, us.Nodup ∧
      (∀ t, t ∈ us ↔ (t ∈ ss ∨ t ∈ more) ∧ t ≠ first) ∧
      (Survives first static (IsTagReply (.obj entries)) (scoreOf first more (.obj entries)) ↔
        first :: us = static) := by
  obtain ⟨us, hus, hnodup, hmem⟩ := exists_scoreOf first more hw hss
  refine ⟨us, (List.nodup_cons.mp hnodup).2, hmem, ?_⟩
  constructor
  · rintro ⟨tags, htags, -, hnot⟩
    obtain rfl := Except.ok.inj (hus.symm.trans htags)
    exact List.map_injective_iff.mpr (fun _ _ => Json.str.inj)
      (hnot (not_isTagReply hw hlist rfl))
  · rintro rfl
    exact ⟨_, hus, ⟨_, rfl, hnodup, rfl⟩, fun _ => rfl⟩

theorem eq_singleton_iff {us : List CodePoints} (h : us.Nodup) (a : CodePoints) :
    us = [a] ↔ ∀ t, t ∈ us ↔ t = a := by
  constructor
  · rintro rfl t
    exact List.mem_singleton
  · intro hmem
    exact List.perm_singleton.mp ((List.perm_ext_iff_of_nodup h (List.pairwise_singleton _ a)).mpr
      fun t => (hmem t).trans List.mem_singleton.symm)

end Values

/-! ### Asking the model -/

theorem areTags_static {U : CharTable} {f : FileRecord}
    (h : isMarkdown U f = true ∨ f.comments ≠ []) :
    AreTags (firstTag U f) ((staticTags U f).map .str) := by
  refine ⟨staticTags U f, rfl, ?_⟩
  rw [staticTags, firstTag]
  by_cases hmarkdown : isMarkdown U f = true
  · rw [if_pos hmarkdown, if_pos hmarkdown, staticScoreMarkdown]
    split <;> decide
  · rw [if_neg hmarkdown, if_neg hmarkdown, staticScoreCode, if_neg (h.resolve_left hmarkdown)]
    decide

section Files

variable {U : CharTable} {limits : Json.Limits} {chat : Prompt → Option Text} {f : FileRecord}

/-- Asking the model: what is left to see is what is made of the value in its reply. -/
theorem survives_ask_iff {first : CodePoints} {static : List CodePoints} {prompt : Prompt}
    {score : Json → Except ScoreError (List Json)} {acceptable : Json → Prop}
    (hstatic : AreTags first (static.map .str)) (hnull : score .null = .ok (static.map .str))
    (hscore : ∀ v, Survives first static (IsTagReply v) (score v) ↔ acceptable v) :
    Survives first static (∃ reply v, chat prompt = some reply ∧
        parseLlmJson limits reply = .ok v ∧ IsTagReply v)
      ((ask limits chat prompt).bind score) ↔ ReplyAcceptable limits chat acceptable prompt := by
  unfold ReplyAcceptable
  cases hchat : chat prompt with
  | none =>
    have hask : ask limits chat prompt = .ok .null := by rw [ask, hchat]
    rw [hask]
    refine iff_of_true ?_ nofun
    show Survives first static _ (score .null)
    rw [hnull]
    exact survives_static hstatic
  | some reply =>
    have hask : ask limits chat prompt = (parseLlmJson limits reply).mapError .decoder := by
      rw [ask, hchat]
    rw [hask]
    simp only [Option.some.injEq, exists_and_left, exists_eq_left', forall_eq']
    cases hparse : parseLlmJson limits reply with
    | error e => exact iff_of_false (not_survives_error (.decoder e)) fun ⟨_, hv, _⟩ => nomatch hv
    | ok v =>
      simp only [Except.ok.injEq, exists_eq_left']
      exact hscore v

/-! ### Program files -/

/-- What is made of the value in the reply to the comments of a file. -/
def codeScore (f : FileRecord) (v : Json) : Except ScoreError (List Json) :=
  Except.bind (match v with
    | .null => .ok none
    | v => (hasTags v).map fun found => if found then some v else none) fun
  | none => .ok ((staticScoreCode f).map .str)
  | some v => scoreOf (tag "has_comments") [coverageTag f] v

theorem scoreCode_eq (hne : f.comments ≠ []) : scoreCode limits chat f
    = (ask limits chat (.code (buildPrompt f.path f.comments))).bind (codeScore f) := by
  have hmore : [Json.str (coverageTag f)] = [coverageTag f].map .str := rfl
  rw [scoreCode, if_neg hne, analyzeComments, if_neg hne, hmore]
  cases ask limits chat (.code (buildPrompt f.path f.comments)) with
  | error e => rfl
  | ok v => rfl

theorem mem_keys_iff {key : CodePoints} {entries : List (CodePoints × Json)} :
    key ∈ entries.map Prod.fst ↔ ∃ w, lookup key entries = some w := by
  rw [← Option.isSome_iff_exists, lookup, Option.isSome_map, List.find?_isSome, List.mem_map]
  simp only [decide_eq_true_eq]

/-- What is made of an object with something under `tags`: only the values of a list of strings are
tags, and with the coverage there are more of them than the static ones. -/
theorem survives_object_iff (hne : f.comments ≠ []) {entries : List (CodePoints × Json)} {w : Json}
    (hw : lookup (tag "tags") entries = some w) :
    Survives (tag "has_comments") (staticScoreCode f) (IsTagReply (.obj entries))
        (scoreOf (tag "has_comments") [coverageTag f] (.obj entries)) ↔
      IsTagReply (.obj entries) := by
  have hcoverage : coverageTag f ≠ tag "has_comments" := by
    rw [coverageTag]
    split
    · decide
    · split <;> decide
  refine ⟨fun h => ?_, survives_of_isTagReply⟩
  -- strings from elsewhere are not the static tags
  have hstrings : ∀ ss : List CodePoints, elements w = .ok (ss.map .str) →
      (∀ items, w ≠ .list items) → IsTagReply (.obj entries) := by
    intro ss hss hlist
    obtain ⟨us, -, hmem, hiff⟩ := survives_strings_iff (tag "has_comments")
      [coverageTag f] (staticScoreCode f) hw hlist hss
    have hstatic := hiff.mp h
    have hus : coverageTag f ∈ us := (hmem _).mpr ⟨.inr (List.mem_singleton_self _), hcoverage⟩
    rw [staticScoreCode, if_neg hne] at hstatic
    rw [(List.cons.inj hstatic).2] at hus
    cases hus
  cases w with
  | list items => exact isTagReply_of_survives hw h
  | str s => exact hstrings _ (elements_str s) nofun
  | obj inner => exact hstrings _ (elements_obj inner) nofun
  | null | bool | int | float => exact absurd h (not_survives_of_elements hw rfl)

theorem codeScore_eq (f : FileRecord) {v : Json} (hv : v ≠ .null) : codeScore f v
    = (hasTags v).bind fun found => if found then scoreOf (tag "has_comments") [coverageTag f] v
      else .ok ((staticScoreCode f).map .str) := by
  have hmap : codeScore f v = Except.bind ((hasTags v).map fun found =>
      if found then some v else none) fun
    | none => .ok ((staticScoreCode f).map .str)
    | some v => scoreOf (tag "has_comments") [coverageTag f] v := by
    cases v with
    | null => exact absurd rfl hv
    | _ => rfl
  rw [hmap]
  cases hasTags v with
  | error e => rfl
  | ok found => cases found <;> rfl

theorem not_isTagReply_of_ne {v : Json} (h : ∀ entries, v ≠ .obj entries) : ¬ IsTagReply v :=
  fun ⟨entries, _, hobj, _⟩ => h entries hobj

theorem hasTags_of_isTagReply {v : Json} (h : IsTagReply v) : hasTags v = .ok true := by
  obtain ⟨entries, ss, rfl, hw⟩ := h
  exact congrArg Except.ok (decide_eq_true (mem_keys_iff.mpr ⟨_, hw⟩))

/-- What shows no `tags`. -/
theorem hasTags_eq_false_iff {v : Json} : hasTags v = .ok false ↔
    (∃ entries, v = .obj entries ∧ lookup (tag "tags") entries = none) ∨
    (∃ items, v = .list items ∧ .str (tag "tags") ∉ items) ∨
      ∃ s, v = .str s ∧ ¬ tag "tags" <:+: s := by
  cases v with
  | null | bool | int | float => exact iff_of_false nofun nofun
  | obj entries =>
    have hkey : tag "tags" ∈ entries.map Prod.fst ↔ lookup (tag "tags") entries ≠ none :=
      mem_keys_iff.trans Option.ne_none_iff_exists'.symm
    simp only [hasTags, Except.ok.injEq, decide_eq_false_iff_not, hkey, not_not, Json.obj.injEq,
      exists_eq_left', reduceCtorEq, false_and, exists_false, or_false]
  | list items =>
    have hmem : items.any (same (.str (tag "tags"))) = true ↔ .str (tag "tags") ∈ items := by
      rw [List.any_eq_true]
      exact ⟨fun ⟨v, hv, hsame⟩ => same_str_iff.mp hsame ▸ hv,
        fun h => ⟨_, h, same_str_iff.mpr rfl⟩⟩
    simp only [hasTags, Except.ok.injEq, ← Bool.not_eq_true, hmem, Json.list.injEq,
      exists_eq_left', reduceCtorEq, false_and, exists_false, or_false, false_or]
  | str s =>
    simp only [hasTags, Except.ok.injEq, ← Bool.not_eq_true, contains_iff_part, Json.str.injEq,
      exists_eq_left', reduceCtorEq, false_and, exists_false, false_or]

theorem codeAcceptable_iff {v : Json} :
    CodeAcceptable v ↔ v = .null ∨ IsTagReply v ∨ hasTags v = .ok false := by
  constructor
  · intro h
    cases h with
    | null => exact .inl rfl
    | tags h => exact .inr (.inl h)
    | object h => exact .inr (.inr (hasTags_eq_false_iff.mpr (.inl ⟨_, rfl, h⟩)))
    | list h => exact .inr (.inr (hasTags_eq_false_iff.mpr (.inr (.inl ⟨_, rfl, h⟩))))
    | text h => exact .inr (.inr (hasTags_eq_false_iff.mpr (.inr (.inr ⟨_, rfl, h⟩))))
  · rintro (rfl | h | h)
    · exact .null
    · exact .tags h
    · obtain ⟨_, rfl, hnone⟩ | ⟨_, rfl, hnone⟩ | ⟨_, rfl, hnone⟩ := hasTags_eq_false_iff.mp h
      · exact .object hnone
      · exact .list hnone
      · exact .text hnone

/-- Whatever shows `tags` is used as an object. -/
theorem survives_hasTags_iff (hne : f.comments ≠ []) {v : Json} (hfound : hasTags v = .ok true) :
    Survives (tag "has_comments") (staticScoreCode f) (IsTagReply v)
        (scoreOf (tag "has_comments") [coverageTag f] v) ↔ IsTagReply v := by
  by_cases hobj : ∃ entries, v = .obj entries
  · obtain ⟨entries, rfl⟩ := hobj
    have hkey : tag "tags" ∈ entries.map Prod.fst := of_decide_eq_true (Except.ok.inj hfound)
    obtain ⟨w, hw⟩ := mem_keys_iff.mp hkey
    exact survives_object_iff hne hw
  · have hother : ∀ entries, v ≠ .obj entries := fun entries hv => hobj ⟨entries, hv⟩
    rw [scoreOf_of_ne_obj hother]
    exact iff_of_false (not_survives_error .attributeError) (not_isTagReply_of_ne hother)

/-- **The score of a program file** for a value. -/
theorem survives_codeScore_iff (hne : f.comments ≠ []) (v : Json) :
    Survives (tag "has_comments") (staticScoreCode f) (IsTagReply v) (codeScore f v) ↔
      CodeAcceptable v := by
  have hstatic : AreTags (tag "has_comments") ((staticScoreCode f).map .str) := by
    rw [staticScoreCode, if_neg hne]
    exact ⟨_, rfl, by decide, rfl⟩
  by_cases hnull : v = .null
  · subst hnull
    exact iff_of_true (survives_static hstatic) .null
  rw [codeScore_eq f hnull, codeAcceptable_iff, or_iff_right hnull]
  cases hfound : hasTags v with
  | error e =>
    refine iff_of_false (not_survives_error e) ?_
    rintro (h | h)
    · rw [hasTags_of_isTagReply h] at hfound
      cases hfound
    · cases h
  | ok found =>
    cases found with
    | false => exact iff_of_true (survives_static hstatic) (.inr rfl)
    | true =>
      refine (survives_hasTags_iff hne hfound).trans (or_iff_left fun h => ?_).symm
      cases h

/-! ### Documents -/

/-- What is made of the value in the reply to a document. -/
def markdownScore (text : Text) : Json → Except ScoreError (List Json)
  | .null => .ok ((staticScoreMarkdown text).map .str)
  | v => scoreOf (tag "documentation") [] v

theorem scoreOf_nil (first : CodePoints) (v : Json) : scoreOf first [] v = (do
    let tags ← elements (← getTags v)
    uniqueFrom [] (.str first :: tags)) := by
  unfold scoreOf
  simp only [List.map_nil, List.append_nil]

theorem scoreMarkdown_eq (htext : 10 ≤ (strip (markdownText f)).length) :
    scoreMarkdown limits chat f
      = (ask limits chat (.markdown (lit "File: " ++ f.path ++ lit "\n\n" ++ markdownText f))).bind
          (markdownScore (markdownText f)) := by
  have hne : strip (markdownText f) ≠ [] := by
    intro h
    rw [h] at htext
    exact absurd htext (by decide)
  rw [scoreMarkdown, if_neg hne, analyzeMarkdown, if_neg (Nat.not_lt.mpr htext)]
  cases ask limits chat (.markdown (lit "File: " ++ f.path ++ lit "\n\n" ++ markdownText f)) with
  | error e => rfl
  | ok v =>
    show _ = markdownScore (markdownText f) v
    cases v with
    | null => rfl
    | bool b => exact (scoreOf_nil (tag "documentation") (.bool b)).symm
    | int n => exact (scoreOf_nil (tag "documentation") (.int n)).symm
    | float x => exact (scoreOf_nil (tag "documentation") (.float x)).symm
    | str s => exact (scoreOf_nil (tag "documentation") (.str s)).symm
    | list items => exact (scoreOf_nil (tag "documentation") (.list items)).symm
    | obj entries => exact (scoreOf_nil (tag "documentation") (.obj entries)).symm

/-- A short document is scored without the model. -/
theorem scoreMarkdown_of_short (htext : (strip (markdownText f)).length < 10) :
    scoreMarkdown limits chat f = .ok ((staticScoreMarkdown (markdownText f)).map .str) := by
  rw [scoreMarkdown, analyzeMarkdown, if_pos htext]
  exact iteInduction (motive := fun r => r = _) (fun _ => rfl) fun _ => rfl

/-- An object without `tags` leaves the first tag alone, which is not the static score. -/
theorem survives_document_none_iff {entries : List (CodePoints × Json)}
    (hw : lookup (tag "tags") entries = none) :
    Survives (tag "documentation") [tag "documentation", tag "text_present"]
        (IsTagReply (.obj entries)) (scoreOf (tag "documentation") [] (.obj entries)) ↔
      MarkdownAcceptable (.obj entries) := by
  have hnot : ¬ IsTagReply (.obj entries) := by
    rintro ⟨entries', ss, heq, hss⟩
    obtain rfl := Json.obj.inj heq
    rw [hw] at hss
    cases hss
  have hscore : scoreOf (tag "documentation") [] (.obj entries)
      = .ok [.str (tag "documentation")] := by
    rw [scoreOf, getTags, hw]
    rfl
  refine iff_of_false ?_ fun h => ?_
  · rintro ⟨tags, htags, -, hstatic⟩
    rw [hscore] at htags
    rw [← Except.ok.inj htags] at hstatic
    exact absurd (congrArg List.length (hstatic hnot)) (by decide)
  · cases h with
    | tags h => exact hnot h
    | keys h =>
      rw [hw] at h
      cases h

/-- An object with something under `tags`. -/
theorem survives_document_iff {entries : List (CodePoints × Json)} {w : Json}
    (hw : lookup (tag "tags") entries = some w) :
    Survives (tag "documentation") [tag "documentation", tag "text_present"]
        (IsTagReply (.obj entries)) (scoreOf (tag "documentation") [] (.obj entries)) ↔
      MarkdownAcceptable (.obj entries) := by
  have hkeys : MarkdownAcceptable (.obj entries) → IsTagReply (.obj entries) ∨
      ∃ inner, w = .obj inner ∧ tag "text_present" ∈ inner.map Prod.fst ∧
        ∀ k ∈ inner.map Prod.fst, k = tag "documentation" ∨ k = tag "text_present" := by
    intro h
    cases h with
    | tags h => exact .inl h
    | keys h hpresent honly =>
      exact .inr ⟨_, Option.some.inj (hw.symm.trans h), hpresent, honly⟩
  -- what strings from elsewhere have to be
  have hstrings : ∀ ss : List CodePoints, elements w = .ok (ss.map .str) →
      (∀ items, w ≠ .list items) →
      (Survives (tag "documentation") [tag "documentation", tag "text_present"]
          (IsTagReply (.obj entries)) (scoreOf (tag "documentation") [] (.obj entries)) ↔
        ∀ t, t ∈ ss ∧ t ≠ tag "documentation" ↔ t = tag "text_present") := by
    intro ss hss hlist
    obtain ⟨us, hnodup, hmem, hiff⟩ := survives_strings_iff (tag "documentation") []
      [tag "documentation", tag "text_present"] hw hlist hss
    simp only [List.not_mem_nil, or_false] at hmem
    simp only [hiff, List.cons.injEq, true_and, eq_singleton_iff hnodup, hmem]
  have hother : (∀ items, w ≠ .list items) → (∀ inner, w ≠ .obj inner) →
      ¬ MarkdownAcceptable (.obj entries) := by
    intro hlist hobj h
    rcases hkeys h with h | ⟨inner, rfl, -⟩
    · exact not_isTagReply hw hlist rfl h
    · exact hobj inner rfl
  cases w with
  | list items => exact ⟨fun h => .tags (isTagReply_of_survives hw h), fun h => by
      rcases hkeys h with h | ⟨inner, heq, -⟩
      · exact survives_of_isTagReply h
      · cases heq⟩
  | str s =>
    rw [hstrings _ (elements_str s) nofun]
    refine iff_of_false (fun h => ?_) (hother nofun nofun)
    obtain ⟨c, -, hc⟩ := List.mem_map.mp ((h (tag "text_present")).mpr rfl).1
    exact absurd (congrArg List.length hc) (by rw [List.length_singleton]; decide)
  | obj inner =>
    rw [hstrings _ (elements_obj inner) nofun]
    constructor
    · intro h
      refine .keys hw ((h (tag "text_present")).mpr rfl).1 fun k hk => ?_
      by_cases hfirst : k = tag "documentation"
      · exact .inl hfirst
      · exact .inr ((h k).mp ⟨hk, hfirst⟩)
    · intro h t
      rcases hkeys h with h | ⟨inner', heq, hpresent, honly⟩
      · exact absurd h (not_isTagReply hw nofun rfl)
      · obtain rfl := Json.obj.inj heq
        constructor
        · exact fun ht => (honly t ht.1).resolve_left ht.2
        · rintro rfl
          exact ⟨hpresent, by decide⟩
  | null | bool | int | float =>
    exact iff_of_false (not_survives_of_elements hw rfl) (hother nofun nofun)

/-- **The score of a document** for a value. -/
theorem survives_markdownScore_iff {text : Text} (htext : strip text ≠ []) (v : Json) :
    Survives (tag "documentation") (staticScoreMarkdown text) (IsTagReply v)
        (markdownScore text v) ↔ MarkdownAcceptable v := by
  have hstatic : staticScoreMarkdown text = [tag "documentation", tag "text_present"] := by
    rw [staticScoreMarkdown, if_neg htext]
  have hproper : AreTags (tag "documentation") ((staticScoreMarkdown text).map .str) := by
    rw [hstatic]
    exact ⟨_, rfl, by decide, rfl⟩
  by_cases hnull : v = .null
  · subst hnull
    exact iff_of_true (survives_static hproper) .null
  have hscore : markdownScore text v = scoreOf (tag "documentation") [] v := by
    cases v with
    | null => exact absurd rfl hnull
    | _ => rfl
  rw [hscore]
  by_cases hobj : ∃ entries, v = .obj entries
  · obtain ⟨entries, rfl⟩ := hobj
    rw [hstatic]
    cases hw : lookup (tag "tags") entries with
    | none => exact survives_document_none_iff hw
    | some w => exact survives_document_iff hw
  · rw [scoreOf_of_ne_obj fun entries hv => hobj ⟨entries, hv⟩]
    refine iff_of_false (not_survives_error .attributeError) fun h => ?_
    cases h with
    | null => exact hnull rfl
    | tags h =>
      obtain ⟨entries, -, heq, -⟩ := h
      exact hobj ⟨entries, heq⟩
    | keys => exact hobj ⟨_, rfl⟩

/-! ### Files -/

/-- To survive a reply is that the score survives the value in it. -/
theorem survivesReply_iff_survives {score : Except ScoreError (List Json)}
    (hscore : scoreFile limits chat U f = score.map fun tags => ⟨f, tags⟩) :
    SurvivesReply U limits chat f ↔ Survives (firstTag U f) (staticTags U f)
      (∃ reply v, chat (promptOf U f) = some reply ∧ parseLlmJson limits reply = .ok v ∧
        IsTagReply v) score := by
  refine exists_congr fun tags => and_congr ?_ (and_congr_right fun _ => imp_congr ?_ Iff.rfl)
  · rw [hscore]
    cases score with
    | error e => exact iff_of_false nofun nofun
    | ok tags' => simp only [Except.map, Except.ok.injEq, ScoredRecord.mk.injEq, true_and]
  · simp only [not_exists, not_and]

/-- **Surviving a reply.** A document, or a program file with comments, gets proper tags, and the
static ones unless the reply brings some, if and only if the document is short or whatever is in the
reply is acceptable. -/
theorem survivesReply_iff (U : CharTable) (limits : Json.Limits) (chat : Prompt → Option Text)
    (f : FileRecord) (h : isMarkdown U f = true ∨ f.comments ≠ []) :
    SurvivesReply U limits chat f ↔ FileAcceptable U limits chat f := by
  have hstatic := areTags_static h
  by_cases hmarkdown : isMarkdown U f = true
  · have hscore : scoreFile limits chat U f = (scoreMarkdown limits chat f).map fun tags =>
        ⟨f, tags⟩ := by rw [scoreFile, if_pos hmarkdown]
    rw [survivesReply_iff_survives hscore, FileAcceptable, if_pos hmarkdown]
    have hfirst : firstTag U f = tag "documentation" := if_pos hmarkdown
    have htags : staticTags U f = staticScoreMarkdown (markdownText f) := if_pos hmarkdown
    have hprompt : promptOf U f
      = .markdown (lit "File: " ++ f.path ++ lit "\n\n" ++ markdownText f) := if_pos hmarkdown
    rw [hfirst, htags] at hstatic ⊢
    by_cases hshort : (strip (markdownText f)).length < 10
    · rw [scoreMarkdown_of_short hshort]
      exact iff_of_true (survives_static hstatic) (.inl hshort)
    · have hne : strip (markdownText f) ≠ [] := fun hnil => hshort (by rw [hnil]; decide)
      rw [or_iff_right hshort, hprompt, scoreMarkdown_eq (Nat.not_lt.mp hshort)]
      exact survives_ask_iff hstatic rfl (survives_markdownScore_iff hne)
  · have hscore : scoreFile limits chat U f = (scoreCode limits chat f).map fun tags =>
        ⟨f, tags⟩ := by rw [scoreFile, if_neg hmarkdown]
    rw [survivesReply_iff_survives hscore, FileAcceptable, if_neg hmarkdown]
    have hfirst : firstTag U f = tag "has_comments" := if_neg hmarkdown
    have htags : staticTags U f = staticScoreCode f := if_neg hmarkdown
    have hprompt : promptOf U f = .code (buildPrompt f.path f.comments) := if_neg hmarkdown
    have hne := h.resolve_left hmarkdown
    rw [hfirst, htags] at hstatic ⊢
    rw [hprompt, scoreCode_eq hne]
    exact survives_ask_iff hstatic rfl (survives_codeScore_iff hne)

end Files

/-- A program file of one line with a comment. -/
def commented : FileRecord := ⟨lit "a.c", 1, 1, [⟨lit "x", 1, 1, .line⟩]⟩

theorem parseLlmJson_terse :
    (match parseLlmJson ⟨4300, 1000⟩ (lit "\x7b\"tags\": [\"terse\"]\x7d") with
      | .ok (.obj [(key, .list [.str _])]) => decide (key = tag "tags")
      | _ => false) = true := by
  decide +kernel

/-- A reply with one tag. -/
theorem survivesReply_iff_commented : SurvivesReply .ascii ⟨4300, 1000⟩
    (fun _ => some (lit "\x7b\"tags\": [\"terse\"]\x7d")) commented := by
  refine (survivesReply_iff .ascii ⟨4300, 1000⟩ _ commented (.inr (List.cons_ne_nil _ _))).mpr ?_
  rw [FileAcceptable, if_neg (by decide +kernel)]
  rintro reply hreply
  obtain rfl := Option.some.inj hreply
  have hparse := parseLlmJson_terse
  split at hparse
  · next key s hv =>
    obtain rfl := of_decide_eq_true hparse
    exact ⟨_, hv, .tags ⟨_, [s], rfl, rfl⟩⟩
  · cases hparse

/-- **Not every reply is survived**: after the reply `5` for a program file there is an error. -/
theorem not_survivesReply : ¬ ∀ (U : CharTable) (limits : Json.Limits)
    (chat : Prompt → Option Text) (f : FileRecord), (isMarkdown U f = true ∨ f.comments ≠ []) →
      SurvivesReply U limits chat f := by
  intro h
  obtain ⟨tags, htags, -⟩ := h .ascii ⟨4300, 1000⟩ (fun _ => some (lit "5")) commented
    (.inr (List.cons_ne_nil _ _))
  have hnone : (scoreFile ⟨4300, 1000⟩ (fun _ => some (lit "5")) .ascii commented).toOption.isNone
      = true := by decide +kernel
  rw [htags] at hnone
  cases hnone

end Scoring

end Csc512
