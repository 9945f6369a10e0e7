import Csc512.Cdup.BlockDecomposition
import Csc512.Cdup.BraceScan

/-!
# Places in the source

A `SourceGlyph` is a character with its place in the source. The parser run on source glyphs does
what it does on characters, and shows where every character of a statement came from.

## Main results

* `segmentStmts_text` — the parser does not look at places
* `sublist_segmentStmts` — it keeps glyphs in source order
-/

namespace Csc512

/-- A character of a source; one that the parser inserts has no place. -/
structure SourceGlyph where
  char : Char
  place : Option ℕ
deriving DecidableEq, Repr

instance : Glyph SourceGlyph := ⟨SourceGlyph.char, fun c => ⟨c, none⟩, fun _ => rfl⟩

/-- The glyphs of a source. -/
def placed (file : Text) : List SourceGlyph := file.zipIdx.map fun p => ⟨p.1, some p.2⟩

@[simp] theorem text_placed (file : Text) : text (placed file) = file := by
  rw [text, placed, List.map_map]
  exact List.zipIdx_map_fst 0 file

/-! ### The parser does not look at places -/

section Equivariance

variable {α : Type*} [Glyph α]

theorem dropWhile_text (p : Char → Bool) (s : List α) :
    (text s).dropWhile p = text (s.dropWhile fun c => p (Glyph.char c)) := by
  induction s with
  | nil => rfl
  | cons c s ih =>
    rw [text, List.map_cons, List.dropWhile_cons, List.dropWhile_cons]
    split_ifs
    · exact ih
    · rfl

theorem lstrip_text (s : List α) : lstrip (text s) = text (lstrip s) :=
  dropWhile_text isSpace s

theorem rstrip_text (s : List α) : rstrip (text s) = text (rstrip s) := by
  have h := dropWhile_text isSpace s.reverse
  rw [text, List.map_reverse] at h
  rw [rstrip, rstrip, List.rdropWhile, List.rdropWhile, text, text, List.map_reverse]
  exact congrArg List.reverse h

theorem strip_text (s : List α) : strip (text s) = text (strip s) := by
  rw [strip, strip, lstrip_text, rstrip_text]

@[simp] theorem startsWith_text (s : List α) (pat : Text) :
    startsWith (text s) pat = startsWith s pat := by
  rw [startsWith, startsWith, text_self]

@[simp] theorem isEmpty_text (s : List α) : (text s).isEmpty = s.isEmpty := List.isEmpty_map

theorem text_append (s t : List α) : text (s ++ t) = text s ++ text t := List.map_append

/-- The mode without places. -/
def Mode.text : Mode α → Mode Char
  | .code => .code
  | .literal quote => .literal quote
  | .escape quote => .escape quote
  | .lineComment comment => .lineComment (Csc512.text comment)
  | .blockComment comment => .blockComment (Csc512.text comment)
  | .doTail pendingDo tail => .doTail (Csc512.text pendingDo) (Csc512.text tail)
  | .skip next => .skip next.text

namespace Splitter

/-- The state without places. -/
def text (S : Splitter α) : Splitter Char :=
  ⟨S.statements.map Csc512.text, Csc512.text S.current, S.depth, S.mode.text⟩

@[simp] theorem text_mk (statements : List (List α)) (current : List α) (depth : ℤ)
    (mode : Mode α) : (⟨statements, current, depth, mode⟩ : Splitter α).text
      = ⟨statements.map Csc512.text, Csc512.text current, depth, mode.text⟩ := rfl

variable (opts : Includes) (S : Splitter α)

@[simp] theorem text_statements : S.text.statements = S.statements.map Csc512.text := rfl

@[simp] theorem text_current : S.text.current = Csc512.text S.current := rfl

@[simp] theorem text_depth : S.text.depth = S.depth := rfl

theorem addStatement_text (stmt : List α) :
    S.text.addStatement opts (Csc512.text stmt) = (S.addStatement opts stmt).text := by
  have hdrop : (Csc512.text stmt).drop 1 = Csc512.text (stmt.drop 1) := List.map_drop.symm
  unfold addStatement
  rw [isEmpty_text, startsWith_text, hdrop, lstrip_text, startsWith_text]
  dsimp only
  split_ifs <;> simp [text]

theorem flush_text : S.text.flush opts = (S.flush opts).text := by
  have h := addStatement_text opts S (strip S.current)
  rw [← strip_text] at h
  rw [flush, flush]
  show { S.text.addStatement opts (strip (Csc512.text S.current)) with current := [] } = _
  rw [h]
  rfl

theorem addComment_text (comment : List α) :
    S.text.addComment opts (Csc512.text comment) = (S.addComment opts comment).text := by
  unfold addComment
  rw [strip_text, isEmpty_text]
  split_ifs <;> simp [text]

theorem isDo_text (current : List α) : isDo (Csc512.text current) = isDo current := by
  rw [isDo, isDo, strip_text]
  simp

theorem addDo_text (pendingDo tail : List α) :
    S.text.addDo opts (Csc512.text pendingDo) (Csc512.text tail)
      = (S.addDo opts pendingDo tail).text := by
  have hjoin : Csc512.text pendingDo ++ ' ' :: Csc512.text (strip tail)
      = Csc512.text (pendingDo ++ Glyph.ofChar ' ' :: strip tail) := by
    simp [Csc512.text, Glyph.char_ofChar]
  unfold addDo
  rw [strip_text, startsWith_text]
  split_ifs
  · rw [Glyph.ofChar_self, hjoin, addStatement_text]
  · rw [addStatement_text, addStatement_text]

theorem readCode_text (c : α) (next : Option α) :
    S.text.readCode opts (Glyph.char c) (next.map Glyph.char)
      = (S.readCode opts c next).text := by
  have hnext : ((next.map Glyph.char).map Glyph.char : Option Char) = next.map Glyph.char :=
    congrFun Option.map_id _
  have hcurrent : Csc512.text S.current ++ Glyph.char c :: (next.map Glyph.char).toList
      = Csc512.text (S.current ++ c :: next.toList) := by
    cases next <;> simp [Csc512.text]
  have hcons : Csc512.text S.current ++ [Glyph.char c] = Csc512.text (S.current ++ [c]) := by
    simp [Csc512.text]
  have hflush : ∀ current : List α,
      (⟨S.statements.map Csc512.text, Csc512.text current, S.depth, S.mode.text⟩ :
        Splitter Char).flush opts
      = ((⟨S.statements, current, S.depth, S.mode⟩ : Splitter α).flush opts).text :=
    fun current => flush_text opts ⟨S.statements, current, S.depth, S.mode⟩
  have hmode : S.text.mode = S.mode.text := rfl
  unfold readCode
  simp only [Glyph.char_self, hnext, hmode, hcurrent, hcons, hflush, isDo_text, strip_text,
    startsWith_text, flush_text, text_statements, text_current, text_depth, text_mk,
    apply_ite (Splitter.text (α := α))]
  rfl

theorem read_text (c : α) (next : Option α) :
    S.text.read opts (Glyph.char c) (next.map Glyph.char) = (S.read opts c next).text := by
  obtain ⟨statements, current, depth, mode⟩ := S
  have hcons : ∀ s : List α, Csc512.text s ++ [Glyph.char c] = Csc512.text (s ++ [c]) := by
    simp [Csc512.text]
  rw [text_mk]
  cases mode with
  | code => exact readCode_text opts ⟨statements, current, depth, .code⟩ c next
  | literal quote =>
    simp only [Splitter.read, Mode.text, Glyph.char_self, hcons, text_mk,
      apply_ite (Splitter.text (α := α))]
  | escape quote =>
    simp only [Splitter.read, Mode.text, hcons, text_mk]
  | lineComment comment =>
    have hread := readCode_text opts
      { (⟨statements, current, depth, .lineComment comment⟩ : Splitter α).addComment opts comment
        with mode := .code } c next
    have hadd := addComment_text opts ⟨statements, current, depth, .lineComment comment⟩ comment
    simp only [text_mk, Mode.text] at hadd hread
    simp only [Splitter.read, Mode.text, Glyph.char_self, hcons, text_mk, hadd,
      apply_ite (Splitter.text (α := α))]
    rw [← hread]
    rfl
  | blockComment comment =>
    have hnext : ((next.map Glyph.char).map Glyph.char : Option Char) = next.map Glyph.char :=
      congrFun Option.map_id _
    have hclose : Csc512.text comment ++ Glyph.char c :: (next.map Glyph.char).toList
        = Csc512.text (comment ++ c :: next.toList) := by
      cases next <;> simp [Csc512.text]
    have hadd := addComment_text opts ⟨statements, current, depth, .blockComment comment⟩
      (comment ++ c :: next.toList)
    simp only [text_mk, Mode.text] at hadd
    simp only [Splitter.read, Mode.text, Glyph.char_self, hcons, hnext, hclose, text_mk, hadd,
      apply_ite (Splitter.text (α := α)), text_statements, text_current, text_depth]
  | doTail pendingDo tail =>
    have hadd := addDo_text opts ⟨statements, current, depth, .doTail pendingDo tail⟩ pendingDo
      (tail ++ [c])
    simp only [text_mk, Mode.text] at hadd
    simp only [Splitter.read, Mode.text, Glyph.char_self, hcons, text_mk, hadd,
      apply_ite (Splitter.text (α := α)), text_statements, text_current, text_depth]
  | skip next => rfl

theorem run_text (s : List α) : S.text.run opts (Csc512.text s) = (S.run opts s).text := by
  induction s generalizing S with
  | nil => rfl
  | cons c s ih =>
    have hnext : (Csc512.text s).head? = s.head?.map Glyph.char := List.head?_map
    show (S.text.read opts (Glyph.char c) (Csc512.text s).head?).run opts (Csc512.text s) = _
    rw [hnext, read_text, ih]
    rfl

theorem finish_text : S.text.finish opts = (S.finish opts).map Csc512.text := by
  obtain ⟨statements, current, depth, mode⟩ := S
  have hflush : ∀ S : Splitter α, (S.text.flush opts).statements
      = (S.flush opts).statements.map Csc512.text :=
    fun S => congrArg Splitter.statements (flush_text opts S)
  cases mode with
  | lineComment comment =>
    rw [finish, finish, ← hflush, ← addComment_text]
    rfl
  | blockComment comment =>
    rw [finish, finish, ← hflush, ← addComment_text]
    rfl
  | doTail pendingDo tail =>
    rw [finish, finish, ← hflush, ← addDo_text]
    rfl
  | code => exact hflush _
  | literal quote => exact hflush _
  | escape quote => exact hflush _
  | skip next => exact hflush _

end Splitter

theorem parseStatements_text (opts : Includes) (seg : List α) :
    parseStatements opts (text seg) = (parseStatements opts seg).map text := by
  have hrun := Splitter.run_text opts (⟨[], [], 0, .code⟩ : Splitter α) seg
  rw [parseStatements, parseStatements, ← Splitter.finish_text, ← hrun]
  rfl

theorem splitLinesFrom_text (current s : List α) :
    splitLinesFrom (text current) (text s) = (splitLinesFrom current s).map text := by
  fun_induction splitLinesFrom current s with
  | case1 current h => simp_all [text, splitLinesFrom]
  | case2 current h => simp_all [text, splitLinesFrom]
  | case3 current c => by_cases hc : isLineBreak (Glyph.char c) <;> simp [text, splitLinesFrom, hc]
  | case4 current c d s h ih =>
    show splitLinesFrom _ (Glyph.char c :: Glyph.char d :: text s) = _
    rw [splitLinesFrom, Glyph.char_self, Glyph.char_self, if_pos h, List.map_cons, ← ih]
    rfl
  | case5 current c d s h hc ih =>
    show splitLinesFrom _ (Glyph.char c :: Glyph.char d :: text s) = _
    rw [splitLinesFrom, Glyph.char_self, Glyph.char_self, if_neg h, if_pos hc, List.map_cons, ← ih]
    rfl
  | case6 current c d s h hc ih =>
    show splitLinesFrom _ (Glyph.char c :: Glyph.char d :: text s) = _
    rw [splitLinesFrom, Glyph.char_self, Glyph.char_self, if_neg h, if_neg hc, ← ih, text_append]
    rfl

theorem text_intercalate (sep : List α) (parts : List (List α)) :
    text (sep.intercalate parts) = (text sep).intercalate (parts.map text) := by
  induction parts with
  | nil => rfl
  | cons part parts ih =>
    cases parts with
    | nil => simp
    | cons part' parts =>
      rw [List.intercalate_cons_cons, text_append, text_append, ih, List.map_cons, List.map_cons,
        List.map_cons, List.intercalate_cons_cons]

theorem cleanSegment_text (seg : List α) :
    cleanSegment (text seg) = text (cleanSegment seg) := by
  have hlines : splitLines (text seg) = (splitLines seg).map text := splitLinesFrom_text [] seg
  have hfilter : ∀ lines : List (List α),
      ((lines.map text).filter fun line => !(strip line).isEmpty).map strip
        = ((lines.filter fun line => !(strip line).isEmpty).map strip).map text := by
    intro lines
    induction lines with
    | nil => rfl
    | cons line lines ih =>
      rw [List.map_cons, List.filter_cons, List.filter_cons, strip_text, isEmpty_text]
      split_ifs
      · rw [List.map_cons, List.map_cons, List.map_cons, ih, strip_text]
      · exact ih
  have hbreak : text [Glyph.ofChar '\n' (α := α)] = [Glyph.ofChar '\n'] := by
    simp [text, Glyph.char_ofChar]
  rw [cleanSegment, cleanSegment, text_intercalate, hlines, hfilter, hbreak]

/-- The statements of the segments without places. -/
def SegmentStmts.text (P : SegmentStmts α) : SegmentStmts Char :=
  ⟨P.pairs, P.parents, P.stmts.map (List.map Csc512.text)⟩

/-- The parser does not look at places. -/
theorem segmentStmts_text (opts : Includes) (file : List α) :
    segmentStmts opts (text file) = (segmentStmts opts file).map SegmentStmts.text := by
  have hstmts : ∀ seg : List α, parseStatements opts (cleanSegment (text seg))
      = (parseStatements opts (cleanSegment seg)).map text := by
    intro seg
    rw [cleanSegment_text, parseStatements_text]
  unfold segmentStmts
  dsimp only
  rw [text_self, Option.map_bind]
  refine Option.bind_congr fun b _ => ?_
  rw [Function.comp_apply, Option.map_bind]
  refine Option.bind_congr fun p _ => ?_
  rw [Function.comp_apply]
  split_ifs
  · rw [Option.map_some, text, parseCodeSegs_map, List.map_map]
    simp only [SegmentStmts.text, List.map_map, Function.comp_def]
    refine congrArg (fun stmts => some (SegmentStmts.mk _ _ stmts))
      (List.map_congr_left fun seg _ => ?_)
    exact hstmts seg
  · rfl

end Equivariance

/-! ### The parser keeps glyphs in source order -/

section Order

variable {α : Type*} (keep : α → Bool)

/-- The glyphs of `s` that count are in `t`, in the same order. -/
def Drawn (s t : List α) : Prop := (s.filter keep).Sublist (t.filter keep)

variable {keep} {s t u v : List α}

theorem Drawn.refl : Drawn keep s s := List.Sublist.refl _

theorem Drawn.of_sublist (h : s.Sublist t) : Drawn keep s t := h.filter keep

theorem Drawn.trans (h : Drawn keep s t) (h' : Drawn keep t u) : Drawn keep s u :=
  List.Sublist.trans h h'

theorem Drawn.append (h : Drawn keep s t) (h' : Drawn keep u v) :
    Drawn keep (s ++ u) (t ++ v) := by
  rw [Drawn, List.filter_append, List.filter_append]
  exact List.Sublist.append h h'

variable [Glyph α]

theorem lstrip_sublist (s : List α) : (lstrip s).Sublist s :=
  (List.dropWhile_suffix _).sublist

theorem rstrip_sublist (s : List α) : (rstrip s).Sublist s :=
  (List.rdropWhile_prefix _ s).sublist

theorem strip_sublist (s : List α) : (strip s).Sublist s :=
  (rstrip_sublist _).trans (lstrip_sublist s)

/-- What a mode holds back. -/
def Mode.pending : Mode α → List α
  | .lineComment comment => comment
  | .blockComment comment => comment
  | .doTail pendingDo tail => pendingDo ++ tail
  | .skip next => next.pending
  | _ => []

/-- What of the rest of the text a mode will read. -/
def Mode.unread : Mode α → List α → List α
  | .skip next, s => next.unread (s.drop 1)
  | _, s => s

/-- Is a mode one between two statements? -/
def Mode.IsBetween : Mode α → Prop
  | .lineComment _ => True
  | .blockComment _ => True
  | .doTail _ _ => True
  | .skip next => next.IsBetween
  | _ => False

namespace Splitter

/-- Everything that has been kept so far. -/
def seen (S : Splitter α) : List α := S.statements.flatten ++ S.current ++ S.mode.pending

/-- Nothing is being collected between two statements. -/
def Tidy (S : Splitter α) : Prop := S.mode.IsBetween → S.current = []

variable (opts : Includes) (S : Splitter α)

theorem addStatement_sublist (stmt : List α) :
    ((S.addStatement opts stmt).statements.flatten).Sublist (S.statements.flatten ++ stmt) := by
  unfold addStatement
  dsimp only
  split_ifs
  all_goals first
    | exact List.sublist_append_left _ _
    | rw [List.flatten_append, List.flatten_singleton]

theorem addComment_sublist (comment : List α) :
    ((S.addComment opts comment).statements.flatten).Sublist (S.statements.flatten ++ comment) := by
  unfold addComment
  split_ifs
  · rw [List.flatten_append, List.flatten_singleton]
    exact (List.Sublist.refl _).append (strip_sublist comment)
  · exact List.sublist_append_left _ _

theorem flush_sublist :
    ((S.flush opts).statements.flatten).Sublist (S.statements.flatten ++ S.current) :=
  (addStatement_sublist opts S _).trans ((List.Sublist.refl _).append (strip_sublist _))

theorem addDo_drawn (hkeep : ∀ c, keep (Glyph.ofChar c) = false) (pendingDo tail : List α) :
    Drawn keep (S.addDo opts pendingDo tail).statements.flatten
      (S.statements.flatten ++ (pendingDo ++ tail)) := by
  unfold addDo
  split_ifs
  · refine (Drawn.of_sublist (addStatement_sublist opts S _)).trans ?_
    refine Drawn.refl.append (Drawn.refl.append ?_)
    -- the inserted blank does not count
    rw [Drawn, List.filter_cons_of_neg (by simp [hkeep])]
    exact (strip_sublist tail).filter keep
  · have h := (addStatement_sublist opts (S.addStatement opts pendingDo) (strip tail)).trans
      ((addStatement_sublist opts S pendingDo).append (strip_sublist tail))
    rw [List.append_assoc] at h
    exact Drawn.of_sublist h

@[simp] theorem addStatement_mode (stmt : List α) : (S.addStatement opts stmt).mode = S.mode := by
  unfold addStatement
  dsimp only
  split_ifs <;> rfl

@[simp] theorem addStatement_current (stmt : List α) :
    (S.addStatement opts stmt).current = S.current := by
  unfold addStatement
  dsimp only
  split_ifs <;> rfl

@[simp] theorem addDo_current (pendingDo tail : List α) :
    (S.addDo opts pendingDo tail).current = S.current := by
  unfold addDo
  split_ifs <;> simp

@[simp] theorem addComment_current (comment : List α) :
    (S.addComment opts comment).current = S.current := by
  unfold addComment
  split_ifs <;> rfl

@[simp] theorem flush_current : (S.flush opts).current = [] := rfl

@[simp] theorem flush_mode : (S.flush opts).mode = S.mode := addStatement_mode opts S _

/-- Reading in code: what is kept and what is left to read stay in order. -/
theorem readCode_sublist (ss : List (List α)) (current : List α) (depth : ℤ) (c : α)
    (s : List α) :
    let R := (⟨ss, current, depth, .code⟩ : Splitter α).readCode opts c s.head?
    (R.seen ++ R.mode.unread s).Sublist (ss.flatten ++ current ++ c :: s) ∧ R.Tidy := by
  have hnext : s.head?.toList ++ s.drop 1 = s := by cases s <;> rfl
  have hcollect : ∀ depth mode, mode.pending = [] → mode.unread s = s →
      ((⟨ss, current ++ [c], depth, mode⟩ : Splitter α).seen ++ mode.unread s).Sublist
        (ss.flatten ++ current ++ c :: s) := by
    intro depth mode hpending hunread
    simp [seen, hpending, hunread]
  have hflush : ∀ (current' : List α) (rest : List α),
      (((⟨ss, current', depth, .code⟩ : Splitter α).flush opts).statements.flatten ++ rest).Sublist
        (ss.flatten ++ (current' ++ rest)) := by
    intro current' rest
    rw [← List.append_assoc]
    exact (flush_sublist opts ⟨ss, current', depth, .code⟩).append (List.Sublist.refl rest)
  refine readCode_cases opts (⟨ss, current, depth, .code⟩ : Splitter α) c s.head? ?literal
    ?lineComment ?blockComment ?opening ?closing ?doBlock ?block ?semicolon ?directive ?other
  case literal => exact fun quote _ _ _ => ⟨hcollect _ _ rfl rfl, fun h => h.elim⟩
  case lineComment =>
    refine fun _ _ _ => ⟨?_, fun _ => rfl⟩
    simpa [seen, Mode.pending, Mode.unread] using hflush current (c :: s)
  case blockComment =>
    refine fun _ _ _ => ⟨?_, fun _ => rfl⟩
    simpa [seen, Mode.pending, Mode.unread] using hflush current (c :: s)
  case opening => exact fun _ => ⟨hcollect _ _ rfl rfl, fun h => h.elim⟩
  case closing => exact fun _ => ⟨hcollect _ _ rfl rfl, fun h => h.elim⟩
  case doBlock =>
    -- a `do` loop waits for its tail
    refine fun _ _ _ _ => ⟨?_, fun _ => rfl⟩
    have hstrip := (strip_sublist (current ++ c :: s.head?.toList)).append
      (List.Sublist.refl (s.drop 1))
    rw [List.append_assoc, List.cons_append, hnext] at hstrip
    simpa [seen, Mode.pending, Mode.unread] using hstrip
  case block =>
    refine fun _ _ _ _ => ⟨?_, fun _ => rfl⟩
    have hend := hflush (current ++ c :: s.head?.toList) (s.drop 1)
    rw [List.append_assoc, List.cons_append, hnext] at hend
    simpa [seen, Mode.pending, Mode.unread] using hend
  case semicolon =>
    refine fun _ _ => ⟨?_, fun _ => rfl⟩
    simpa [seen, Mode.pending, Mode.unread] using hflush (current ++ [c]) s
  case directive =>
    refine fun _ => ⟨?_, fun _ => rfl⟩
    have hdrop := (hflush current s).trans
      ((List.Sublist.refl ss.flatten).append ((List.Sublist.refl current).append
        (List.sublist_cons_self c s)))
    simpa [seen, Mode.pending, Mode.unread] using hdrop
  case other => exact fun _ _ _ => ⟨hcollect _ _ rfl rfl, fun h => h.elim⟩

/-- Reading one glyph: what is kept and what is left to read stay in order. -/
theorem read_drawn (hkeep : ∀ c, keep (Glyph.ofChar c) = false) (htidy : S.Tidy) (c : α)
    (s : List α) :
    Drawn keep ((S.read opts c s.head?).seen ++ (S.read opts c s.head?).mode.unread s)
        (S.seen ++ S.mode.unread (c :: s)) ∧
      (S.read opts c s.head?).Tidy := by
  obtain ⟨ss, current, depth, mode⟩ := S
  have hnext : s.head?.toList ++ s.drop 1 = s := by cases s <;> rfl
  cases mode with
  | code =>
    obtain ⟨hsub, hR⟩ := readCode_sublist opts ss current depth c s
    refine ⟨Drawn.of_sublist (hsub.trans ?_), hR⟩
    exact List.Sublist.append (List.sublist_append_left _ _) (List.Sublist.refl _)
  | literal quote =>
    dsimp only [Splitter.read]
    split_ifs
    all_goals exact ⟨Drawn.of_sublist (by simp [seen, Mode.pending, Mode.unread]), fun h => h.elim⟩
  | escape quote =>
    exact ⟨Drawn.of_sublist (by simp [seen, Mode.pending, Mode.unread, Splitter.read]),
      fun h => h.elim⟩
  | lineComment comment =>
    obtain rfl : current = [] := htidy trivial
    dsimp only [Splitter.read]
    split_ifs
    · set A := (⟨ss, [], depth, .lineComment comment⟩ : Splitter α).addComment opts comment with hA
      have hadd : A.statements.flatten.Sublist (ss.flatten ++ comment) :=
        addComment_sublist opts _ comment
      obtain ⟨hsub, hR⟩ := readCode_sublist opts A.statements A.current A.depth c s
      refine ⟨Drawn.of_sublist (hsub.trans ?_), hR⟩
      rw [hA, addComment_current, List.append_nil, seen, List.append_nil]
      exact hadd.append (List.Sublist.refl _)
    · exact ⟨Drawn.of_sublist (by simp [seen, Mode.pending, Mode.unread]), fun _ => rfl⟩
  | blockComment comment =>
    obtain rfl : current = [] := htidy trivial
    dsimp only [Splitter.read]
    split_ifs
    · have hadd := (addComment_sublist opts (⟨ss, [], depth, .blockComment comment⟩ : Splitter α)
        (comment ++ c :: s.head?.toList)).append (List.Sublist.refl (s.drop 1))
      rw [List.append_assoc, List.append_assoc, List.cons_append, hnext] at hadd
      refine ⟨Drawn.of_sublist ?_, fun h => h.elim⟩
      simpa [seen, Mode.pending, Mode.unread] using hadd
    · exact ⟨Drawn.of_sublist (by simp [seen, Mode.pending, Mode.unread]), fun _ => rfl⟩
  | doTail pendingDo tail =>
    obtain rfl : current = [] := htidy trivial
    dsimp only [Splitter.read]
    split_ifs
    · exact ⟨Drawn.of_sublist (by simp [seen, Mode.pending, Mode.unread]), fun _ => rfl⟩
    · exact ⟨Drawn.of_sublist (by simp [seen, Mode.pending, Mode.unread]), fun _ => rfl⟩
    · have hadd := (addDo_drawn opts (⟨ss, [], depth, .doTail pendingDo tail⟩ : Splitter α) hkeep
        pendingDo (tail ++ [c])).append (Drawn.refl (s := s))
      refine ⟨?_, fun h => h.elim⟩
      simpa [seen, Mode.pending, Mode.unread] using hadd
    · exact ⟨Drawn.of_sublist (by simp [seen, Mode.pending, Mode.unread]), fun _ => rfl⟩
  | skip next => exact ⟨Drawn.refl, htidy⟩

theorem run_drawn (hkeep : ∀ c, keep (Glyph.ofChar c) = false) (htidy : S.Tidy) (s : List α) :
    Drawn keep (S.run opts s).seen (S.seen ++ S.mode.unread s) ∧ (S.run opts s).Tidy := by
  induction s generalizing S with
  | nil => exact ⟨Drawn.of_sublist (List.sublist_append_left _ _), htidy⟩
  | cons c s ih =>
    obtain ⟨hread, hR⟩ := read_drawn opts S hkeep htidy c s
    obtain ⟨hrun, hend⟩ := ih _ hR
    exact ⟨hrun.trans hread, hend⟩

theorem finish_drawn (hkeep : ∀ c, keep (Glyph.ofChar c) = false) (htidy : S.Tidy) :
    Drawn keep (S.finish opts).flatten S.seen := by
  obtain ⟨ss, current, depth, mode⟩ := S
  have hflush := fun S : Splitter α => flush_sublist opts S
  have hcode : ∀ mode : Mode α,
      Drawn keep ((⟨ss, current, depth, mode⟩ : Splitter α).flush opts).statements.flatten
        (⟨ss, current, depth, mode⟩ : Splitter α).seen := fun mode =>
    Drawn.of_sublist ((hflush _).trans (List.sublist_append_left _ _))
  cases mode with
  | lineComment comment =>
    obtain rfl : current = [] := htidy trivial
    have h := hflush ((⟨ss, [], depth, .lineComment comment⟩ : Splitter α).addComment opts comment)
    rw [addComment_current, List.append_nil] at h
    refine Drawn.of_sublist (h.trans ((addComment_sublist opts _ comment).trans ?_))
    rw [seen, List.append_nil]
    exact List.Sublist.refl _
  | blockComment comment =>
    obtain rfl : current = [] := htidy trivial
    have h := hflush ((⟨ss, [], depth, .blockComment comment⟩ : Splitter α).addComment opts comment)
    rw [addComment_current, List.append_nil] at h
    refine Drawn.of_sublist (h.trans ((addComment_sublist opts _ comment).trans ?_))
    rw [seen, List.append_nil]
    exact List.Sublist.refl _
  | doTail pendingDo tail =>
    obtain rfl : current = [] := htidy trivial
    have h := hflush
      ((⟨ss, [], depth, .doTail pendingDo tail⟩ : Splitter α).addDo opts pendingDo tail)
    rw [addDo_current, List.append_nil] at h
    refine (Drawn.of_sublist h).trans ((addDo_drawn opts _ hkeep pendingDo tail).trans ?_)
    rw [seen, List.append_nil]
    exact Drawn.refl
  | code => exact hcode _
  | literal quote => exact hcode _
  | escape quote => exact hcode _
  | skip next => exact hcode _

end Splitter

variable (keep) in
/-- The statements of a segment keep its glyphs in order. -/
theorem parseStatements_drawn (hkeep : ∀ c, keep (Glyph.ofChar c) = false) (opts : Includes)
    (seg : List α) : Drawn keep (parseStatements opts seg).flatten seg := by
  obtain ⟨hrun, htidy⟩ := Splitter.run_drawn opts (⟨[], [], 0, .code⟩ : Splitter α) hkeep
    (fun h => h.elim) seg
  exact (Splitter.finish_drawn opts _ hkeep htidy).trans hrun

theorem splitLinesFrom_sublist (current s : List α) :
    (splitLinesFrom current s).flatten.Sublist (current ++ s) := by
  fun_induction splitLinesFrom current s with
  | case1 current h => exact List.nil_sublist _
  | case2 current h => simp
  | case3 current c =>
    rw [List.flatten_singleton]
    split_ifs
    · exact List.sublist_append_left _ _
    · exact List.Sublist.refl _
  | case4 current c d s h ih =>
    rw [List.flatten_cons]
    exact (List.Sublist.refl _).append
      (ih.trans ((List.sublist_cons_self d s).trans (List.sublist_cons_self c _)))
  | case5 current c d s h hc ih =>
    rw [List.flatten_cons]
    exact (List.Sublist.refl _).append (ih.trans (List.sublist_cons_self c _))
  | case6 current c d s h hc ih =>
    rwa [List.append_assoc] at ih

/-- A separator that does not count is not drawn. -/
theorem intercalate_drawn (hkeep : ∀ c, keep (Glyph.ofChar c) = false) (c : Char)
    (parts : List (List α)) : Drawn keep ([Glyph.ofChar c].intercalate parts) parts.flatten := by
  induction parts with
  | nil => exact Drawn.refl
  | cons part parts ih =>
    cases parts with
    | nil =>
      rw [List.intercalate_singleton, List.flatten_singleton]
      exact Drawn.refl
    | cons part' parts =>
      rw [List.intercalate_cons_cons, List.append_assoc, List.flatten_cons]
      refine Drawn.refl.append ?_
      rw [Drawn, List.singleton_append, List.filter_cons_of_neg (by simp [hkeep])]
      exact ih

variable (keep) in
theorem cleanSegment_drawn (hkeep : ∀ c, keep (Glyph.ofChar c) = false) (seg : List α) :
    Drawn keep (cleanSegment seg) seg := by
  have hstrip : ∀ lines : List (List α),
      ((lines.filter fun line => !(strip line).isEmpty).map strip).flatten.Sublist
        lines.flatten := by
    intro lines
    induction lines with
    | nil => exact List.nil_sublist _
    | cons line lines ih =>
      rw [List.filter_cons, List.flatten_cons]
      split_ifs
      · rw [List.map_cons, List.flatten_cons]
        exact (strip_sublist line).append ih
      · exact ih.trans (List.sublist_append_right _ _)
  exact (intercalate_drawn hkeep '\n' _).trans
    (Drawn.of_sublist ((hstrip _).trans (splitLinesFrom_sublist [] seg)))

end Order

/-! ### Places of statements -/

/-- The places of some glyphs. -/
def places (s : List SourceGlyph) : List ℕ := s.filterMap SourceGlyph.place

theorem Drawn.places {s t : List SourceGlyph}
    (h : Drawn (fun g => g.place.isSome) s t) : (places s).Sublist (places t) := by
  have hkeep : ∀ s : List SourceGlyph, Csc512.places (s.filter fun g => g.place.isSome)
      = Csc512.places s := by
    intro s
    rw [Csc512.places, List.filterMap_filter]
    refine List.filterMap_congr fun g _ => ?_
    cases g.place <;> rfl
  rw [← hkeep s, ← hkeep t]
  exact h.filterMap _

theorem places_placed (file : Text) : places (placed file) = List.range' 0 file.length := by
  rw [places, placed, List.filterMap_map, ← List.zipIdx_map_snd 0 file]
  exact congrFun List.filterMap_eq_map' _

/-- What the parser finds in a source: the blocks open one after the other, there is a segment for
each and one for the whole source, and the glyphs of the statements of a segment stand in source
order. -/
structure StmtsInOrder (P : SegmentStmts SourceGlyph) : Prop where
  starts : (P.pairs.map Prod.fst).Pairwise (· < ·)
  start_pos : ∀ span ∈ P.pairs, 0 < span.1
  length_stmts : P.stmts.length = P.pairs.length + 1
  placesInOrder : ∀ stmts ∈ P.stmts, (places stmts.flatten).Pairwise (· < ·)

/-- In a source with balanced braces every parent is a segment. -/
structure InOrder (P : SegmentStmts SourceGlyph) : Prop extends StmtsInOrder P where
  parent_lt : ∀ i, P.parents.getD i 0 < P.stmts.length

/-! ### Statements of any source -/

theorem pairOpnClsFrom_spec (marks : List (Option Brace)) (base : ℕ) (stack : List ℕ)
    {pairs : List (ℕ × ℕ)} (hstack : ∀ o ∈ stack, o ≤ base)
    (h : pairOpnClsFrom stack (braceSeq marks) (openIdx base marks) (clsIdx base marks)
      = some pairs) :
    (pairs.map Prod.fst).Subperm (stack ++ openIdx base marks) ∧ ∀ p ∈ pairs, p.1 ≤ p.2 := by
  induction marks generalizing base stack pairs with
  | nil =>
    obtain rfl : [] = pairs := by
      cases stack <;> exact Option.some.inj h
    exact ⟨List.nil_subperm, fun _ hp => absurd hp List.not_mem_nil⟩
  | cons mark marks ih =>
    have hle : ∀ o ∈ stack, o ≤ base + 1 := fun o ho => Nat.le_succ_of_le (hstack o ho)
    rcases mark with _ | _ | _
    case none => exact ih (base + 1) stack hle h
    case some.opening =>
      obtain ⟨hsub, hspan⟩ := ih (base + 1) ((base + 1) :: stack)
        (List.forall_mem_cons.mpr ⟨Nat.le_refl _, hle⟩) h
      exact ⟨hsub.trans (List.perm_middle.symm).subperm, hspan⟩
    case some.closing =>
      cases stack with
      | nil => cases h
      | cons o stack =>
        obtain ⟨pairs, hrest, heq⟩ := Option.bind_eq_some_iff.mp h
        obtain rfl := Option.some.inj heq
        rw [List.forall_mem_cons] at hle hstack
        obtain ⟨hsub, hspan⟩ := ih (base + 1) stack hle.2 hrest
        exact ⟨(List.subperm_cons o).mpr hsub, List.forall_mem_cons.mpr ⟨hstack.1, hspan⟩⟩

theorem pairwise_openIdx (base : ℕ) (marks : List (Option Brace)) :
    (∀ o ∈ openIdx base marks, base < o) ∧ (openIdx base marks).Pairwise (· < ·) := by
  induction marks generalizing base with
  | nil => exact ⟨fun _ ho => absurd ho List.not_mem_nil, List.Pairwise.nil⟩
  | cons mark marks ih =>
    obtain ⟨hlt, hpair⟩ := ih (base + 1)
    have hlt' : ∀ o ∈ openIdx (base + 1) marks, base < o := fun o ho => Nat.lt_of_succ_lt (hlt o ho)
    rcases mark with _ | _ | _
    case none => exact ⟨hlt', hpair⟩
    case some.opening =>
      exact ⟨List.forall_mem_cons.mpr ⟨Nat.lt_succ_self _, hlt'⟩,
        List.pairwise_cons.mpr ⟨hlt, hpair⟩⟩
    case some.closing => exact ⟨hlt', hpair⟩

/-- The pairs of any marks: they open one after the other, and close behind where they open. -/
theorem pairMarks_spec {marks : List (Option Brace)} {pairs : List (ℕ × ℕ)} {parents : List ℕ}
    (h : pairMarks marks = some (pairs, parents)) :
    (pairs.map Prod.fst).Pairwise (· < ·) ∧ ∀ p ∈ pairs, 0 < p.1 ∧ p.1 ≤ p.2 := by
  obtain ⟨closing, hclosing, h⟩ := Option.bind_eq_some_iff.mp h
  obtain ⟨_, -, h⟩ := Option.bind_eq_some_iff.mp h
  obtain ⟨rfl, rfl⟩ := Prod.mk.inj (Option.some.inj h)
  obtain ⟨hsub, hspan⟩ :=
    pairOpnClsFrom_spec marks 0 [] (fun _ ho => absurd ho List.not_mem_nil) hclosing
  obtain ⟨hpos, hpair⟩ := pairwise_openIdx 0 marks
  have hperm : (sortPairs closing).Perm closing := List.perm_insertionSort _ _
  have hnodup : ((sortPairs closing).map Prod.fst).Nodup := by
    rw [(hperm.map Prod.fst).nodup_iff]
    obtain ⟨l, hl, hsublist⟩ := hsub
    exact hl.nodup_iff.mp ((hpair.imp Nat.ne_of_lt).sublist hsublist)
  have hle : ((sortPairs closing).map Prod.fst).Pairwise (· ≤ ·) :=
    List.pairwise_map.mpr
      (List.pairwise_insertionSort (fun a b : ℕ × ℕ => a.1 ≤ b.1) closing)
  refine ⟨(hle.and hnodup).imp fun h => lt_of_le_of_ne h.1 h.2, fun p hp => ?_⟩
  have hp' := hperm.mem_iff.mp hp
  exact ⟨hpos _ (hsub.subset (List.mem_map_of_mem hp')), hspan p hp'⟩

theorem cutOut_sublist {α : Type*} {start stop : ℕ} (h : start ≤ stop) (s : List α) :
    (cutOut start stop s).Sublist s := by
  have hdrop : (s.drop stop).Sublist (s.drop start) := by
    rw [← Nat.add_sub_cancel' h, ← List.drop_drop]
    exact List.drop_sublist _ _
  calc (s.take start ++ s.drop stop).Sublist (s.take start ++ s.drop start) :=
        (List.Sublist.refl _).append hdrop
    _ = s := List.take_append_drop start s

/-- Cutting only takes glyphs away. -/
theorem sublist_parseCodeSegs {α : Type*} (file : List α) {pairs : List (ℕ × ℕ)} (parents : List ℕ)
    (hspan : ∀ p ∈ pairs, p.1 ≤ p.2) :
    ∀ seg ∈ parseCodeSegs file pairs parents, seg.Sublist file := by
  have hget : ∀ i, (pairs.getD i (0, 0)).1 ≤ (pairs.getD i (0, 0)).2 := by
    intro i
    rw [List.getD_eq_getElem?_getD]
    cases hi : pairs[i]? with
    | none => exact Nat.le_refl 0
    | some p => exact hspan p (List.mem_of_getElem? hi)
  have hroot : ∀ (order : List ℕ) (rootSeg : List α), rootSeg.Sublist file →
      (order.foldl (cutRoot pairs parents) rootSeg).Sublist file := by
    intro order
    induction order with
    | nil => exact fun _ h => h
    | cons i order ih =>
      intro rootSeg h
      refine ih _ ?_
      unfold cutRoot
      split_ifs
      · exact (cutOut_sublist (hget i) rootSeg).trans h
      · exact h
  have hchild : ∀ (order : List ℕ) (segs : List (List α)), (∀ seg ∈ segs, seg.Sublist file) →
      ∀ seg ∈ order.foldl (cutChild pairs parents) segs, seg.Sublist file := by
    intro order
    induction order with
    | nil => exact fun _ h => h
    | cons i order ih =>
      intro segs h
      refine ih _ ?_
      dsimp only [cutChild]
      split_ifs
      · intro seg hseg
        rcases List.mem_or_eq_of_mem_set hseg with hseg | rfl
        · exact h seg hseg
        · refine (cutOut_sublist (Nat.sub_le_sub_right (hget i) _) _).trans ?_
          rw [List.getD_eq_getElem?_getD]
          cases hp : segs[parents.getD i 0]? with
          | none => exact List.nil_sublist _
          | some seg => exact h seg (List.mem_of_getElem? hp)
      · exact h
  intro seg hseg
  rcases List.mem_cons.mp hseg with rfl | hseg
  · exact hroot _ _ (List.Sublist.refl _)
  · refine hchild _ _ (fun seg hseg => ?_) seg hseg
    obtain ⟨p, -, rfl⟩ := List.mem_map.mp hseg
    exact (List.drop_sublist _ _).trans (List.take_sublist _ _)

theorem length_parseCodeSegs {α : Type*} (file : List α) (pairs : List (ℕ × ℕ))
    (parents : List ℕ) : (parseCodeSegs file pairs parents).length = pairs.length + 1 := by
  have hlen : ∀ (order : List ℕ) (segs : List (List α)),
      (order.foldl (cutChild pairs parents) segs).length = segs.length := by
    intro order
    induction order with
    | nil => exact fun _ => rfl
    | cons i order ih =>
      intro segs
      rw [List.foldl_cons, ih]
      dsimp only [cutChild]
      split_ifs
      · exact List.length_set
      · rfl
  rw [parseCodeSegs, List.length_cons, hlen, List.length_map]

/-- **The statements of any source** that the parser accepts are in order. -/
theorem stmtsInOrder_segmentStmts {opts : Includes} {file : Text} {P : SegmentStmts SourceGlyph}
    (hP : segmentStmts opts (placed file) = some P) : StmtsInOrder P := by
  have hkeep : ∀ c, Option.isSome (Glyph.ofChar c : SourceGlyph).place = false := fun _ => rfl
  rw [segmentStmts, text_placed] at hP
  obtain ⟨⟨pairs, parents⟩, hpairs, hP⟩ := Option.bind_eq_some_iff.mp hP
  obtain ⟨p, -, hP⟩ := Option.bind_eq_some_iff.mp hP
  split_ifs at hP
  obtain rfl := Option.some.inj hP
  obtain ⟨hstarts, hspan⟩ := pairMarks_spec hpairs
  refine ⟨hstarts, fun span h => (hspan span h).1, ?_, ?_⟩
  · rw [List.length_map, length_parseCodeSegs]
  · intro stmts hstmts
    obtain ⟨seg, hmem, rfl⟩ := List.mem_map.mp hstmts
    have hsub := sublist_parseCodeSegs (placed file) parents (fun p hp => (hspan p hp).2) seg hmem
    have hclean := cleanSegment_drawn (fun g : SourceGlyph => g.place.isSome) hkeep seg
    have hparse := parseStatements_drawn (fun g : SourceGlyph => g.place.isSome) hkeep opts
      (cleanSegment seg)
    have hdrawn := hparse.trans (hclean.trans (Drawn.of_sublist hsub))
    refine List.Pairwise.sublist hdrawn.places ?_
    rw [places_placed]
    exact List.pairwise_lt_range'

/-! ### Parents in a balanced source -/

/-- The pairs and parents of balanced marks are those of a tree. -/
theorem pairMarks_braced {α : Type*} (t : Braced α) :
    pairMarks t.marks
      = some ((t.blocks none 0 0).map Block.span, (t.blocks none 0 0).map Block.parent) := by
  have hpairs := pairOpnCls_braced t
  rw [Option.map_eq_some_iff] at hpairs
  obtain ⟨pairs, hpairs, hsorted⟩ := hpairs
  simp [pairMarks, hpairs, findNestedPairs_braced, hsorted]

theorem length_run (S : BraceScan) (s : Text) : (S.run s).length = s.length := by
  induction s generalizing S with
  | nil => rfl
  | cons c s ih => rw [BraceScan.run, List.length_cons, ih, List.length_cons]

theorem inOrder_segmentStmts {opts : Includes} {file : Text}
    (hbalanced : Balanced (braceMarks (scanBrackets file))) {P : SegmentStmts SourceGlyph}
    (hP : segmentStmts opts (placed file) = some P) : InOrder P := by
  have hlen : (braceMarks (scanBrackets file)).length = (placed file).length := by
    rw [braceMarks, List.length_map, scanBrackets, length_run, placed, List.length_map,
      List.length_zipIdx]
  obtain ⟨t, hsource, hmarks⟩ := Braced.exists_braced hlen hbalanced
  have hsegs : parseCodeSegs (placed file) ((t.blocks none 0 0).map Block.span)
      ((t.blocks none 0 0).map Block.parent) = t.emptied :: t.bodies.map Braced.emptied := by
    rw [← hsource, parseCodeSegs_braced]
  refine ⟨stmtsInOrder_segmentStmts hP, ?_⟩
  simp only [segmentStmts, text_placed, ← hmarks, pairMarks_braced, Option.bind_some,
    Option.bind_eq_some_iff] at hP
  obtain ⟨p, -, hP⟩ := hP
  split_ifs at hP
  obtain rfl := Option.some.inj hP
  rw [hsegs]
  intro i
  cases i with
  | zero => simp
  | succ i =>
    simp only [List.getD_eq_getElem?_getD, List.getElem?_cons_succ, List.getElem?_map,
      List.getElem?_zipIdx, Nat.zero_add]
    cases hx : (t.blocks none 0 0)[i]? with
    | none => simp
    | some x =>
      have hindex := Braced.index_of_getElem? hx
      have hlt := (Braced.index_mem_blocks (List.mem_of_getElem? hx)).2
      have hparent := Braced.parent_mem_blocks (List.mem_of_getElem? hx)
      rw [Option.getD_none] at hparent
      simp only [Option.map_some, Option.getD_some, List.length_map, List.length_cons,
        Braced.length_bodies]
      split_ifs <;> omega

end Csc512
