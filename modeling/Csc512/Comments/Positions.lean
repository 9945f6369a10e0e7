import Csc512.Comments.Extractor
import Mathlib.Data.List.TakeWhile

/-!
# Places of comments

The scanner keeps an index into the text with the line and the column of that place, and moves all
three with one helper: over a literal, over a comment, or by one character. Behind a line comment it
moves by one character more, which can lead past the end of the text.

## Main results

* `run_eq_some` — the scanner comes to the end of every text
* `map_comment_run` — it finds the comments that `scanFrom` finds
* `locatesComments` — where the comments are
-/

namespace Csc512

namespace Extractor

/-! ### The loop -/

/-- A comment with its token and the part of the text that it takes. -/
structure Located where
  comment : Comment
  token : Text
  start : ℕ
  stop : ℕ
deriving DecidableEq, Repr

/-- The state of the scanner. -/
structure Scanner where
  i : ℕ := 0
  place : Place := {}
  comments : List Located := []
deriving DecidableEq, Repr

/-- The first place of a token in a text, from an index on. -/
def find (src token : Text) (start : ℕ) : Option ℕ :=
  (cut token (src.drop start)).map fun p => start + p.1.length

/-- Advance through the text while tracking line and column. -/
def Scanner.advance (src : Text) (S : Scanner) (target : ℕ) : Scanner :=
  { S with i := target, place := S.place.advance ((src.take target).drop S.i) }

/-- Record a comment that begins here, and advance behind it. -/
def Scanner.record (src : Text) (S : Scanner) (type : CommentType) (token content : Text)
    (target : ℕ) : Scanner :=
  let comment : Located :=
    ⟨⟨strip content, S.place.line, S.place.column, type⟩, token, S.i, target⟩
  Scanner.advance src { S with comments := S.comments ++ [comment] } target

section Step

variable (T : CommentTokens) (src : Text)

/-- One round of the loop. -/
def Scanner.step (S : Scanner) : Scanner :=
  match quoteTokens.find? fun q => startsWith (src.drop S.i) q with
  | some q =>
    match find src q (S.i + q.length) with
    | some stop => S.advance src (stop + q.length)
    | none => S.advance src src.length
  | none =>
    match T.block.find? fun b => startsWith (src.drop S.i) b.1 with
    | some (start, endToken) =>
      match find src endToken (S.i + start.length) with
      | some stop => S.record src .block start ((src.take stop).drop (S.i + start.length))
          (stop + endToken.length)
      | none => S.record src .block start (src.drop (S.i + start.length)) src.length
    | none =>
      match T.line.find? fun t => startsWith (src.drop S.i) t with
      | some token =>
        match find src ['\n'] S.i with
        | some stop =>
          (S.record src .line token ((src.take stop).drop (S.i + token.length)) stop).advance src
            (stop + 1)
        | none =>
          (S.record src .line token (src.drop (S.i + token.length)) src.length).advance src
            (src.length + 1)
      | none => S.advance src (S.i + 1)

/-- The loop, with `n` rounds at most. -/
def Scanner.run : ℕ → Scanner → Option Scanner
  | 0, S => if S.i < src.length then none else some S
  | n + 1, S => if S.i < src.length then run n (S.step T src) else some S

end Step

/-- A table without empty tokens. -/
structure CommentTokens.Nonempty (T : CommentTokens) : Prop where
  line : [] ∉ T.line
  block : ∀ b ∈ T.block, b.1 ≠ [] ∧ b.2 ≠ []

/-! ### Places -/

/-- The place of an index: one plus the number of line breaks before it, and the number of
characters between the last of them, or the start, and the index. -/
def placeOf (src : Text) (i : ℕ) : Place :=
  ⟨1 + (src.take i).count '\n', ((src.take i).rtakeWhile (· ≠ '\n')).length⟩

theorem length_rtakeWhile_append (s t : Text) :
    ((s ++ t).rtakeWhile (· ≠ '\n')).length = if '\n' ∈ t then (t.rtakeWhile (· ≠ '\n')).length
      else (s.rtakeWhile (· ≠ '\n')).length + t.length := by
  rw [List.rtakeWhile, List.rtakeWhile, List.rtakeWhile, List.length_reverse, List.length_reverse,
    List.length_reverse, List.reverse_append]
  by_cases h : '\n' ∈ t
  · rw [if_pos h, List.takeWhile_append, if_neg]
    intro hall
    have hmem := (List.takeWhile_eq_self_iff (p := fun c : Char => decide (c ≠ '\n'))).mp
      (List.takeWhile_prefix _ |>.eq_of_length hall) '\n' (List.mem_reverse.mpr h)
    cases hmem
  · have hall : ∀ c ∈ t.reverse, decide (c ≠ '\n') = true := fun c hc =>
      decide_eq_true fun heq => h (heq ▸ List.mem_reverse.mp hc)
    rw [if_neg h, List.takeWhile_append_of_pos hall, List.length_append, List.length_reverse,
      Nat.add_comm]

/-- **The helper keeps the place.** -/
theorem advance_placeOf (src : Text) {i target : ℕ} (h : i ≤ target) :
    (placeOf src i).advance ((src.take target).drop i) = placeOf src target := by
  have hsplit : src.take target = src.take i ++ (src.take target).drop i := by
    conv_lhs => rw [← List.take_append_drop i (src.take target), List.take_take, Nat.min_eq_left h]
  rw [placeOf, placeOf, Place.advance]
  conv_rhs => rw [hsplit, List.count_append, length_rtakeWhile_append]
  generalize (src.take target).drop i = segment
  by_cases hmem : '\n' ∈ segment
  · rw [if_pos hmem, if_pos hmem, Nat.add_assoc, List.rtakeWhile, List.length_reverse]
  · rw [if_neg hmem, if_neg hmem, List.count_eq_zero.mpr hmem, Nat.add_zero]

/-- An occurrence that is found is in the text. -/
theorem find_eq_some {src token : Text} {start stop : ℕ} (h : find src token start = some stop) :
    ∃ before after, src.drop start = before ++ token ++ after ∧ stop = start + before.length := by
  obtain ⟨⟨before, after⟩, hcut, rfl⟩ := Option.map_eq_some_iff.mp h
  exact ⟨before, after, eq_of_cut hcut, rfl⟩

theorem add_length_le_of_find {src token : Text} {start stop : ℕ} (hne : token ≠ [])
    (h : find src token start = some stop) : start ≤ stop ∧ stop + token.length ≤ src.length := by
  obtain ⟨before, after, heq, rfl⟩ := find_eq_some h
  have hlen := congrArg List.length heq
  have hpos := List.length_pos_of_ne_nil hne
  simp only [List.length_drop, List.length_append] at hlen
  omega

/-- A token that a text begins with fits into it. -/
theorem add_length_le_of_startsWith {src token : Text} {i : ℕ} (hi : i < src.length)
    (h : startsWith (src.drop i) token) : i + token.length ≤ src.length := by
  have hle := (List.isPrefixOf_iff_prefix.mp h).length_le
  rw [text_self, List.length_drop] at hle
  omega

/-- A token without line breaks ends on its line. -/
theorem add_length_le_of_line {src token : Text} {i stop : ℕ} (hbreak : '\n' ∉ token)
    (h : startsWith (src.drop i) token) (hstop : find src ['\n'] i = some stop) :
    i + token.length ≤ stop := by
  obtain ⟨before, after, heq, rfl⟩ := find_eq_some hstop
  rw [startsWith, text_self, heq, List.append_assoc, List.singleton_append,
    isPrefixOf_append_stop hbreak] at h
  have hle := (List.isPrefixOf_iff_prefix.mp h).length_le
  omega

/-! ### One round -/

section Rounds

variable {T : CommentTokens} {src : Text}

/-- **What one round can do**: pass over something, or over a block comment, or over a line comment
and one more character. -/
theorem step_cases (hT : T.Nonempty) {S : Scanner} (hi : S.i < src.length) :
    (∃ stop, S.i < stop ∧ S.step T src = S.advance src stop) ∨
    (∃ b ∈ T.block, ∃ content stop, startsWith (src.drop S.i) b.1 ∧ S.i < stop ∧
      stop ≤ src.length ∧ S.i + b.1.length ≤ stop ∧
      S.step T src = S.record src .block b.1 content stop) ∨
    ∃ token ∈ T.line, ∃ content stop, startsWith (src.drop S.i) token ∧ S.i ≤ stop ∧
      stop ≤ src.length ∧ ('\n' ∉ token → S.i + token.length ≤ stop) ∧
      S.step T src = (S.record src .line token content stop).advance src (stop + 1) := by
  rw [Scanner.step]
  split
  · rename_i q hq
    have hne : q ≠ [] := (by decide : ∀ q ∈ quoteTokens, q ≠ []) q (List.mem_of_find?_eq_some hq)
    have hpos := List.length_pos_of_ne_nil hne
    left
    split
    · rename_i stop hstop
      have hle := add_length_le_of_find hne hstop
      exact ⟨stop + q.length, by omega, rfl⟩
    · exact ⟨src.length, hi, rfl⟩
  split
  · rename_i start endToken hb
    have hmem := List.mem_of_find?_eq_some hb
    have hstarts : startsWith (src.drop S.i) start := by simpa using List.find?_some hb
    obtain ⟨hne, hne'⟩ : start ≠ [] ∧ endToken ≠ [] := hT.block _ hmem
    have hpos := List.length_pos_of_ne_nil hne
    refine .inr (.inl ⟨_, hmem, ?_⟩)
    split
    · rename_i stop hstop
      have hle := add_length_le_of_find hne' hstop
      exact ⟨_, _, hstarts, by omega, hle.2, by dsimp only; omega, rfl⟩
    · exact ⟨_, _, hstarts, hi, le_rfl, add_length_le_of_startsWith hi hstarts, rfl⟩
  split
  · rename_i token htoken
    have hmem := List.mem_of_find?_eq_some htoken
    have hstarts : startsWith (src.drop S.i) token := by simpa using List.find?_some htoken
    refine .inr (.inr ⟨_, hmem, ?_⟩)
    split
    · rename_i stop hstop
      have hle := add_length_le_of_find (List.cons_ne_nil _ _) hstop
      rw [List.length_singleton] at hle
      exact ⟨_, _, hstarts, hle.1, by omega,
        fun hbreak => add_length_le_of_line hbreak hstarts hstop, rfl⟩
    · exact ⟨_, _, hstarts, hi.le, le_rfl, fun _ => add_length_le_of_startsWith hi hstarts, rfl⟩
  · exact .inl ⟨S.i + 1, Nat.lt_succ_self _, rfl⟩

/-- **A comment is where it is recorded**: its token begins there, with one plus the number of line
breaks before it as its line and the distance from the last one as its column. -/
structure Located.Ok (T : CommentTokens) (src : Text) (f : Located) : Prop where
  start : f.start < src.length
  stop : f.start ≤ f.stop ∧ f.stop ≤ src.length
  token : f.comment.type = .block ∧ f.token ∈ T.block.map Prod.fst ∨
    f.comment.type = .line ∧ f.token ∈ T.line
  startsWith : f.token <+: src.drop f.start
  span : '\n' ∉ f.token ∨ f.comment.type = .block → f.token <+: (src.take f.stop).drop f.start
  line : f.comment.line = 1 + (src.take f.start).count '\n'
  column : f.comment.column = ((src.take f.start).rtakeWhile (· ≠ '\n')).length

/-- Does a comment end before another one begins? -/
def Located.Before (f g : Located) : Prop := f.stop ≤ g.start ∧ f.start < g.start

/-- What holds at the beginning of every round. -/
structure Scanner.Invariant (T : CommentTokens) (src : Text) (S : Scanner) : Prop where
  place : S.place = placeOf src S.i
  comments : ∀ f ∈ S.comments, f.Ok T src
  order : S.comments.Pairwise Located.Before
  behind : ∀ f ∈ S.comments, f.stop ≤ S.i ∧ f.start < S.i

theorem Scanner.Invariant.advance {S : Scanner} (h : S.Invariant T src) {target : ℕ}
    (hle : S.i ≤ target) : (S.advance src target).Invariant T src where
  place := (congrArg (Place.advance · _) h.place).trans (advance_placeOf src hle)
  comments := h.comments
  order := h.order
  behind f hf := (h.behind f hf).imp (·.trans hle) (·.trans_le hle)

/-- A token in front of a place is in the part of the text before it. -/
theorem prefix_span {token : Text} {i stop : ℕ} (h : startsWith (src.drop i) token)
    (hle : i + token.length ≤ stop) : token <+: (src.take stop).drop i := by
  rw [startsWith, text_self, List.isPrefixOf_iff_prefix] at h
  obtain ⟨rest, hrest⟩ := h
  rw [List.drop_take, ← hrest, List.take_append, List.take_of_length_le (by omega)]
  exact List.prefix_append _ _

theorem Scanner.Invariant.record {S : Scanner} (h : S.Invariant T src) (hi : S.i < src.length)
    {type : CommentType} {token content : Text} {stop : ℕ} (hle : S.i ≤ stop)
    (hstop : stop ≤ src.length) (hstarts : startsWith (src.drop S.i) token)
    (htoken : type = .block ∧ token ∈ T.block.map Prod.fst ∨ type = .line ∧ token ∈ T.line)
    (hspan : '\n' ∉ token ∨ type = .block → S.i + token.length ≤ stop) {next : ℕ}
    (hnext : stop ≤ next) (hmoves : S.i < next) :
    ((S.record src type token content stop).advance src next).Invariant T src where
  place := by
    show ((S.place.advance _).advance _) = _
    rw [h.place, advance_placeOf src hle]
    exact advance_placeOf src hnext
  comments := by
    refine List.forall_mem_append.mpr ⟨h.comments, List.forall_mem_singleton.mpr ?_⟩
    exact {
      start := hi
      stop := ⟨hle, hstop⟩
      token := htoken
      startsWith := by simpa [startsWith] using hstarts
      span := fun hor => prefix_span hstarts (hspan hor)
      line := congrArg Place.line h.place
      column := congrArg Place.column h.place }
  order := by
    refine List.pairwise_append.mpr ⟨h.order, List.pairwise_singleton _ _, fun f hf g hg => ?_⟩
    obtain rfl := List.mem_singleton.mp hg
    exact h.behind f hf
  behind := by
    refine List.forall_mem_append.mpr ⟨fun f hf => ?_, List.forall_mem_singleton.mpr ?_⟩
    · have hf := h.behind f hf
      exact ⟨hf.1.trans (hle.trans hnext), hf.2.trans hmoves⟩
    · exact ⟨hnext, hmoves⟩

/-- **One round keeps the invariant** and moves on. -/
theorem Scanner.Invariant.step (hT : T.Nonempty) {S : Scanner} (h : S.Invariant T src)
    (hi : S.i < src.length) : (S.step T src).Invariant T src ∧ S.i < (S.step T src).i := by
  rcases step_cases hT hi with ⟨stop, hlt, hstep⟩ |
      ⟨b, hb, content, stop, hstarts, hlt, hle, htoken, hstep⟩ |
      ⟨token, ht, content, stop, hstarts, hlt, hle, htoken, hstep⟩
  · rw [hstep]
    exact ⟨h.advance hlt.le, hlt⟩
  · rw [hstep]
    have hsame : (S.record src .block b.1 content stop).advance src stop
        = S.record src .block b.1 content stop := by
      simp [Scanner.record, Scanner.advance, Place.advance]
    rw [← hsame]
    exact ⟨h.record hi hlt.le hle hstarts (.inl ⟨rfl, List.mem_map_of_mem hb⟩) (fun _ => htoken)
      le_rfl hlt, hlt⟩
  · rw [hstep]
    refine ⟨h.record hi hlt hle hstarts (.inr ⟨rfl, ht⟩) ?_ (Nat.le_succ _)
      (Nat.lt_succ_of_le hlt), Nat.lt_succ_of_le hlt⟩
    rintro (hbreak | ⟨⟨⟩⟩)
    exact htoken hbreak

theorem invariant_start : ({} : Scanner).Invariant T src where
  place := rfl
  comments := nofun
  order := .nil
  behind := nofun

/-- **The loop comes to an end**, whatever the text. -/
theorem run_eq_some (hT : T.Nonempty) {n : ℕ} {S : Scanner} (h : S.Invariant T src)
    (hn : src.length ≤ S.i + n) :
    ∃ S', (∀ m ≥ n, S.run T src m = some S') ∧ S'.Invariant T src ∧ src.length ≤ S'.i := by
  induction n generalizing S with
  | zero =>
    have hend : ¬ S.i < src.length := by omega
    refine ⟨S, fun m _ => ?_, h, by omega⟩
    cases m <;> rw [Scanner.run, if_neg hend]
  | succ n ih =>
    by_cases hi : S.i < src.length
    · obtain ⟨hnext, hlt⟩ := h.step hT hi
      obtain ⟨S', hrun, hS'⟩ := ih hnext (by omega)
      refine ⟨S', fun m hm => ?_, hS'⟩
      obtain ⟨m, rfl⟩ := Nat.exists_eq_add_of_le' (by omega : 1 ≤ m)
      rw [Scanner.run, if_pos hi, hrun m (by omega)]
    · refine ⟨S, fun m _ => ?_, h, by omega⟩
      cases m <;> rw [Scanner.run, if_neg hi]

/-! ### The comments that are found -/

/-- A part of the text from an index on. -/
theorem part_of_append {i : ℕ} {a b : Text} (h : src.drop i = a ++ b) :
    (src.take (i + a.length)).drop i = a ∧ src.drop (i + a.length) = b := by
  constructor
  · rw [List.drop_take, h, Nat.add_sub_cancel_left, List.take_left]
  · rw [← List.drop_drop, h, List.drop_left]

theorem advance_of_append {S : Scanner} {a b : Text} (h : src.drop S.i = a ++ b) :
    S.advance src (S.i + a.length)
      = { S with i := S.i + a.length, place := S.place.advance a } := by
  rw [Scanner.advance, (part_of_append h).1]

theorem record_of_append {S : Scanner} {type : CommentType} {token content a b : Text}
    (h : src.drop S.i = a ++ b) : S.record src type token content (S.i + a.length)
      = { i := S.i + a.length, place := S.place.advance a, comments := S.comments ++
        [⟨⟨strip content, S.place.line, S.place.column, type⟩, token, S.i, S.i + a.length⟩] } := by
  rw [Scanner.record]
  exact advance_of_append (S := { S with comments := S.comments ++ _ }) h

theorem find_add {i : ℕ} {here : Text} (h : src.drop i = here) (token : Text) (k : ℕ) :
    find src token (i + k) = (cut token (here.drop k)).map fun p => i + k + p.1.length := by
  rw [find, ← h, List.drop_drop]

theorem eq_append_of_startsWith {token s : Text} (h : startsWith s token) :
    s = token ++ s.drop token.length := by
  rw [startsWith, text_self, List.isPrefixOf_iff_prefix] at h
  obtain ⟨rest, rfl⟩ := h
  rw [List.drop_left]

theorem scanFrom_nil (n : ℕ) (p : Place) : scanFrom T n p [] = [] := by
  cases n <;> rfl

/-- **One round finds what `scanFrom` finds** first. -/
theorem scanFrom_step {S : Scanner} {c : Char} {s : Text} (hs : src.drop S.i = c :: s) (n : ℕ) :
    ∃ new : List Found, (S.step T src).comments.map Located.comment
        = S.comments.map Located.comment ++ new.map Found.comment ∧
      scanFrom T (n + 1) S.place (c :: s)
        = new ++ scanFrom T n (S.step T src).place (src.drop (S.step T src).i) := by
  have hend : src.drop (S.i + (c :: s).length) = [] :=
    (part_of_append (a := c :: s) (b := []) (by rw [hs, List.append_nil])).2
  have hlength : src.length = S.i + (c :: s).length := by
    have hlen := congrArg List.length hs
    rw [List.length_drop, List.length_cons] at hlen
    rw [List.length_cons]
    omega
  have hall : src.drop S.i = (c :: s) ++ [] := by rw [hs, List.append_nil]
  rw [scanFrom, Scanner.step, hs]
  cases hq : quoteTokens.find? fun q => startsWith (c :: s) q with
  | some q =>
    have hstarts : startsWith (c :: s) q := by simpa using List.find?_some hq
    dsimp only
    rw [find_add hs]
    cases hcut : cut q ((c :: s).drop q.length) with
    | none =>
      refine ⟨[], by rw [List.map_nil, List.append_nil]; rfl, ?_⟩
      rw [hlength]
      show [] = [] ++ scanFrom T n _ (src.drop (S.i + (c :: s).length))
      rw [hend, scanFrom_nil]
      rfl
    | some p =>
      obtain ⟨body, rest⟩ := p
      have heq : src.drop S.i = (q ++ body ++ q) ++ rest := by
        rw [hs, eq_append_of_startsWith hstarts, eq_of_cut hcut]
        simp
      have hstop : S.i + q.length + body.length + q.length = S.i + (q ++ body ++ q).length := by
        simp only [List.length_append]
        omega
      refine ⟨[], by rw [List.map_nil, List.append_nil]; rfl, ?_⟩
      dsimp only [Option.map_some]
      rw [hstop, advance_of_append heq, (part_of_append heq).2]
      rfl
  | none =>
    cases hb : T.block.find? fun b => startsWith (c :: s) b.1 with
    | some b =>
      obtain ⟨start, endToken⟩ := b
      have hstarts : startsWith (c :: s) start := by simpa using List.find?_some hb
      dsimp only
      rw [find_add hs]
      cases hcut : cut endToken ((c :: s).drop start.length) with
      | none =>
        dsimp only [Option.map_none]
        rw [hlength, record_of_append hall, hend, scanFrom_nil]
        refine ⟨_, ?_, (List.append_nil _).symm⟩
        rw [List.map_append, ← List.drop_drop, hs]
        rfl
      | some p =>
        obtain ⟨body, rest⟩ := p
        have heq : src.drop S.i = (start ++ body ++ endToken) ++ rest := by
          rw [hs, eq_append_of_startsWith hstarts, eq_of_cut hcut]
          simp
        have hstop : S.i + start.length + body.length + endToken.length
            = S.i + (start ++ body ++ endToken).length := by
          simp only [List.length_append]
          omega
        have hbody : (src.take (S.i + start.length + body.length)).drop (S.i + start.length)
            = body := by
          refine (part_of_append (b := endToken ++ rest) ?_).1
          rw [← List.drop_drop, heq]
          simp
        dsimp only [Option.map_some]
        rw [hstop, hbody, record_of_append heq, (part_of_append heq).2]
        refine ⟨[found S.place .block body (start ++ body ++ endToken)], ?_, rfl⟩
        rw [List.map_append]
        rfl
    | none =>
      dsimp only
      cases ht : T.line.find? fun t => startsWith (c :: s) t with
      | some token =>
        dsimp only
        have hfind : find src ['\n'] S.i = (cut ['\n'] (c :: s)).map fun p => S.i + p.1.length :=
          find_add hs ['\n'] 0
        rw [hfind]
        cases hcut : cut ['\n'] (c :: s) with
        | none =>
          dsimp only [Option.map_none]
          rw [hlength, record_of_append hall]
          have hbehind : src.drop (S.i + (c :: s).length + 1) = [] := by
            rw [← List.drop_drop, hend]
            rfl
          refine ⟨[found S.place .line ((c :: s).drop token.length) (c :: s)], ?_, ?_⟩
          · show (S.comments ++ [_]).map Located.comment = _
            rw [List.map_append, ← List.drop_drop, hs]
            rfl
          · show _ = _ ++ scanFrom T n _ (src.drop (S.i + (c :: s).length + 1))
            rw [hbehind, scanFrom_nil]
            rfl
        | some p =>
          obtain ⟨source, rest⟩ := p
          have heq : src.drop S.i = source ++ ('\n' :: rest) := by
            rw [hs, eq_of_cut hcut]
            simp
          have hcontent : (src.take (S.i + source.length)).drop (S.i + token.length)
              = source.drop token.length := by
            rw [← List.drop_drop, (part_of_append heq).1]
          dsimp only [Option.map_some]
          rw [hcontent, record_of_append heq]
          have hbreak : src.drop (S.i + source.length) = ['\n'] ++ rest := (part_of_append heq).2
          have hplace : ∀ R : Scanner, R.i = S.i + source.length →
              (R.advance src (S.i + source.length + 1)).place = R.place.advance ['\n'] := by
            intro R hR
            rw [← hR] at hbreak ⊢
            exact congrArg Scanner.place (advance_of_append (a := ['\n']) hbreak)
          refine ⟨[found S.place .line (source.drop token.length) source], ?_, ?_⟩
          · show (S.comments ++ [_]).map Located.comment = _
            rw [List.map_append]
            rfl
          · rw [hplace _ rfl]
            show _ = _ ++ scanFrom T n _ (src.drop (S.i + source.length + ['\n'].length))
            rw [(part_of_append hbreak).2]
            rfl
      | none =>
        have heq : src.drop S.i = [c] ++ s := hs
        refine ⟨[], by rw [List.map_nil, List.append_nil]; rfl, ?_⟩
        show _ = [] ++ scanFrom T n (S.advance src (S.i + [c].length)).place
          (src.drop (S.i + [c].length))
        rw [advance_of_append heq, (part_of_append heq).2]
        rfl

/-- **The loop finds the comments that `scanFrom` finds.** -/
theorem map_comment_run (hT : T.Nonempty) {n m : ℕ} {S S' : Scanner} (h : S.Invariant T src)
    (hn : src.length ≤ S.i + n) (hm : src.length ≤ S.i + m) (hrun : S.run T src n = some S') :
    S'.comments.map Located.comment
      = S.comments.map Located.comment ++ (scanFrom T m S.place (src.drop S.i)).map
        Found.comment := by
  induction n generalizing S m with
  | zero =>
    have hend : ¬ S.i < src.length := by omega
    rw [Scanner.run, if_neg hend] at hrun
    obtain rfl := Option.some.inj hrun
    rw [List.drop_eq_nil_of_le (by omega), scanFrom_nil, List.map_nil, List.append_nil]
  | succ n ih =>
    rw [Scanner.run] at hrun
    by_cases hi : S.i < src.length
    · rw [if_pos hi] at hrun
      obtain ⟨hnext, hlt⟩ := h.step hT hi
      obtain ⟨m, rfl⟩ := Nat.exists_eq_add_of_le' (by omega : 1 ≤ m)
      obtain ⟨c, s, hs⟩ := List.exists_cons_of_ne_nil
        (List.ne_nil_of_length_pos (by rw [List.length_drop]; omega : 0 < (src.drop S.i).length))
      obtain ⟨new, hcomments, hscan⟩ := scanFrom_step (T := T) hs m
      rw [ih hnext (by omega) (by omega : src.length ≤ (S.step T src).i + m) hrun, hcomments, hs, hscan, List.map_append,
        List.append_assoc]
    · rw [if_neg hi] at hrun
      obtain rfl := Option.some.inj hrun
      rw [List.drop_eq_nil_of_le (by omega), scanFrom_nil, List.map_nil, List.append_nil]

end Rounds

/-- The scanner comes to an end. The comments that it finds take parts of the text that do not
overlap, one behind the other, and each is where it is recorded. -/
def LocatesComments (T : CommentTokens) (src : Text) : Prop :=
  ∃ S : Scanner, (∀ n ≥ src.length, ({} : Scanner).run T src n = some S) ∧
    S.comments.map Located.comment = (scanFrom T src.length {} src).map Found.comment ∧
    S.comments.Pairwise Located.Before ∧ ∀ f ∈ S.comments, f.Ok T src

/-- **Places of comments.** -/
theorem locatesComments {T : CommentTokens} (hT : T.Nonempty) (src : Text) :
    LocatesComments T src := by
  have hstart : Scanner.Invariant T src {} := invariant_start
  obtain ⟨S, hrun, hS, -⟩ := run_eq_some hT hstart (n := src.length) (Nat.le_add_left _ _)
  refine ⟨S, hrun, ?_, hS.order, hS.comments⟩
  exact map_comment_run hT hstart (Nat.le_add_left _ _) (Nat.le_add_left _ _) (hrun _ le_rfl)

/-- A text with a block comment, and a line comment at its end. -/
theorem locatesComments_sample :
    LocatesComments (commentTokens (lit ".c")) (lit "/* one */ int a;\n  // two") :=
  locatesComments ⟨by decide, by decide⟩ _

end Extractor

end Csc512
