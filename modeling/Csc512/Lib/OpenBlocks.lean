import Csc512.Lib.Braced

/-!
# A place in a text with nested braces

A place cuts a marked text in two. Some blocks are open there; `textSoFar` is the text of the
innermost one up to the place and `restOfBlock` its text from there on, both with the blocks in them
emptied. What is inserted at the place goes between the two and changes no other block.

## Main results

* `exists_braced_around` — the texts of the blocks when something is inserted at a place
-/

namespace Csc512

variable {α : Type*}

/-- A text with its marks. -/
abbrev MarkedText (α : Type*) := List (α × Option Brace)

/-! ### The block that is open at a place -/

/-- Read a glyph; `texts` are the texts so far of the open blocks, the innermost first. -/
def readMark (texts : List (List α)) (a : α × Option Brace) : List (List α) :=
  match a.2, texts with
  | none, t :: ts => (t ++ [a.1]) :: ts
  | some .opening, t :: ts => [] :: (t ++ [a.1]) :: ts
  | some .closing, _ :: t :: ts => (t ++ [a.1]) :: ts
  | _, texts => texts

/-- The text so far of the block that is open behind a text. -/
def textSoFar (u : MarkedText α) : List α := (u.foldl readMark [[]]).headD []

/-- The text of a block from here to its end; `depth` blocks in it are open. -/
def restFrom : ℕ → MarkedText α → List α
  | _, [] => []
  | 0, (a, none) :: v => a :: restFrom 0 v
  | 0, (a, some .opening) :: v => a :: restFrom 1 v
  | 0, (_, some .closing) :: _ => []
  | depth + 1, (_, none) :: v => restFrom (depth + 1) v
  | depth + 1, (_, some .opening) :: v => restFrom (depth + 2) v
  | 1, (a, some .closing) :: v => a :: restFrom 0 v
  | depth + 2, (_, some .closing) :: v => restFrom (depth + 1) v

/-- The text of the open block from here to its end. -/
def restOfBlock (v : MarkedText α) : List α := restFrom 0 v

namespace Braced

/-! ### Putting trees together -/

/-- A text behind a text. -/
def append : Braced α → Braced α → Braced α
  | nil, t => t
  | glyph a rest, t => glyph a (rest.append t)
  | block o body c rest, t => block o body c (rest.append t)

/-- A text without blocks. -/
def glyphs : List α → Braced α
  | [] => nil
  | a :: k => glyph a (glyphs k)

/-- The texts of a text and of its blocks, with the blocks in them emptied. -/
def segs (t : Braced α) : List (List α) := t.emptied :: t.bodies.map emptied

@[simp] theorem source_append (s t : Braced α) : (s.append t).source = s.source ++ t.source := by
  induction s with
  | nil => rfl
  | glyph a rest ih => simp [append, ih]
  | block o body c rest _ ih => simp [append, ih]

@[simp] theorem marks_append (s t : Braced α) : (s.append t).marks = s.marks ++ t.marks := by
  induction s with
  | nil => rfl
  | glyph a rest ih => simp [append, marks, ih]
  | block o body c rest _ ih => simp [append, marks, ih]

@[simp] theorem emptied_append (s t : Braced α) : (s.append t).emptied = s.emptied ++ t.emptied := by
  induction s with
  | nil => rfl
  | glyph a rest ih => simp [append, emptied, ih]
  | block o body c rest _ ih => simp [append, emptied, ih]

@[simp] theorem bodies_append (s t : Braced α) : (s.append t).bodies = s.bodies ++ t.bodies := by
  induction s with
  | nil => rfl
  | glyph a rest ih => exact ih
  | block o body c rest _ ih => simp [append, bodies, ih]

theorem glyphs_spec (k : List α) : (glyphs k).source = k ∧
    (glyphs k).marks = List.replicate k.length none ∧ (glyphs k).emptied = k ∧
    (glyphs k).bodies = [] := by
  induction k with
  | nil => exact ⟨rfl, rfl, rfl, rfl⟩
  | cons a k ih =>
    obtain ⟨hsource, hmarks, hemptied, hbodies⟩ := ih
    exact ⟨congrArg _ hsource, congrArg _ hmarks, congrArg _ hemptied, hbodies⟩

/-! ### Open blocks and what stands around them -/

/-- What stands before the open blocks, the innermost first: a text and an opening brace. -/
def frontSource : List (Braced α × α) → List α
  | [] => []
  | (s, o) :: fronts => frontSource fronts ++ (s.source ++ [o])

/-- The marks of `frontSource`. -/
def frontMarks : List (Braced α × α) → List (Option Brace)
  | [] => []
  | (s, _) :: fronts => frontMarks fronts ++ (s.marks ++ [some .opening])

/-- Close the open blocks around a text. -/
def close : Braced α → List (Braced α × α) → List (α × Braced α) → Braced α
  | t, (s, o) :: fronts, (c, rest) :: backs => close (s.append (block o t c rest)) fronts backs
  | t, _, _ => t

theorem source_close (t : Braced α) {fronts : List (Braced α × α)} {backs : List (α × Braced α)}
    (h : backs.length = fronts.length) :
    (close t fronts backs).source = frontSource fronts ++ openSource t backs ∧
      (close t fronts backs).marks = frontMarks fronts ++ openMarks t backs := by
  induction fronts generalizing t backs with
  | nil =>
    obtain rfl := List.eq_nil_of_length_eq_zero h
    simp [close, frontSource, frontMarks, openSource, openMarks]
  | cons front fronts ih =>
    cases backs with
    | nil => cases h
    | cons back backs =>
      obtain ⟨c, rest⟩ := back
      obtain ⟨hsource, hmarks⟩ := ih (front.1.append (block front.2 t c rest)) (Nat.succ.inj h)
      rw [close, hsource, hmarks]
      simp [frontSource, frontMarks, openSource, openMarks, marks]

/-- Closing blocks around a text adds their texts in front and behind. -/
theorem segs_close (fronts : List (Braced α × α)) (backs : List (α × Braced α)) :
    ∃ before after, ∀ t : Braced α, (close t fronts backs).segs = before ++ t.segs ++ after := by
  induction fronts generalizing backs with
  | nil => exact ⟨[], [], fun t => by simp [close]⟩
  | cons front fronts ih =>
    cases backs with
    | nil => exact ⟨[], [], fun t => by simp [close]⟩
    | cons back backs =>
      obtain ⟨before, after, hsegs⟩ := ih backs
      refine ⟨before ++ (front.1.emptied ++ front.2 :: back.1 :: back.2.emptied) ::
        front.1.bodies.map emptied, back.2.bodies.map emptied ++ after, fun t => ?_⟩
      rw [close, hsegs]
      simp [segs, emptied, bodies]

/-! ### Something inserted at a place -/

/-- A text with its marks. -/
def marked (t : Braced α) : MarkedText α := t.source.zip t.marks

theorem marked_block (o : α) (body : Braced α) (c : α) (rest : Braced α) :
    (block o body c rest).marked
      = (o, some .opening) :: (body.marked ++ (c, some .closing) :: rest.marked) := by
  have hzip : (body.source ++ c :: rest.source).zip (body.marks ++ some .closing :: rest.marks)
      = body.marked ++ (c :: rest.source).zip (some .closing :: rest.marks) :=
    List.zip_append body.length_marks.symm
  rw [marked, source_block, marks, List.zip_cons_cons, hzip]
  rfl

/-- Reading a text in which every block is closed. -/
theorem restFrom_marked (t : Braced α) (v : MarkedText α) :
    (∀ depth, restFrom (depth + 1) (t.marked ++ v) = restFrom (depth + 1) v) ∧
      restFrom 0 (t.marked ++ v) = t.emptied ++ restFrom 0 v := by
  induction t generalizing v with
  | nil => exact ⟨fun _ => rfl, rfl⟩
  | glyph a rest ih =>
    obtain ⟨hinner, houter⟩ := ih v
    exact ⟨hinner, congrArg _ houter⟩
  | block o body c rest ihBody ihRest =>
    obtain ⟨hinner, houter⟩ := ihRest v
    have hsplit : (block o body c rest).marked ++ v
        = (o, some .opening) :: (body.marked ++ (c, some .closing) :: (rest.marked ++ v)) := by
      rw [marked_block, List.cons_append, List.append_assoc, List.cons_append]
    rw [hsplit]
    refine ⟨fun depth => ?_, ?_⟩
    · show restFrom (depth + 2) _ = _
      rw [(ihBody _).1 (depth + 1)]
      exact hinner depth
    · show o :: restFrom 1 _ = _
      rw [(ihBody _).1 0]
      exact congrArg (o :: c :: ·) houter

/-- The rest of a block is what stands before its closing brace. -/
theorem restFrom_open (t : Braced α) (backs : List (α × Braced α)) :
    restFrom 0 ((openSource t backs).zip (openMarks t backs)) = t.emptied := by
  have hzip : (openSource t backs).zip (openMarks t backs) = t.marked ++
      (backs.flatMap fun s => s.1 :: s.2.source).zip
        (backs.flatMap fun s => some Brace.closing :: s.2.marks) :=
    List.zip_append t.length_marks.symm
  rw [hzip, (restFrom_marked t _).2]
  cases backs with
  | nil => exact List.append_nil _
  | cons back backs => exact List.append_nil _

/-- `exists_braced_around` behind a text whose open blocks are `fronts`, around `s`. -/
theorem exists_braced_from (u v : MarkedText α) (fronts : List (Braced α × α)) (s : Braced α)
    (h : closesFrom fronts.length ((u ++ v).map Prod.snd)) :
    ∃ before after, ∀ k : List α, ∃ t : Braced α,
      t.source = frontSource fronts ++ s.source ++ u.map Prod.fst ++ k ++ v.map Prod.fst ∧
      t.marks = frontMarks fronts ++ s.marks ++ u.map Prod.snd ++ List.replicate k.length none ++
        v.map Prod.snd ∧
      t.segs = before ++ ((u.foldl readMark (s.emptied :: fronts.map fun f =>
        f.1.emptied ++ [f.2])).headD [] ++ k ++ restOfBlock v) :: after := by
  induction u generalizing fronts s with
  | nil =>
    have hlen : (v.map Prod.snd).length = (v.map Prod.fst).length := by simp
    obtain ⟨t, backs, hbacks, hsource, hmarks⟩ := exists_openSource _ _ _ hlen h
    obtain ⟨before, after, hsegs⟩ := segs_close fronts backs
    have hrest : restOfBlock v = t.emptied := by
      rw [restOfBlock, ← restFrom_open t backs, hsource, hmarks, ← List.zip_of_prod rfl rfl]
    refine ⟨before, s.bodies.map emptied ++ t.bodies.map emptied ++ after, fun k => ?_⟩
    obtain ⟨hsource', hmarks', hemptied', hbodies'⟩ := glyphs_spec k
    have hclose := source_close (s.append ((glyphs k).append t)) hbacks
    refine ⟨close (s.append ((glyphs k).append t)) fronts backs, ?_, ?_, ?_⟩
    · rw [hclose.1, ← hsource]
      simp [openSource, hsource']
    · rw [hclose.2, ← hmarks]
      simp [openMarks, hmarks']
    · rw [hsegs, hrest]
      simp [segs, hemptied', hbodies']
  | cons x u ih =>
    obtain ⟨a, mark⟩ := x
    cases mark with
    | none =>
      have hstep := ih fronts (s.append (glyph a nil)) h
      simpa [marks, emptied, readMark] using hstep
    | some brace =>
      cases brace with
      | opening =>
        have hstep := ih ((s, a) :: fronts) nil h
        simpa [marks, emptied, readMark, frontSource, frontMarks] using hstep
      | closing =>
        cases fronts with
        | nil => cases h
        | cons front fronts =>
          have hstep := ih fronts (front.1.append (block front.2 s a nil)) h
          simpa [marks, emptied, readMark, frontSource, frontMarks] using hstep

/-- **Something inserted at a place** goes into the text of the block that is open there, and
nowhere else. -/
theorem exists_braced_around (u v : MarkedText α) (h : Balanced ((u ++ v).map Prod.snd)) :
    ∃ before after, ∀ k : List α, ∃ t : Braced α,
      t.source = u.map Prod.fst ++ k ++ v.map Prod.fst ∧
      t.marks = u.map Prod.snd ++ List.replicate k.length none ++ v.map Prod.snd ∧
      t.segs = before ++ (textSoFar u ++ k ++ restOfBlock v) :: after := by
  have hfrom := exists_braced_from u v [] nil h
  simpa [frontSource, frontMarks, marks, emptied, textSoFar] using hfrom

end Braced

end Csc512
